import DocStore.Runtime.RebuildTermination

/-!
# What a rebuild covers

A rebuild of the flagged documents asks for them again in every turn, while each turn takes the
flags off the files of its documents. A document that is flagged only through its file is therefore
lost when another document of the file stands in an earlier batch. `rebuild_covers_iff` says that
nothing else is lost.
-/

set_option autoImplicit false
set_option relaxedAutoImplicit false

namespace DocStore

open Foundation

variable {ν : Type}

/-! ### A client that answers -/

/-- No embedding fails: the sizes are positive, and the client answers to any texts with a vector
for each. -/
structure VectorizationService.Reliable (service : VectorizationService ν) : Prop where
  batchSize : 0 < service.config.batchSize
  dimension : 0 < service.config.dimension
  answers : ∀ calls texts, ∃ response, service.client calls texts = .ok response ∧
    succeeds (extractVectors service.config texts.length response) = true ∧
    succeeds (extractBm25TokenGroups response) = true

/-- The vectors of some records have a dimension. -/
def OfDimension (dimension : ℕ) (records : List ChunkVectorRecord) : Prop :=
  ∀ record ∈ records, record.vector.length = dimension

variable {service : VectorizationService ν} {config : EmbeddingConfig}

/-- The client answers to each text with a vector that depends on this text alone. -/
structure VectorizationService.Embeds (service : VectorizationService ν) (embed : Text → Vector) :
    Prop where
  batchSize : 0 < service.config.batchSize
  dimension : 0 < service.config.dimension
  answers : ∀ calls texts, ∃ response, service.client calls texts = .ok response ∧
    extractVectors service.config texts.length response = .ok (texts.map embed) ∧
    succeeds (extractBm25TokenGroups response) = true

theorem VectorizationService.Embeds.reliable {embed : Text → Vector} (hembeds : service.Embeds embed) :
    service.Reliable where
  batchSize := hembeds.batchSize
  dimension := hembeds.dimension
  answers calls texts := by
    obtain ⟨response, hresponse, hvectors, htokens⟩ := hembeds.answers calls texts
    exact ⟨response, hresponse, by rw [hvectors]; rfl, htokens⟩

theorem vectorOf_length {dimension index : ℕ} {raw : Option (List (Option ℚ))} {vector : Vector}
    (hvector : vectorOf dimension index raw = .ok vector) : vector.length = dimension := by
  cases raw with
  | none => cases hvector
  | some components =>
    simp only [vectorOf, raiseIf_bind_eq_ok, pure_eq_ok, decide_eq_false_iff_not, not_not,
      List.any_eq_false] at hvector
    obtain ⟨hlength, hfinite, rfl⟩ := hvector
    rw [List.filterMap_length_eq_length.mpr, hlength]
    intro component hmem
    simpa [Option.isNone_iff_eq_none, Option.isSome_iff_ne_none] using hfinite component hmem

/-- The vectors that are taken from an answer have the configured dimension. -/
theorem extractVectors_length {count : ℕ} {response : EmbedResponse} {vectors : List Vector}
    (hvectors : extractVectors config count response = .ok vectors) :
    ∀ vector ∈ vectors, vector.length = config.dimension := by
  simp only [extractVectors, raiseIf_bind_eq_ok] at hvectors
  obtain ⟨_, _, hvectors⟩ := hvectors
  cases hresults : response.results with
  | none =>
    rw [hresults] at hvectors
    cases hvectors
  | some results =>
    rw [hresults] at hvectors
    simp only [raiseIf_bind_eq_ok] at hvectors
    intro vector hmem
    obtain ⟨entry, _, hentry⟩ := exists_of_mapM_eq_ok hvectors.2 hmem
    unfold itemVector at hentry
    split at hentry
    · cases hentry
    · exact vectorOf_length hentry

/-- What a call of the client yields has the configured dimension. -/
theorem ofDimension_embedBatch {client : EmbedClient} {calls : ℕ} {batch : List ChunkVectorInput}
    {records : List ChunkVectorRecord}
    (hrecords : embedBatch config client calls batch = .ok records) :
    OfDimension config.dimension records := by
  obtain ⟨response, _, hresponse⟩ := bind_eq_ok.mp hrecords
  obtain ⟨vectors, hvectors, hvectored⟩ := bind_eq_ok.mp hresponse
  obtain ⟨tokens, _, htokens⟩ := bind_eq_ok.mp hvectored
  cases htokens
  intro record hmem
  obtain ⟨⟨item, vector, token⟩, hentry, rfl⟩ := List.mem_map.mp hmem
  exact extractVectors_length hvectors _ (List.of_mem_zip (List.of_mem_zip hentry).2).1

theorem ofDimension_embedChunks {client : EmbedClient} {calls : ℕ}
    {inputs : List ChunkVectorInput} {records : List ChunkVectorRecord}
    (hrecords : embedChunks config client calls inputs = .ok records) :
    OfDimension config.dimension records := by
  obtain ⟨_, hbatches⟩ := raiseIf_bind_eq_ok.mp hrecords
  obtain ⟨batches, hmap, hflat⟩ := bind_eq_ok.mp hbatches
  cases hflat
  intro record hmem
  obtain ⟨batch, hbatch, hrecord⟩ := List.mem_flatten.mp hmem
  obtain ⟨entry, _, hentry⟩ := exists_of_mapM_eq_ok hmap hbatch
  exact ofDimension_embedBatch hentry record hrecord

/-- A reliable client embeds any texts. -/
theorem VectorizationService.Reliable.exists_embedChunks (hreliable : service.Reliable)
    (calls : ℕ) (inputs : List ChunkVectorInput) :
    ∃ records, embedChunks service.config service.client calls inputs = .ok records := by
  have hbatches : ∃ batches, ((service.config.callsFor inputs).zipIdx.mapM fun entry ↦
      embedBatch service.config service.client (calls + entry.2) entry.1) = .ok batches := by
    refine exists_mapM_eq_ok fun entry _ ↦ ?_
    obtain ⟨response, hresponse, hvectors, htokens⟩ :=
      hreliable.answers (calls + entry.2) (entry.1.map ChunkVectorInput.body)
    obtain ⟨vectors, hvectors⟩ := exists_of_succeeds hvectors
    obtain ⟨tokens, htokens⟩ := exists_of_succeeds htokens
    rw [List.length_map] at hvectors
    refine ⟨_, bind_eq_ok.mpr ⟨response, by rw [hresponse]; rfl, bind_eq_ok.mpr
      ⟨vectors, hvectors, bind_eq_ok.mpr ⟨tokens, htokens, rfl⟩⟩⟩⟩
  obtain ⟨batches, hbatches⟩ := hbatches
  exact ⟨batches.flatten, raiseIf_bind_eq_ok.mpr
    ⟨decide_eq_false (not_le.mpr hreliable.batchSize), bind_eq_ok.mpr ⟨batches, hbatches, rfl⟩⟩⟩

/-! ### Averages of vectors of one dimension -/

/-- Vectors of one positive dimension have a mean, of the same dimension. -/
theorem meanVector_of_dimension {dimension : ℕ} (hdimension : 0 < dimension)
    {vectors : List Vector} (hvectors : vectors ≠ [])
    (hlength : ∀ vector ∈ vectors, vector.length = dimension) :
    ∃ mean, meanVector vectors = .ok mean ∧ mean.length = dimension := by
  cases vectors with
  | nil => exact absurd rfl hvectors
  | cons first rest =>
    have hfirst := hlength first List.mem_cons_self
    have hrest : ¬ (rest.any fun vector ↦ vector.length ≠ first.length) = true := by
      rw [Bool.not_eq_true, List.any_eq_false]
      intro vector hmem
      rw [hfirst, hlength vector (List.mem_cons_of_mem _ hmem)]
      simp
    rw [meanVector, if_neg (hfirst ▸ hdimension.ne'), if_neg hrest]
    exact ⟨_, rfl, by rw [List.length_map, List.length_range, hfirst]⟩

/-- Groups of vectors of one positive dimension have means. -/
theorem exists_meanRecords {dimension : ℕ} (hdimension : 0 < dimension)
    (entityType : VectorEntity) {groups : List (Uuid × List Vector)}
    (hgroups : ∀ group ∈ groups, group.2 ≠ [] ∧
      ∀ vector ∈ group.2, vector.length = dimension) :
    ∃ records, meanRecords entityType groups = .ok records ∧ OfDimension dimension records := by
  have hmeans : ∀ group ∈ groups, ∃ mean, meanVector group.2 = .ok mean ∧
      mean.length = dimension :=
    fun group hmem ↦ meanVector_of_dimension hdimension (hgroups group hmem).1
      (hgroups group hmem).2
  obtain ⟨records, hrecords⟩ : ∃ records, meanRecords entityType groups = .ok records := by
    refine exists_mapM_eq_ok fun group hmem ↦ ?_
    obtain ⟨mean, hmean, _⟩ := hmeans group hmem
    exact ⟨_, bind_eq_ok.mpr ⟨mean, hmean, rfl⟩⟩
  refine ⟨records, hrecords, fun record hmem ↦ ?_⟩
  obtain ⟨group, hgroup, hrecord⟩ := exists_of_mapM_eq_ok hrecords hmem
  obtain ⟨mean, hmean, hlength⟩ := hmeans group hgroup
  obtain ⟨other, hother, hrecord⟩ := bind_eq_ok.mp hrecord
  cases hrecord
  cases hmean.symm.trans hother
  exact hlength

theorem dimension_of_byDocument {dimension : ℕ} {records : List ChunkVectorRecord}
    (hrecords : OfDimension dimension records) : ∀ group ∈ byDocument records,
      group.2 ≠ [] ∧ ∀ vector ∈ group.2, vector.length = dimension := by
  have hby : ∀ entityType direct, ∀ group ∈ vectorsByDocument entityType direct records,
      group.2 ≠ [] ∧ ∀ vector ∈ group.2, vector.length = dimension := by
    intro entityType direct group hgroup
    obtain ⟨hne, hmem⟩ := mem_grouped hgroup
    refine ⟨hne, fun vector hvector ↦ ?_⟩
    obtain ⟨record, hrecord, hpair⟩ := List.mem_filterMap.mp (hmem vector hvector)
    obtain ⟨_, _, hpair⟩ := Option.map_eq_some_iff.mp hpair
    cases hpair
    exact hrecords record (List.mem_of_mem_filter hrecord)
  unfold byDocument
  dsimp only
  split
  · exact hby _ _
  · exact hby _ _

theorem length_documentVector {dimension : ℕ} {records : List ChunkVectorRecord}
    (hrecords : OfDimension dimension records) {documentId : Uuid} {vector : Vector}
    (hvector : documentVector records documentId = some vector) : vector.length = dimension := by
  obtain ⟨record, hrecord, rfl⟩ := Option.map_eq_some_iff.mp hvector
  exact hrecords record (List.mem_reverse.mp (List.mem_of_find?_eq_some hrecord))

theorem dimension_of_byFile {dimension : ℕ} {records : List ChunkVectorRecord}
    (hrecords : OfDimension dimension records) (db : Db) (docs direct : List Uuid) :
    ∀ group ∈ byFile db docs records direct,
      group.2 ≠ [] ∧ ∀ vector ∈ group.2, vector.length = dimension := by
  intro group hgroup
  obtain ⟨hne, hmem⟩ := mem_grouped hgroup
  refine ⟨hne, fun vector hvector ↦ ?_⟩
  obtain ⟨row, _, hpair⟩ := List.mem_filterMap.mp (hmem vector hvector)
  obtain ⟨fileId, _, hpair⟩ := Option.bind_eq_some_iff.mp hpair
  obtain ⟨other, hother, hpair⟩ := Option.bind_eq_some_iff.mp hpair
  split at hpair
  · cases hpair
  · cases hpair
    exact length_documentVector hrecords hother

/-- Vectors of one positive dimension are stored. -/
theorem exists_persistVectors (hdimension : 0 < service.config.dimension) (now : Instant)
    (docs : List Uuid) {vectors : List ChunkVectorRecord}
    (hvectors : OfDimension service.config.dimension vectors) (store : VectorizationDb ν) :
    ∃ written, persistVectors service now docs vectors store = .ok written := by
  obtain ⟨documentRecords, hdocuments, hlength⟩ :=
    exists_meanRecords hdimension .document (dimension_of_byDocument hvectors)
  have hall : OfDimension service.config.dimension (documentRecords ++ vectors) :=
    fun record hmem ↦ (List.mem_append.mp hmem).elim (hlength record) (hvectors record)
  obtain ⟨fileRecords, hfiles, _⟩ :=
    exists_meanRecords hdimension .file
      (dimension_of_byFile hall store.toDb docs (recordedIds .file vectors))
  exact ⟨_, bind_eq_ok.mpr ⟨_, bind_eq_ok.mpr ⟨_, hdocuments, bind_eq_ok.mpr ⟨_, hfiles, rfl⟩⟩,
    rfl⟩⟩

/-! ### The flagged documents in order -/

/-- The documents that a rebuild of the flagged documents finds, in order. -/
def flaggedInOrder (store : VectorizationDb ν) : List Uuid := documentsInOrder none false none store

variable {store : VectorizationDb ν}

theorem documentRank_injective : Function.Injective store.documentRank := by
  intro first second hrank
  have hparts := Prod.mk.inj (toLex_inj.mp hrank)
  exact BitVec.eq_of_toNat_eq (Prod.mk.inj (toLex_inj.mp hparts.2)).2

instance : Std.Total store.rankBefore := ⟨fun _ _ ↦ le_total _ _⟩

instance : IsTrans Uuid store.rankBefore := ⟨fun _ _ _ hfirst hsecond ↦ le_trans hfirst hsecond⟩

theorem mem_flaggedInOrder {id : Uuid} : id ∈ flaggedInOrder store ↔
    ∃ row ∈ store.documents, row.deletedAt = none ∧ store.needsRevectorize row = true ∧
      row.id = id := by
  rw [flaggedInOrder, mem_documentsInOrder]
  simp only [documentSelected, Bool.and_eq_true, Option.isNone_iff_eq_none, Bool.false_or, and_assoc]

theorem pairwise_flaggedInOrder : (flaggedInOrder store).Pairwise store.rankBefore :=
  List.pairwise_insertionSort _ _

theorem nodup_flaggedInOrder (hids : (store.documents.map fun row ↦ row.id).Nodup) :
    (flaggedInOrder store).Nodup :=
  (List.perm_insertionSort _ _).nodup_iff.mpr (hids.sublist (List.filter_sublist.map _))

/-- What a transaction leaves flagged was flagged before, and is not one of its documents. -/
theorem mem_of_mem_flaggedInOrder_unflag {now : Instant} {docs : List Uuid} {id : Uuid}
    (hid : id ∈ flaggedInOrder (unflag now docs store)) : id ∈ flaggedInOrder store ∧ id ∉ docs := by
  obtain ⟨row, hrow, hlive, hneeds, rfl⟩ := mem_flaggedInOrder.mp hid
  refine ⟨mem_flaggedInOrder.mpr
    ⟨row, hrow, hlive, needsRevectorize_of_unflag hneeds, rfl⟩, fun hdocs ↦ ?_⟩
  have hgone : (unflag now docs store).needsRevectorize row = false :=
    @not_needsRevectorize_of_mem ν now docs store row hrow hdocs
  exact Bool.false_ne_true (hgone.symm.trans hneeds)

/-- A transaction leaves the documents behind its batch in their order, without those that are no
longer flagged. -/
theorem flaggedInOrder_unflag (hids : (store.documents.map fun row ↦ row.id).Nodup)
    (now : Instant) (count : ℕ) :
    flaggedInOrder (unflag now ((flaggedInOrder store).take count) store) =
      ((flaggedInOrder store).drop count).filter
        (· ∈ flaggedInOrder (unflag now ((flaggedInOrder store).take count) store)) := by
  generalize hdocs : (flaggedInOrder store).take count = docs
  have hrank : ∀ id ∈ flaggedInOrder (unflag now docs store),
      (unflag now docs store).documentRank id = store.documentRank id := by
    intro id hid
    have hnot := (mem_of_mem_flaggedInOrder_unflag hid).2
    simp only [VectorizationDb.documentRank, unflag, List.contains_eq_mem, hnot, decide_false,
      Bool.false_eq_true, if_false]
  have hsorted : (flaggedInOrder (unflag now docs store)).Pairwise store.rankBefore := by
    refine pairwise_flaggedInOrder.imp_of_mem fun {first second} hfirst hsecond hbefore ↦ ?_
    rw [VectorizationDb.rankBefore, ← hrank first hfirst, ← hrank second hsecond]
    exact hbefore
  have hbehind : ∀ id ∈ flaggedInOrder (unflag now docs store),
      id ∈ (flaggedInOrder store).drop count := by
    intro id hid
    obtain ⟨hmem, hnot⟩ := mem_of_mem_flaggedInOrder_unflag hid
    rw [← List.take_append_drop count (flaggedInOrder store), hdocs, List.mem_append] at hmem
    exact hmem.resolve_left hnot
  refine List.Perm.eq_of_pairwise
    (fun first second _ _ hfirst hsecond ↦ documentRank_injective (le_antisymm hfirst hsecond))
    hsorted ((pairwise_flaggedInOrder.sublist (List.drop_sublist _ _)).filter _) ?_
  have hnodup : (flaggedInOrder (unflag now docs store)).Nodup :=
    @nodup_flaggedInOrder ν (unflag now docs store) hids
  refine (List.perm_ext_iff_of_nodup hnodup
    (((nodup_flaggedInOrder hids).sublist (List.drop_sublist _ _)).filter _)).mpr fun id ↦ ?_
  rw [List.mem_filter, decide_eq_true_iff]
  exact ⟨fun hid ↦ ⟨hbehind id hid, hid⟩, And.right⟩

/-! ### Documents that are lost -/

/-- The documents of a batch keep those of a later batch flagged: a document that is not flagged
itself has another file than they. -/
def KeepsFlagged (store : VectorizationDb ν) (earlier later : List Uuid) : Prop :=
  ∀ row ∈ store.documents, row.id ∈ later → row.id ∉ store.documentsToRevectorize →
    ∀ fileId, row.ownerId = some fileId → fileId ∉ ownersOf store.toDb earlier

/-- No batch of the flagged documents takes the flag off a document of a later batch. -/
def NoneLost (size : ℕ) (store : VectorizationDb ν) : Prop :=
  (batches size (flaggedInOrder store)).Pairwise (KeepsFlagged store)

/-- A document behind a batch stays flagged when the batch keeps it. -/
theorem mem_flaggedInOrder_unflag {now : Instant} {docs later : List Uuid} {id : Uuid}
    (hkeeps : KeepsFlagged store docs later) (hid : id ∈ flaggedInOrder store)
    (hlater : id ∈ later) (hnot : id ∉ docs) : id ∈ flaggedInOrder (unflag now docs store) := by
  obtain ⟨row, hrow, hlive, hneeds, rfl⟩ := mem_flaggedInOrder.mp hid
  refine mem_flaggedInOrder.mpr ⟨row, hrow, hlive, needsRevectorize_unflag.mpr ?_, rfl⟩
  by_cases hself : row.id ∈ store.documentsToRevectorize
  · exact .inl ⟨hself, hnot⟩
  · obtain ⟨fileId, howner, hfile, hflagged⟩ :=
      (needsRevectorize_eq_true.mp hneeds).resolve_left hself
    exact .inr ⟨fileId, howner, hfile, hflagged, hkeeps row hrow hlater hself fileId howner⟩

/-- A document that a batch does not keep is not flagged any more. -/
theorem exists_lost (now : Instant) {docs later : List Uuid}
    (hids : (store.documents.map fun row ↦ row.id).Nodup)
    (hlost : ¬ KeepsFlagged store docs later) :
    ∃ id ∈ later, id ∉ flaggedInOrder (unflag now docs store) := by
  simp only [KeepsFlagged, not_forall, not_not] at hlost
  obtain ⟨row, hrow, hlater, hself, fileId, howner, hmem⟩ := hlost
  refine ⟨row.id, hlater, fun hid ↦ ?_⟩
  obtain ⟨other, hother, _, hneeds, hsame⟩ := mem_flaggedInOrder.mp hid
  obtain rfl := List.inj_on_of_nodup_map hids hother hrow hsame
  rcases needsRevectorize_unflag.mp hneeds with ⟨hflagged, _⟩ | ⟨otherFile, hotherFile, _, _, hnot⟩
  · exact hself hflagged
  · obtain rfl := Option.some.inj (howner.symm.trans hotherFile)
    exact hnot hmem

/-! ### The run -/

/-- A call for the flagged documents without a limit. -/
def flaggedCall (documentBatchSize : ℤ) : RebuildCall := { documentBatchSize }

/-- A turn that finds flagged documents stores their vectors. -/
theorem exists_turn (hreliable : service.Reliable) {size : ℤ} (hsize : 0 < size)
    {state : RebuildState ν} (hleft : flaggedInOrder state.store ≠ []) :
    ∃ next now, rebuildTurn service (flaggedCall size) state = .next next ∧
      next.processedDocs = state.processedDocs ++ (flaggedInOrder state.store).take size.toNat ∧
      next.processedChunks = state.processedChunks ++ selectVectorInputs service.config
        ((flaggedInOrder state.store).take size.toNat) state.store ∧
      next.store = { unflag now ((flaggedInOrder state.store).take size.toNat) state.store with
        embeddings := next.store.embeddings, bm25Tokens := next.store.bm25Tokens } := by
  have hselected : nextDocuments (flaggedCall size) state =
      .ok (some ((flaggedInOrder state.store).take size.toNat, state.allDocumentsAfter)) := by
    rw [nextDocuments_of_none state hsize rfl]
    exact if_neg (not_or.mpr ⟨Bool.false_ne_true, hleft⟩)
  obtain ⟨vectors, hvectors⟩ := hreliable.exists_embedChunks state.calls
    (selectVectorInputs service.config ((flaggedInOrder state.store).take size.toNat) state.store)
  obtain ⟨store, hstore⟩ := exists_persistVectors hreliable.dimension
    (service.now state.processedDocs.length) ((flaggedInOrder state.store).take size.toNat)
    (ofDimension_embedChunks hvectors) state.store
  exact ⟨_, _, rebuildTurn_of_stored rfl hselected hvectors hstore, rfl, rfl,
    persistVectors_toDb hstore⟩

/-- What a rebuild of the flagged documents comes to, from a state of its loop on. -/
structure FlaggedRun (size : ℕ) (store final : VectorizationDb ν) (docs : List Uuid)
    (chunks : List ChunkVectorInput) : Prop where
  tables : final.toDb = store.toDb
  flagged : docs ⊆ flaggedInOrder store
  texts : ∀ id ∈ docs, paragraphInputs store.toDb id ++ chunkInputs store.toDb id ⊆ chunks
  unflagged : flaggedInOrder final = []
  all : NoneLost size store → docs = flaggedInOrder store
  lost : ¬ NoneLost size store → ∃ id ∈ flaggedInOrder store, id ∉ docs

/-- The texts of the documents of a batch are among those that are selected for it. -/
theorem subset_selectVectorInputs (config : EmbeddingConfig) {docs : List Uuid} {id : Uuid}
    (hid : id ∈ docs) : paragraphInputs store.toDb id ++ chunkInputs store.toDb id ⊆
      selectVectorInputs config docs store := by
  intro input hinput
  have hordered : id ∈ docs.insertionSort idBefore := (List.mem_insertionSort _).mpr hid
  rw [selectVectorInputs]
  refine List.mem_append_left _ (List.mem_append_left _ ?_)
  rcases List.mem_append.mp hinput with hparagraph | hchunk
  · exact List.mem_append_left _ (List.mem_flatMap.mpr ⟨id, hordered, hparagraph⟩)
  · exact List.mem_append_right _ (List.mem_flatMap.mpr ⟨id, hordered, hchunk⟩)

/-- A batch that keeps all later ones leaves what is behind it. -/
theorem kept_of_keepsFlagged {size : ℕ} (hsize : 0 < size) (now : Instant)
    (hids : (store.documents.map fun row ↦ row.id).Nodup)
    (hkeeps : ∀ batch ∈ batches size ((flaggedInOrder store).drop size),
      KeepsFlagged store ((flaggedInOrder store).take size) batch) :
    flaggedInOrder (unflag now ((flaggedInOrder store).take size) store) =
      (flaggedInOrder store).drop size := by
  rw [flaggedInOrder_unflag hids, List.filter_eq_self]
  intro id hid
  rw [← flatten_batches hsize ((flaggedInOrder store).drop size)] at hid
  obtain ⟨batch, hbatch, hmem⟩ := List.mem_flatten.mp hid
  have hdrop := mem_of_mem_batches hsize hbatch hmem
  refine decide_eq_true (mem_flaggedInOrder_unflag (hkeeps batch hbatch)
    (List.mem_of_mem_drop hdrop) hmem fun htake ↦ ?_)
  exact List.disjoint_take_drop (nodup_flaggedInOrder hids) le_rfl htake hdrop

/-- Batches that keep what they leave flagged stay so when the first one is stored. -/
theorem noneLost_unflag_iff {size : ℕ} (hsize : 0 < size) {now : Instant}
    (hids : (store.documents.map fun row ↦ row.id).Nodup)
    (hkept : flaggedInOrder (unflag now ((flaggedInOrder store).take size) store) =
      (flaggedInOrder store).drop size) :
    NoneLost size (unflag now ((flaggedInOrder store).take size) store) ↔
      (batches size ((flaggedInOrder store).drop size)).Pairwise (KeepsFlagged store) := by
  rw [NoneLost, hkept]
  have hsub : ∀ batch ∈ batches size ((flaggedInOrder store).drop size), ∀ id ∈ batch,
      id ∉ (flaggedInOrder store).take size := by
    intro batch hbatch id hid htake
    exact List.disjoint_take_drop (nodup_flaggedInOrder hids) le_rfl htake
      (mem_of_mem_batches hsize hbatch hid)
  refine List.Pairwise.iff_of_mem fun {earlier later} _ hlater ↦ ?_
  refine forall₃_congr fun row _ hmem ↦ imp_congr_left (not_congr ?_)
  simp only [unflag, mem_clearFlag, List.contains_eq_mem, decide_eq_false_iff_not,
    and_iff_left (hsub later hlater row.id hmem)]

/-- What a first batch and the run behind it come to. -/
theorem FlaggedRun.cons {size : ℕ} (hsize : 0 < size) {now : Instant}
    {final : VectorizationDb ν} {docs : List Uuid} {chunks : List ChunkVectorInput}
    (hids : (store.documents.map fun row ↦ row.id).Nodup)
    (hleft : flaggedInOrder store ≠ []) (config : EmbeddingConfig)
    (hrun : FlaggedRun size (unflag now ((flaggedInOrder store).take size) store) final docs chunks) :
    FlaggedRun size store final ((flaggedInOrder store).take size ++ docs)
      (selectVectorInputs config ((flaggedInOrder store).take size) store ++ chunks) where
  tables := hrun.tables
  flagged := List.append_subset.mpr ⟨List.take_subset _ _, fun id hid ↦
    (mem_of_mem_flaggedInOrder_unflag (hrun.flagged hid)).1⟩
  texts := by
    intro id hid
    rcases List.mem_append.mp hid with hfirst | hrest
    · exact List.subset_append_of_subset_left _ (subset_selectVectorInputs config hfirst)
    · exact List.subset_append_of_subset_right _ (hrun.texts id hrest)
  unflagged := hrun.unflagged
  all := by
    intro hnone
    rw [NoneLost, batches_of_ne_nil hsize hleft, List.pairwise_cons] at hnone
    have hkept := kept_of_keepsFlagged hsize now hids hnone.1
    rw [hrun.all ((noneLost_unflag_iff hsize hids hkept).mpr hnone.2), hkept,
      List.take_append_drop]
  lost := by
    intro hlost
    by_cases hfirst : ∀ batch ∈ batches size ((flaggedInOrder store).drop size),
        KeepsFlagged store ((flaggedInOrder store).take size) batch
    · have hkept := kept_of_keepsFlagged hsize now hids hfirst
      have hrest : ¬ NoneLost size (unflag now ((flaggedInOrder store).take size) store) := by
        rw [noneLost_unflag_iff hsize hids hkept]
        rw [NoneLost, batches_of_ne_nil hsize hleft, List.pairwise_cons] at hlost
        exact fun hpairs ↦ hlost ⟨hfirst, hpairs⟩
      obtain ⟨id, hid, hnot⟩ := hrun.lost hrest
      obtain ⟨hflagged, htake⟩ := mem_of_mem_flaggedInOrder_unflag hid
      exact ⟨id, hflagged, fun hmem ↦ (List.mem_append.mp hmem).elim htake hnot⟩
    · simp only [not_forall] at hfirst
      obtain ⟨batch, hbatch, hloses⟩ := hfirst
      obtain ⟨id, hid, hgone⟩ := exists_lost now hids hloses
      have hdrop := mem_of_mem_batches hsize hbatch hid
      refine ⟨id, List.mem_of_mem_drop hdrop, fun hmem ↦ ?_⟩
      rcases List.mem_append.mp hmem with htake | hdocs
      · exact List.disjoint_take_drop (nodup_flaggedInOrder hids) le_rfl htake hdrop
      · exact hgone (hrun.flagged hdocs)

/-- Embeddings and tokens do not matter to a run. -/
theorem FlaggedRun.of_embeddings {size : ℕ} {embeddings : List (EmbeddingRow ν)}
    {bm25Tokens : List Bm25Token} {final : VectorizationDb ν} {docs : List Uuid}
    {chunks : List ChunkVectorInput}
    (hrun : FlaggedRun size { store with embeddings, bm25Tokens } final docs chunks) :
    FlaggedRun size store final docs chunks where
  tables := hrun.tables
  flagged := hrun.flagged
  texts := hrun.texts
  unflagged := hrun.unflagged
  all := hrun.all
  lost := hrun.lost

/-- A rebuild of the flagged documents ends. -/
theorem exists_flaggedRun (hreliable : service.Reliable) {size : ℤ} (hsize : 0 < size)
    (state : RebuildState ν) (hids : (state.store.documents.map fun row ↦ row.id).Nodup) :
    ∃ final docs chunks, EndsWith (rebuildTurn service (flaggedCall size)) state
      (final, .ok { status := .ok, documents := state.processedDocs ++ docs
                    chunks := state.processedChunks ++ chunks }) ∧
      FlaggedRun size.toNat state.store final docs chunks := by
  have hpositive : 0 < size.toNat := by omega
  induction hlength : (flaggedInOrder state.store).length using Nat.strong_induction_on
    generalizing state with
  | _ length ih =>
    by_cases hleft : flaggedInOrder state.store = []
    · have hselected : nextDocuments (flaggedCall size) state = .ok none := by
        rw [nextDocuments_of_none state hsize rfl]
        exact if_pos (.inr hleft)
      have hnone : NoneLost size.toNat state.store := by
        rw [NoneLost, hleft]
        exact List.Pairwise.nil
      refine ⟨state.store, [], [], endsWith_of_stop ?_, ?_⟩
      · rw [rebuildTurn, hselected, List.append_nil, List.append_nil]
        rfl
      · exact
          { tables := rfl
            flagged := List.nil_subset _
            texts := fun _ hid ↦ absurd hid List.not_mem_nil
            unflagged := hleft
            all := fun _ ↦ hleft.symm
            lost := fun hlost ↦ absurd hnone hlost }
    · obtain ⟨next, now, hturn, hdocs, hchunks, hstore⟩ := exists_turn hreliable hsize hleft
      have hflagged : flaggedInOrder next.store = flaggedInOrder
          (unflag now ((flaggedInOrder state.store).take size.toNat) state.store) := by
        rw [hstore]
        rfl
      have hshorter : (flaggedInOrder next.store).length < length := by
        rw [hflagged, flaggedInOrder_unflag hids, ← hlength]
        have hdrop := (List.filter_sublist (p := fun id ↦ decide (id ∈ flaggedInOrder
          (unflag now ((flaggedInOrder state.store).take size.toNat) state.store)))
          (l := (flaggedInOrder state.store).drop size.toNat)).length_le
        have hpos := List.length_pos_of_ne_nil hleft
        rw [List.length_drop] at hdrop
        omega
      have hnextIds : (next.store.documents.map fun row ↦ row.id).Nodup := by
        rw [hstore]
        exact hids
      obtain ⟨final, docs, chunks, hends, hrun⟩ := ih _ hshorter next hnextIds rfl
      rw [hstore] at hrun
      rw [hdocs, hchunks, List.append_assoc, List.append_assoc] at hends
      exact ⟨final, _, _, (endsWith_iff_of_next hturn).mpr hends,
        hrun.of_embeddings.cons hpositive hids hleft service.config⟩

/-! ### Coverage -/

/-- A result covers the documents that were flagged: each of them was processed once, its texts
among the embedded ones, and no document is left flagged, itself or through its file. -/
structure Covered (store final : VectorizationDb ν) (result : RebuildResult) : Prop where
  status : result.status = .ok
  once : ∀ row ∈ store.documents, row.deletedAt = none → store.needsRevectorize row = true →
    result.documents.count row.id = 1
  texts : ∀ row ∈ store.documents, row.deletedAt = none → store.needsRevectorize row = true →
    paragraphInputs store.toDb row.id ++ chunkInputs store.toDb row.id ⊆ result.chunks
  unflagged : ∀ row ∈ final.documents, row.deletedAt = none → final.needsRevectorize row = false

/-- A rebuild of the flagged documents ends with a result that covers them. -/
def RebuildCovers (service : VectorizationService ν) (documentBatchSize : ℤ)
    (store : VectorizationDb ν) : Prop :=
  ∃ fuel final result, rebuild service (flaggedCall documentBatchSize) store fuel =
    some (final, .ok result) ∧ Covered store final result

/-- A call with a positive batch size covers what its loop does. -/
theorem rebuildCovers_iff_endsWith {size : ℤ} (hsize : 0 < size) :
    RebuildCovers service size store ↔ ∃ final result,
      EndsWith (rebuildTurn service (flaggedCall size)) { store } (final, .ok result) ∧
        Covered store final result := by
  have hnot : ¬ (flaggedCall size).documentBatchSize ≤ 0 := not_le.mpr hsize
  simp only [RebuildCovers, rebuild, if_neg hnot, EndsWith]
  constructor
  · rintro ⟨fuel, final, result, hloop, hcovered⟩
    exact ⟨final, result, ⟨fuel, hloop⟩, hcovered⟩
  · rintro ⟨final, result, ⟨fuel, hloop⟩, hcovered⟩
    exact ⟨fuel, final, result, hloop, hcovered⟩

/-- Without a loss, a run covers the flagged documents. -/
theorem covered_of_noneLost {size : ℕ} {final : VectorizationDb ν} {docs : List Uuid}
    {chunks : List ChunkVectorInput} (hids : (store.documents.map fun row ↦ row.id).Nodup)
    (hrun : FlaggedRun size store final docs chunks) (hnone : NoneLost size store) :
    Covered store final { status := .ok, documents := docs, chunks } := by
  have hmem : ∀ row ∈ store.documents, row.deletedAt = none → store.needsRevectorize row = true →
      row.id ∈ docs := fun row hrow hlive hneeds ↦
    hrun.all hnone ▸ mem_flaggedInOrder.mpr ⟨row, hrow, hlive, hneeds, rfl⟩
  refine
    { status := rfl
      once := fun row hrow hlive hneeds ↦ List.count_eq_one_of_mem
        (hrun.all hnone ▸ nodup_flaggedInOrder hids) (hmem row hrow hlive hneeds)
      texts := fun row hrow hlive hneeds ↦ hrun.texts row.id (hmem row hrow hlive hneeds)
      unflagged := fun row hrow hlive ↦ ?_ }
  by_contra hneeds
  have hflagged : row.id ∈ flaggedInOrder final :=
    mem_flaggedInOrder.mpr ⟨row, hrow, hlive, by simpa using hneeds, rfl⟩
  rw [hrun.unflagged] at hflagged
  cases hflagged

/-- A call that loses a document does not cover it. -/
theorem not_rebuildCovers_of_lost (hreliable : service.Reliable)
    (hids : (store.documents.map fun row ↦ row.id).Nodup) {size : ℤ} (hsize : 0 < size)
    (hlost : ¬ NoneLost size.toNat store) : ¬ RebuildCovers service size store := by
  rw [rebuildCovers_iff_endsWith hsize]
  rintro ⟨final, result, hends, hcovered⟩
  obtain ⟨_, docs, chunks, hother, hrun⟩ := exists_flaggedRun hreliable hsize { store } hids
  obtain ⟨id, hid, hnot⟩ := hrun.lost hlost
  obtain ⟨row, hrow, hlive, hneeds, rfl⟩ := mem_flaggedInOrder.mp hid
  have hresult := Except.ok.inj (Prod.mk.inj (hends.unique hother)).2
  have hcount := hcovered.once row hrow hlive hneeds
  rw [hresult, List.nil_append, List.count_eq_zero_of_not_mem hnot] at hcount
  cases hcount

/-- When no embedding fails, a rebuild of the flagged documents covers them exactly when its batch
size is positive and no batch takes the flag off a document of a later one. -/
theorem rebuild_covers_iff (hreliable : service.Reliable)
    (hids : (store.documents.map fun row ↦ row.id).Nodup) (size : ℤ) :
    RebuildCovers service size store ↔ 0 < size ∧ NoneLost size.toNat store := by
  by_cases hsize : 0 < size
  · rw [and_iff_right hsize]
    constructor
    · intro hcovers
      by_contra hlost
      exact not_rebuildCovers_of_lost hreliable hids hsize hlost hcovers
    · intro hnone
      obtain ⟨final, docs, chunks, hends, hrun⟩ :=
        exists_flaggedRun hreliable hsize { store } hids
      exact (rebuildCovers_iff_endsWith hsize).mpr
        ⟨final, _, hends, covered_of_noneLost hids hrun hnone⟩
  · refine iff_of_false ?_ fun hboth ↦ hsize hboth.1
    rintro ⟨fuel, final, result, hloop, _⟩
    rw [rebuild, if_pos (show (flaggedCall size).documentBatchSize ≤ 0 from not_lt.mp hsize)]
      at hloop
    cases hloop

/-! ### A file with two documents -/

/-- The sample vectorizer answers to each text with its length. -/
theorem embeds_sampleVectorizer :
    sampleVectorizer.Embeds fun text ↦ [(text.length : ℚ)] where
  batchSize := by decide
  dimension := by decide
  answers := by
    intro calls texts
    let itemOf : Text → EmbedItem := fun text ↦ { vector := some [some (text.length : ℚ)] }
    have hvectors : (texts.map itemOf).zipIdx.mapM (itemVector 1) =
        .ok (texts.map fun text ↦ [(text.length : ℚ)]) := by
      have htexts : texts.map (fun text ↦ [(text.length : ℚ)]) =
          texts.zipIdx.map fun entry ↦ [(entry.1.length : ℚ)] := by
        conv_lhs => rw [← List.zipIdx_map_fst 0 texts, List.map_map]
        rfl
      rw [htexts, List.zipIdx_map, mapM_eq_ok, List.forall₂_map_left_iff,
        List.forall₂_map_right_iff, List.forall₂_same]
      intro entry _
      rfl
    obtain ⟨tokens, htokens⟩ :
        ∃ tokens, (texts.map itemOf).zipIdx.mapM bm25Tokens = .ok tokens := by
      refine exists_mapM_eq_ok fun entry hentry ↦ ?_
      obtain ⟨text, _, htext⟩ := List.mem_map.mp (List.fst_mem_of_mem_zipIdx hentry)
      exact ⟨none, by rw [bm25Tokens, ← htext]⟩
    refine ⟨{ results := some (texts.map itemOf) }, rfl, ?_,
      by rw [extractBm25TokenGroups, Option.getD_some, htokens]; rfl⟩
    simp only [extractVectors, raiseIf_bind_eq_ok, Option.any_none, true_and]
    exact ⟨decide_eq_false (not_not.mpr (List.length_map _)), hvectors⟩

/-- Two documents with a paragraph each, both flagged through their file. -/
def sharedFile : VectorizationDb Vector where
  files := [{ id := 5#128, ownerId := none, primarySourceId := 6#128, path := [], name := []
              charCount := 8, contentSha256 := [], bodySha256 := [], blockMeta := [] }]
  documents := [
    { id := 1#128, ownerId := some 5#128, sourceUploadId := 11#128, sourceVersion := 1
      sourcePath := none, sourceName := none, sourceHash := none, blockMeta := [] },
    { id := 2#128, ownerId := some 5#128, sourceUploadId := 12#128, sourceVersion := 1
      sourcePath := none, sourceName := none, sourceHash := none, blockMeta := [] }]
  paragraphs := [
    { id := 21#128, ownerId := some 1#128, documentId := 1#128, chapterId := 31#128, orderIndex := 0
      text := lit "one", sourceStart := 0, sourceEnd := 3, blockMeta := [] },
    { id := 22#128, ownerId := some 2#128, documentId := 2#128, chapterId := 32#128, orderIndex := 0
      text := lit "three", sourceStart := 0, sourceEnd := 5, blockMeta := [] }]
  filesToRevectorize := [5#128]
  documentCreatedAt _ := 0
  documentUpdatedAt _ := none

/-- In one batch, both documents are covered. -/
theorem rebuildCovers_sharedFile : RebuildCovers sampleVectorizer 2 sharedFile :=
  (rebuild_covers_iff embeds_sampleVectorizer.reliable (by decide) 2).mpr ⟨by decide, by
    have hbatches : batches 2 (flaggedInOrder sharedFile) = [[1#128, 2#128]] := by decide +kernel
    rw [NoneLost, show (2 : ℤ).toNat = 2 from rfl, hbatches]
    exact List.pairwise_singleton _ _⟩

/-- In two batches, the first one takes the flag off the file, and the second document is lost. -/
theorem not_rebuildCovers_sharedFile : ¬ RebuildCovers sampleVectorizer 1 sharedFile := by
  refine not_rebuildCovers_of_lost embeds_sampleVectorizer.reliable (by decide) Int.one_pos ?_
  have hbatches : batches 1 (flaggedInOrder sharedFile) = [[1#128], [2#128]] := by decide +kernel
  rw [NoneLost, show (1 : ℤ).toNat = 1 from rfl, hbatches, List.pairwise_pair]
  intro hkeeps
  exact hkeeps _ (List.mem_cons_of_mem _ List.mem_cons_self) List.mem_cons_self List.not_mem_nil
    5#128 rfl (by decide +kernel)

end DocStore
