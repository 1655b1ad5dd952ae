import DocStore.Runtime.RebuildCoverage

/-!
# Vectors and the batches they are computed in

What a rebuild of all documents stores for a document or a file is computed from the batch in which
it comes last. A document without a paragraph text is averaged from its chunks when no document of
its batch has one, and a file from its documents in the last batch that has any. `vectors_agree`
says that nothing else depends on the batches: two batch sizes lead to the same vectors when each
document finds the same in its batch and each file the same documents in its last one.
-/

set_option autoImplicit false
set_option relaxedAutoImplicit false

namespace DocStore

open Foundation

variable {ν : Type}

/-! ### The vector in use -/

/-- The vector of an entity that is in use, for the configured model and dimension. -/
def activeVector (config : EmbeddingConfig) (embeddings : List (EmbeddingRow ν))
    (entity : VectorEntity × Uuid) : Option ν :=
  (embeddings.find? fun row ↦ row.active && embeddingOf config entity row).map EmbeddingRow.vector

/-- The entity of a record. -/
def ChunkVectorRecord.entity (record : ChunkVectorRecord) : VectorEntity × Uuid :=
  (record.entityType, record.entityId)

/-- The vector of the last record of an entity. -/
def lastVector (records : List ChunkVectorRecord) (entity : VectorEntity × Uuid) : Option Vector :=
  (records.reverse.find? fun record ↦ record.entity = entity).map ChunkVectorRecord.vector

variable {service : VectorizationService ν} {config : EmbeddingConfig}

@[simp] theorem lastVector_nil (entity : VectorEntity × Uuid) : lastVector [] entity = none :=
  rfl

theorem lastVector_append (first second : List ChunkVectorRecord) (entity : VectorEntity × Uuid) :
    lastVector (first ++ second) entity =
      (lastVector second entity).or (lastVector first entity) := by
  rw [lastVector, List.reverse_append, List.find?_append, Option.map_or]
  rfl

theorem lastVector_singleton (record : ChunkVectorRecord) (entity : VectorEntity × Uuid) :
    lastVector [record] entity = if record.entity = entity then some record.vector else none := by
  by_cases hentity : record.entity = entity <;> simp [lastVector, hentity]

theorem lastVector_eq_none {records : List ChunkVectorRecord} {entity : VectorEntity × Uuid}
    (hnone : ∀ record ∈ records, record.entity ≠ entity) : lastVector records entity = none := by
  rw [lastVector, List.find?_eq_none.mpr, Option.map_none]
  intro record hmem
  simpa using hnone record (List.mem_reverse.mp hmem)

/-- What the conflict clause makes of the row that is there. -/
def EmbeddingRow.overwrite (row old : EmbeddingRow ν) : EmbeddingRow ν :=
  { old with vector := row.vector, chunkVersionId := row.chunkVersionId, active := true }

theorem storeVector_embeddings (store : VectorizationDb ν) (record : ChunkVectorRecord) :
    (storeVector service store record).embeddings =
      upsert EmbeddingRow.version (embeddingRow service record)
        (embeddingRow service record).overwrite
        (deactivate (embeddingOf service.config record.entity) store.embeddings) := by
  unfold storeVector
  dsimp only
  split
  · rfl
  · split <;> rfl

/-- A stored record is the vector in use. -/
theorem activeVector_storeVector_self (store : VectorizationDb ν) (record : ChunkVectorRecord) :
    activeVector service.config (storeVector service store record).embeddings record.entity =
      some (service.literal record.vector) := by
  have hinactive : ∀ row ∈ deactivate (embeddingOf service.config record.entity) store.embeddings,
      (row.active && embeddingOf service.config record.entity row) = false := by
    intro row hrow
    cases hactive : row.active with
    | false => rfl
    | true => exact (mem_deactivate_active.mp ⟨hrow, hactive⟩).2.2
  have hself : embeddingOf service.config record.entity (embeddingRow service record) = true := by
    simp [embeddingOf, embeddingRow, EmbeddingRow.entity, ChunkVectorRecord.entity]
  have hversion : ∀ row : EmbeddingRow ν, row.version = (embeddingRow service record).version →
      embeddingOf service.config record.entity row = true := by
    intro row hrow
    simp only [EmbeddingRow.version, Prod.mk.injEq] at hrow
    obtain ⟨hentity, hmodel, _, _, hdimension⟩ := hrow
    rw [embeddingOf, hentity, hmodel, hdimension]
    exact hself
  rw [activeVector, storeVector_embeddings, upsert]
  split
  next hkey =>
    obtain ⟨old, hold, hsame⟩ := hasKey_eq_true.mp hkey
    have hrewritten : (embeddingRow service record).overwrite old ∈ updateWhere
        (fun old ↦ old.version = (embeddingRow service record).version)
        (embeddingRow service record).overwrite
        (deactivate (embeddingOf service.config record.entity) store.embeddings) :=
      mem_updateWhere.mpr ⟨old, hold, by rw [if_pos (decide_eq_true hsame)]⟩
    have hselected : (((embeddingRow service record).overwrite old).active && embeddingOf
        service.config record.entity ((embeddingRow service record).overwrite old)) = true :=
      hversion ((embeddingRow service record).overwrite old) hsame
    have hfound : ((updateWhere (fun old ↦ old.version = (embeddingRow service record).version)
        (embeddingRow service record).overwrite
        (deactivate (embeddingOf service.config record.entity) store.embeddings)).find? fun row ↦
          row.active && embeddingOf service.config record.entity row).isSome = true :=
      List.find?_isSome.mpr ⟨_, hrewritten, hselected⟩
    obtain ⟨row, hrow⟩ := Option.isSome_iff_exists.mp hfound
    rw [hrow, Option.map_some]
    obtain ⟨other, hother, rfl⟩ := mem_updateWhere.mp (List.mem_of_find?_eq_some hrow)
    have hactive := List.find?_some hrow
    split
    · rfl
    next hnot =>
      rw [if_neg hnot] at hactive
      exact absurd ((hinactive other hother).symm.trans hactive) Bool.false_ne_true
  next hkey =>
    rw [List.find?_append, List.find?_eq_none.mpr fun row hrow ↦ by simp [hinactive row hrow],
      Option.none_or, List.find?_cons_of_pos (by simpa [embeddingRow] using hself)]
    rfl

/-- A stored record leaves the vectors of other entities. -/
theorem activeVector_storeVector_of_ne (store : VectorizationDb ν) {record : ChunkVectorRecord}
    {entity : VectorEntity × Uuid} (hne : record.entity ≠ entity) :
    activeVector service.config (storeVector service store record).embeddings entity =
      activeVector service.config store.embeddings entity := by
  have hother : ∀ row : EmbeddingRow ν, row.entity = record.entity →
      embeddingOf service.config entity row = false := by
    intro row hrow
    simp [embeddingOf, hrow, hne]
  have hrow : (embeddingRow service record).entity = record.entity := rfl
  have hdeactivated : (deactivate (embeddingOf service.config record.entity)
      store.embeddings).filter (fun row ↦ row.active && embeddingOf service.config entity row) =
        store.embeddings.filter fun row ↦ row.active && embeddingOf service.config entity row := by
    refine filter_map_eq fun row _ ↦ ?_
    by_cases hselected : embeddingOf service.config record.entity row = true
    · have hentity : row.entity = record.entity := by
        simp only [embeddingOf, Bool.and_eq_true, decide_eq_true_eq] at hselected
        exact hselected.1.1
      rw [if_pos hselected]
      exact .inr ⟨by rw [hother row hentity, Bool.and_false], by simp⟩
    · exact .inl (if_neg hselected)
  rw [activeVector, activeVector, ← List.head?_filter, ← List.head?_filter, storeVector_embeddings,
    ← hdeactivated, upsert]
  split
  next hkey =>
    refine congrArg (fun rows ↦ Option.map EmbeddingRow.vector (List.head? rows))
      (filter_map_eq fun row _ ↦ ?_)
    by_cases hselected : row.version = (embeddingRow service record).version
    · have hentity : row.entity = record.entity := (Prod.mk.inj hselected).1
      rw [if_pos (decide_eq_true hselected)]
      exact .inr ⟨by rw [hother row hentity, Bool.and_false],
        by rw [hother ((embeddingRow service record).overwrite row) hentity, Bool.and_false]⟩
    · exact .inl (if_neg (by simpa using hselected))
  next hkey =>
    rw [List.filter_append, List.filter_cons_of_neg (by
      rw [hother _ hrow, Bool.and_false]; exact Bool.false_ne_true), List.filter_nil,
      List.append_nil]

/-- Stored records: the last one of an entity is its vector in use. -/
theorem activeVector_foldl (records : List ChunkVectorRecord) (store : VectorizationDb ν)
    (entity : VectorEntity × Uuid) :
    activeVector service.config (records.foldl (storeVector service) store).embeddings entity =
      ((lastVector records entity).map service.literal).or
        (activeVector service.config store.embeddings entity) := by
  induction records using List.reverseRecOn with
  | nil => rfl
  | append_singleton records record ih =>
    rw [List.foldl_append, List.foldl_cons, List.foldl_nil, lastVector_append,
      lastVector_singleton]
    by_cases hentity : record.entity = entity
    · rw [if_pos hentity, ← hentity, activeVector_storeVector_self]
      rfl
    · rw [if_neg hentity, activeVector_storeVector_of_ne _ hentity, ih, Option.none_or]

/-! ### Means -/

theorem lastVector_cons (record : ChunkVectorRecord) (records : List ChunkVectorRecord)
    (entity : VectorEntity × Uuid) : lastVector (record :: records) entity =
      (lastVector records entity).or (if record.entity = entity then some record.vector else none) := by
  rw [← lastVector_singleton, ← lastVector_append]
  rfl

/-- The record of a mean belongs to the group of its entity. -/
theorem lastVector_meanRecords {entityType : VectorEntity} {groups : List (Uuid × List Vector)}
    {records : List ChunkVectorRecord} (hrecords : meanRecords entityType groups = .ok records)
    (hkeys : (groups.map Prod.fst).Nodup) (id : Uuid) : lastVector records (entityType, id) =
      (groups.find? fun group ↦ group.1 = id).bind fun group ↦ toOption (meanVector group.2) := by
  induction groups generalizing records with
  | nil =>
    cases hrecords
    rfl
  | cons group groups ih =>
    rw [List.map_cons, List.nodup_cons] at hkeys
    rw [meanRecords, List.mapM_cons, bind_eq_ok] at hrecords
    obtain ⟨record, hrecord, hothers⟩ := hrecords
    obtain ⟨rest, hrest, hsame⟩ := bind_eq_ok.mp hothers
    cases hsame
    obtain ⟨mean, hmean, hsame⟩ := bind_eq_ok.mp hrecord
    cases hsame
    rw [lastVector_cons, ih hrest hkeys.2]
    by_cases hid : group.1 = id
    · have hnone : (groups.find? fun group ↦ group.1 = id) = none := by
        refine List.find?_eq_none.mpr fun other hother ↦ ?_
        rw [decide_eq_true_eq]
        rintro rfl
        exact hkeys.1 (hid ▸ List.mem_map_of_mem hother)
      rw [hnone]
      simp [hid, hmean, ChunkVectorRecord.entity]
    · simp [hid, ChunkVectorRecord.entity]

theorem entityType_of_meanRecords {entityType : VectorEntity}
    {groups : List (Uuid × List Vector)} {records : List ChunkVectorRecord}
    (hrecords : meanRecords entityType groups = .ok records) :
    ∀ record ∈ records, record.entityType = entityType := by
  intro record hmem
  obtain ⟨group, _, hgroup⟩ := exists_of_mapM_eq_ok hrecords hmem
  obtain ⟨mean, _, hsame⟩ := bind_eq_ok.mp hgroup
  cases hsame
  rfl

/-! ### Records without tokens -/

variable {embed : Text → Vector}

/-- A record without its tokens and its version. -/
def ChunkVectorRecord.bare (record : ChunkVectorRecord) : ChunkVectorRecord :=
  { record with bm25Tokens := none, chunkVersionId := none }

/-- The record of an input. -/
def recordOf (embed : Text → Vector) (input : ChunkVectorInput) : ChunkVectorRecord :=
  { entityType := input.entityType, entityId := input.entityId, vector := embed input.body
    documentId := some input.documentId }

theorem length_extractBm25TokenGroups {count : ℕ} {response : EmbedResponse}
    {vectors : List Vector} {tokens : List (Option (List Text))}
    (hvectors : extractVectors config count response = .ok vectors)
    (htokens : extractBm25TokenGroups response = .ok tokens) : tokens.length = count := by
  have hlength := (mapM_eq_ok.mp htokens).length_eq
  simp only [extractVectors, raiseIf_bind_eq_ok] at hvectors
  obtain ⟨_, _, hvectors⟩ := hvectors
  cases hresults : response.results with
  | none =>
    rw [hresults] at hvectors
    cases hvectors
  | some results =>
    rw [hresults] at hvectors hlength
    simp only [raiseIf_bind_eq_ok, decide_eq_false_iff_not, not_not] at hvectors
    rw [← hlength, List.length_zipIdx, Option.getD_some, hvectors.1]

/-- Every input stands beside its own vector. -/
theorem map_zip_map {α β γ δ : Type} {read : α → β} {make : α × β × γ → δ} {made : α → δ}
    (hmake : ∀ item token, make (item, read item, token) = made item) {items : List α}
    {tokens : List γ} (hlength : tokens.length = items.length) :
    (items.zip ((items.map read).zip tokens)).map make = items.map made := by
  induction items generalizing tokens with
  | nil => rfl
  | cons item items ih =>
    cases tokens with
    | nil => cases hlength
    | cons token tokens =>
      rw [List.map_cons, List.zip_cons_cons, List.zip_cons_cons, List.map_cons, List.map_cons,
        hmake, ih (Nat.succ.inj hlength)]

theorem bare_of_embedBatch (hembeds : service.Embeds embed) {calls : ℕ}
    {batch : List ChunkVectorInput} {records : List ChunkVectorRecord}
    (hrecords : embedBatch service.config service.client calls batch = .ok records) :
    records.map ChunkVectorRecord.bare = batch.map (recordOf embed) := by
  obtain ⟨response, hresponse, hvectors, _⟩ :=
    hembeds.answers calls (batch.map ChunkVectorInput.body)
  obtain ⟨other, hother, hrest⟩ := bind_eq_ok.mp hrecords
  rw [hresponse] at hother
  cases hother
  obtain ⟨vectors, hextract, hrest⟩ := bind_eq_ok.mp hrest
  obtain ⟨tokens, htokens, hrest⟩ := bind_eq_ok.mp hrest
  have hcount := length_extractBm25TokenGroups hextract htokens
  rw [List.length_map] at hvectors
  obtain rfl := Except.ok.inj (hextract.symm.trans hvectors)
  cases hrest
  rw [List.map_map, List.map_map]
  exact map_zip_map (fun _ _ ↦ rfl) hcount

/-- The records of some inputs, up to tokens and versions. -/
theorem bare_of_embedChunks (hembeds : service.Embeds embed) {calls : ℕ}
    {inputs : List ChunkVectorInput} {records : List ChunkVectorRecord}
    (hrecords : embedChunks service.config service.client calls inputs = .ok records) :
    records.map ChunkVectorRecord.bare = inputs.map (recordOf embed) := by
  obtain ⟨_, hbatches⟩ := raiseIf_bind_eq_ok.mp hrecords
  obtain ⟨parts, hmap, hflat⟩ := bind_eq_ok.mp hbatches
  cases hflat
  have hparts : parts.map (List.map ChunkVectorRecord.bare) =
      ((service.config.callsFor inputs).zipIdx.map Prod.fst).map (List.map (recordOf embed)) := by
    rw [List.map_map, ← List.forall₂_eq_eq_eq, List.forall₂_map_left_iff,
      List.forall₂_map_right_iff]
    exact ((mapM_eq_ok.mp hmap).imp fun _ _ hbatch ↦ bare_of_embedBatch hembeds hbatch).flip
  rw [List.map_flatten, hparts, List.zipIdx_map_fst, ← List.map_flatten, EmbeddingConfig.callsFor,
    flatten_batches (by have := hembeds.batchSize; omega)]

@[simp] theorem lastVector_map_bare (records : List ChunkVectorRecord)
    (entity : VectorEntity × Uuid) :
    lastVector (records.map ChunkVectorRecord.bare) entity = lastVector records entity := by
  induction records with
  | nil => rfl
  | cons record records ih =>
    rw [List.map_cons, lastVector_cons, lastVector_cons, ih]
    rfl

@[simp] theorem recordedIds_map_bare (entityType : VectorEntity)
    (records : List ChunkVectorRecord) :
    recordedIds entityType (records.map ChunkVectorRecord.bare) =
      recordedIds entityType records := by
  rw [recordedIds, List.filter_map, List.map_map]
  rfl

/-- The vectors of the records of a type, with their documents. -/
def vectorPairs (entityType : VectorEntity) (direct : List Uuid)
    (records : List ChunkVectorRecord) : List (Uuid × Vector) :=
  (records.filter fun record ↦ record.entityType = entityType).filterMap fun record ↦
    (record.documentId.filter fun documentId ↦ !direct.contains documentId).map fun documentId ↦
      (documentId, record.vector)

@[simp] theorem vectorPairs_map_bare (entityType : VectorEntity) (direct : List Uuid)
    (records : List ChunkVectorRecord) :
    vectorPairs entityType direct (records.map ChunkVectorRecord.bare) =
      vectorPairs entityType direct records := by
  rw [vectorPairs, List.filter_map, List.filterMap_map]
  rfl

/-- The vectors of some inputs. -/
def bodyVectors (embed : Text → Vector) (inputs : List ChunkVectorInput) : List Vector :=
  inputs.map fun input ↦ embed input.body

/-- The vectors of a document among the records of some inputs. -/
theorem valuesOf_vectorPairs (entityType : VectorEntity) (direct : List Uuid)
    (inputs : List ChunkVectorInput) (id : Uuid) :
    valuesOf id (vectorPairs entityType direct (inputs.map (recordOf embed))) =
      if direct.contains id then [] else bodyVectors embed (inputs.filter fun input ↦
        input.entityType = entityType && input.documentId = id) := by
  induction inputs with
  | nil => simp [vectorPairs, valuesOf, bodyVectors]
  | cons input inputs ih =>
    have hcons : vectorPairs entityType direct ((input :: inputs).map (recordOf embed)) =
        vectorPairs entityType direct [recordOf embed input] ++
          vectorPairs entityType direct (inputs.map (recordOf embed)) := by
      rw [vectorPairs, List.map_cons, ← List.singleton_append, List.filter_append,
        List.filterMap_append]
      rfl
    rw [hcons, valuesOf_append, ih]
    by_cases htype : input.entityType = entityType
    · by_cases hid : input.documentId = id
      · by_cases hdirect : id ∈ direct <;>
          simp [vectorPairs, valuesOf, recordOf, bodyVectors, htype, hid, hdirect]
      · by_cases hdirect : input.documentId ∈ direct <;>
          simp [vectorPairs, valuesOf, recordOf, bodyVectors, htype, hid, hdirect]
    · simp [vectorPairs, valuesOf, recordOf, bodyVectors, htype]

/-! ### The texts of a batch -/

variable {store : VectorizationDb ν}

/-- The inputs of one document among those of distinct documents. -/
theorem filter_flatMap_inputs {read : Uuid → List ChunkVectorInput} {entityType : VectorEntity}
    (hread : ∀ id, ∀ input ∈ read id, input.entityType = entityType ∧ input.documentId = id)
    {ids : List Uuid} (hids : ids.Nodup) (wanted : VectorEntity) (id : Uuid) :
    ((ids.flatMap read).filter fun input ↦
      input.entityType = wanted && input.documentId = id) =
        if wanted = entityType ∧ id ∈ ids then read id else [] := by
  induction ids with
  | nil => simp
  | cons other ids ih =>
    rw [List.nodup_cons] at hids
    rw [List.flatMap_cons, List.filter_append, ih hids.2]
    by_cases hwanted : wanted = entityType
    · by_cases hother : other = id
      · subst hother
        rw [List.filter_eq_self.mpr (fun input hinput ↦ by simp [hread _ input hinput, hwanted])]
        simp [hids.1, hwanted]
      · rw [List.filter_eq_nil_iff.mpr (fun input hinput ↦ by
          simp [hread _ input hinput, hother])]
        simp [hwanted, Ne.symm hother]
    · rw [List.filter_eq_nil_iff.mpr (fun input hinput ↦ by
        simp [hread _ input hinput, Ne.symm hwanted])]
      simp [hwanted]

theorem of_mem_paragraphInputs {db : Db} {id : Uuid} {input : ChunkVectorInput}
    (hinput : input ∈ paragraphInputs db id) :
    input.entityType = .paragraph ∧ input.documentId = id := by
  obtain ⟨row, _, rfl⟩ := List.mem_map.mp hinput
  exact ⟨rfl, rfl⟩

theorem of_mem_chunkInputs {db : Db} {id : Uuid} {input : ChunkVectorInput}
    (hinput : input ∈ chunkInputs db id) :
    input.entityType = .semanticChunk ∧ input.documentId = id := by
  obtain ⟨row, _, hrow⟩ := List.mem_filterMap.mp hinput
  obtain ⟨text, _, rfl⟩ := Option.map_eq_some_iff.mp hrow
  exact ⟨rfl, rfl⟩

theorem of_mem_documentInputs {directMax : ℤ} {db : Db} {docs : List Uuid}
    {input : ChunkVectorInput} (hinput : input ∈ documentInputs directMax db docs) :
    input.entityType = .document := by
  obtain ⟨row, _, hrow⟩ := List.mem_filterMap.mp hinput
  obtain ⟨body, _, rfl⟩ := Option.map_eq_some_iff.mp hrow
  rfl

theorem of_mem_fileInputs {directMax : ℤ} {docs : List Uuid} {input : ChunkVectorInput}
    (hinput : input ∈ fileInputs directMax store docs) : input.entityType = .file := by
  obtain ⟨row, _, hrow⟩ := List.mem_filterMap.mp hinput
  obtain ⟨body, _, rfl⟩ := Option.map_eq_some_iff.mp hrow
  rfl

theorem mem_selectVectorInputs {docs : List Uuid} {input : ChunkVectorInput} :
    input ∈ selectVectorInputs config docs store ↔
      (∃ id ∈ docs, input ∈ paragraphInputs store.toDb id) ∨
      (∃ id ∈ docs, input ∈ chunkInputs store.toDb id) ∨
      (0 < config.directTextMaxChars ∧
        (input ∈ documentInputs config.directTextMaxChars store.toDb docs ∨
          input ∈ fileInputs config.directTextMaxChars store docs)) := by
  by_cases hdirect : 0 < config.directTextMaxChars <;>
    simp [selectVectorInputs, hdirect, List.mem_insertionSort]

/-- The texts of one document that are selected for a batch. -/
theorem filter_selectVectorInputs {docs : List Uuid} (hdocs : docs.Nodup) (id : Uuid) :
    ((selectVectorInputs config docs store).filter fun input ↦
      input.entityType = .paragraph && input.documentId = id) =
        (if id ∈ docs then paragraphInputs store.toDb id else []) ∧
    ((selectVectorInputs config docs store).filter fun input ↦
      input.entityType = .semanticChunk && input.documentId = id) =
        (if id ∈ docs then chunkInputs store.toDb id else []) := by
  have hordered : (docs.insertionSort idBefore).Nodup :=
    (List.perm_insertionSort _ _).nodup_iff.mpr hdocs
  have hrest : ∀ wanted : VectorEntity, wanted ≠ .document → wanted ≠ .file →
      ((if 0 < config.directTextMaxChars then
          documentInputs config.directTextMaxChars store.toDb docs else []).filter fun input ↦
            input.entityType = wanted && input.documentId = id) = [] ∧
      ((if 0 < config.directTextMaxChars then
          fileInputs config.directTextMaxChars store docs else []).filter fun input ↦
            input.entityType = wanted && input.documentId = id) = [] := by
    intro wanted hdocument hfile
    split
    · refine ⟨List.filter_eq_nil_iff.mpr fun input hinput ↦ ?_,
        List.filter_eq_nil_iff.mpr fun input hinput ↦ ?_⟩
      · simp [of_mem_documentInputs hinput, hdocument.symm]
      · simp [of_mem_fileInputs hinput, hfile.symm]
    · exact ⟨rfl, rfl⟩
  constructor
  · rw [selectVectorInputs, List.filter_append, List.filter_append, List.filter_append,
      filter_flatMap_inputs (fun _ _ ↦ of_mem_paragraphInputs) hordered,
      filter_flatMap_inputs (fun _ _ ↦ of_mem_chunkInputs) hordered,
      (hrest .paragraph (by decide) (by decide)).1, (hrest .paragraph (by decide) (by decide)).2]
    simp
  · rw [selectVectorInputs, List.filter_append, List.filter_append, List.filter_append,
      filter_flatMap_inputs (fun _ _ ↦ of_mem_paragraphInputs) hordered,
      filter_flatMap_inputs (fun _ _ ↦ of_mem_chunkInputs) hordered,
      (hrest .semanticChunk (by decide) (by decide)).1,
      (hrest .semanticChunk (by decide) (by decide)).2]
    simp

/-! ### The vector of a document -/

/-- The text of a document that is embedded as a whole. -/
def directBody (config : EmbeddingConfig) (db : Db) (documentId : Uuid) : Option Text :=
  if 0 < config.directTextMaxChars then
    directText config.directTextMaxChars (paragraphBodies db documentId)
  else none

/-- Whether a document is averaged from paragraphs. -/
def bearsParagraphs (config : EmbeddingConfig) (db : Db) (documentId : Uuid) : Bool :=
  (directBody config db documentId).isNone && !(paragraphInputs db documentId).isEmpty

/-- Whether a document has a vector in a batch: it is embedded as a whole, or has a paragraph text,
or has a chunk text and no document of the batch is averaged from paragraphs. -/
def bearsVector (config : EmbeddingConfig) (db : Db) (batch : List Uuid) (documentId : Uuid) :
    Bool :=
  batch.contains documentId && ((directBody config db documentId).isSome ||
    bearsParagraphs config db documentId ||
    !(chunkInputs db documentId).isEmpty && !batch.any (bearsParagraphs config db))

/-- The vector of a document that has one. -/
def documentVectorOf (config : EmbeddingConfig) (embed : Text → Vector) (db : Db)
    (documentId : Uuid) : Option Vector :=
  match directBody config db documentId with
  | some body => some (embed body)
  | none => toOption (meanVector (bodyVectors embed
      (if (paragraphInputs db documentId).isEmpty then chunkInputs db documentId
        else paragraphInputs db documentId)))

/-- The vector of a document in a batch. -/
def documentVectorIn (config : EmbeddingConfig) (embed : Text → Vector) (db : Db)
    (batch : List Uuid) (documentId : Uuid) : Option Vector :=
  if bearsVector config db batch documentId then documentVectorOf config embed db documentId
  else none

/-- The last record of an entity whose records all have the same vector. -/
theorem lastVector_eq_some {records : List ChunkVectorRecord} {entity : VectorEntity × Uuid}
    {vector : Vector} (hsome : ∃ record ∈ records, record.entity = entity)
    (hall : ∀ record ∈ records, record.entity = entity → record.vector = vector) :
    lastVector records entity = some vector := by
  obtain ⟨record, hrecord, hentity⟩ := hsome
  have hfound : (records.reverse.find? fun record ↦ record.entity = entity).isSome = true :=
    List.find?_isSome.mpr ⟨record, List.mem_reverse.mpr hrecord, decide_eq_true hentity⟩
  obtain ⟨last, hlast⟩ := Option.isSome_iff_exists.mp hfound
  rw [lastVector, hlast, Option.map_some, hall last
    (List.mem_reverse.mp (List.mem_of_find?_eq_some hlast)) (of_decide_eq_true
      (by simpa using List.find?_some hlast))]

variable {batch : List Uuid} {records : List ChunkVectorRecord}

/-- The documents of a batch are distinct and there. -/
structure LiveBatch (db : Db) (batch : List Uuid) : Prop where
  nodup : batch.Nodup
  live : ∀ id ∈ batch, ∃ row ∈ db.documents, row.deletedAt = none ∧ row.id = id

/-- The records of the texts of a batch, up to tokens and versions. -/
def RecordsOf (config : EmbeddingConfig) (embed : Text → Vector) (store : VectorizationDb ν)
    (batch : List Uuid) (records : List ChunkVectorRecord) : Prop :=
  records.map ChunkVectorRecord.bare =
    (selectVectorInputs config batch store).map (recordOf embed)

/-- A document is embedded as a whole in a batch when it stands in it and is short enough. -/
theorem mem_documentInputs (hbatch : LiveBatch store.toDb batch) {input : ChunkVectorInput} :
    (0 < config.directTextMaxChars ∧
      input ∈ documentInputs config.directTextMaxChars store.toDb batch) ↔
    ∃ id ∈ batch, ∃ body, directBody config store.toDb id = some body ∧
      input = { entityType := .document, entityId := id, documentId := id, body } := by
  by_cases hdirect : 0 < config.directTextMaxChars
  · simp only [hdirect, true_and, documentInputs, List.mem_filterMap, directBody, if_true]
    constructor
    · rintro ⟨row, hrow, hinput⟩
      obtain ⟨body, hbody, rfl⟩ := Option.map_eq_some_iff.mp hinput
      simp only [liveDocuments, List.mem_filter, Bool.and_eq_true, List.contains_eq_mem,
        decide_eq_true_eq] at hrow
      exact ⟨row.id, hrow.2.2, body, hbody, rfl⟩
    · rintro ⟨id, hid, body, hbody, rfl⟩
      obtain ⟨row, hrow, hlive, rfl⟩ := hbatch.live id hid
      refine ⟨row, ?_, by rw [hbody]; rfl⟩
      simp [liveDocuments, hrow, hlive, hid]
  · simp [hdirect, directBody]

theorem lastVector_document (hbatch : LiveBatch store.toDb batch)
    (hrecords : RecordsOf config embed store batch records) (id : Uuid) :
    lastVector records (.document, id) =
      if id ∈ batch then (directBody config store.toDb id).map embed else none := by
  rw [← lastVector_map_bare, hrecords]
  have hinput : ∀ input ∈ selectVectorInputs config batch store,
      (recordOf embed input).entity = (.document, id) →
      id ∈ batch ∧ directBody config store.toDb id = some input.body := by
    intro input hinput hentity
    obtain ⟨htype, rfl⟩ := Prod.mk.inj hentity
    rcases mem_selectVectorInputs.mp hinput with ⟨_, _, hmem⟩ | ⟨_, _, hmem⟩ | ⟨hdirect, hmem | hmem⟩
    · cases htype.symm.trans (of_mem_paragraphInputs hmem).1
    · cases htype.symm.trans (of_mem_chunkInputs hmem).1
    · obtain ⟨other, hother, body, hbody, rfl⟩ :=
        (mem_documentInputs hbatch).mp ⟨hdirect, hmem⟩
      exact ⟨hother, hbody⟩
    · cases htype.symm.trans (of_mem_fileInputs hmem)
  cases hbody : directBody config store.toDb id with
  | none =>
    rw [lastVector_eq_none, Option.map_none, ite_self]
    intro record hrecord hentity
    obtain ⟨input, hmem, rfl⟩ := List.mem_map.mp hrecord
    exact absurd (hbody.symm.trans (hinput input hmem hentity).2) nofun
  | some body =>
    by_cases hid : id ∈ batch
    · rw [if_pos hid, Option.map_some]
      refine lastVector_eq_some ?_ fun record hrecord hentity ↦ ?_
      · obtain ⟨hdirect, hmem⟩ := (mem_documentInputs hbatch).mpr ⟨id, hid, body, hbody, rfl⟩
        exact ⟨_, List.mem_map_of_mem
          (mem_selectVectorInputs.mpr (.inr (.inr ⟨hdirect, .inl hmem⟩))), rfl⟩
      · obtain ⟨input, hmem, rfl⟩ := List.mem_map.mp hrecord
        have hsame := (hinput input hmem hentity).2
        rw [hbody, Option.some.injEq] at hsame
        rw [hsame]
        rfl
    · rw [if_neg hid, lastVector_eq_none]
      intro record hrecord hentity
      obtain ⟨input, hmem, rfl⟩ := List.mem_map.mp hrecord
      exact hid (hinput input hmem hentity).1

theorem mem_recordedIds {entityType : VectorEntity} {id : Uuid} :
    id ∈ recordedIds entityType records ↔ (lastVector records (entityType, id)).isSome = true := by
  simp only [recordedIds, lastVector, List.mem_map, List.mem_filter, decide_eq_true_eq,
    Option.isSome_map, List.find?_isSome, List.mem_reverse, ChunkVectorRecord.entity,
    Prod.mk.injEq, and_assoc]

/-- The vectors from which a document of a batch may be averaged. -/
theorem valuesOf_batch (hbatch : LiveBatch store.toDb batch)
    (hrecords : RecordsOf config embed store batch records) (id : Uuid) :
    valuesOf id (vectorPairs .paragraph (recordedIds .document records) records) =
      (if id ∈ batch ∧ directBody config store.toDb id = none then
        bodyVectors embed (paragraphInputs store.toDb id) else []) ∧
    valuesOf id (vectorPairs .semanticChunk (recordedIds .document records) records) =
      (if id ∈ batch ∧ directBody config store.toDb id = none then
        bodyVectors embed (chunkInputs store.toDb id) else []) := by
  have hdirect : (recordedIds .document records).contains id = true ↔
      id ∈ batch ∧ (directBody config store.toDb id).isSome = true := by
    rw [List.contains_iff_mem, mem_recordedIds, lastVector_document hbatch hrecords]
    by_cases hid : id ∈ batch <;> simp [hid]
  obtain ⟨hparagraphs, hchunks⟩ :=
    @filter_selectVectorInputs _ config store _ hbatch.nodup id
  constructor
  · rw [← vectorPairs_map_bare, hrecords, valuesOf_vectorPairs, hparagraphs]
    by_cases hid : id ∈ batch
    · cases hbody : directBody config store.toDb id <;> simp [hdirect, hid, hbody, -List.contains_eq_mem]
    · simp [hid, bodyVectors]
  · rw [← vectorPairs_map_bare, hrecords, valuesOf_vectorPairs, hchunks]
    by_cases hid : id ∈ batch
    · cases hbody : directBody config store.toDb id <;> simp [hdirect, hid, hbody, -List.contains_eq_mem]
    · simp [hid, bodyVectors]

/-- The mean of the vectors of a key. -/
theorem lastVector_means {entityType : VectorEntity} {pairs : List (Uuid × Vector)}
    {means : List ChunkVectorRecord} (hmeans : meanRecords entityType (grouped pairs) = .ok means)
    (id : Uuid) : lastVector means (entityType, id) = toOption (meanVector (valuesOf id pairs)) := by
  rw [lastVector_meanRecords hmeans (nodup_keys_grouped pairs), find_grouped]
  split
  next hnil =>
    rw [hnil]
    rfl
  · rfl

/-- Whether the documents of a batch are averaged from paragraphs. -/
theorem isEmpty_vectorsByDocument (hbatch : LiveBatch store.toDb batch)
    (hrecords : RecordsOf config embed store batch records) :
    (vectorsByDocument .paragraph (recordedIds .document records) records).isEmpty =
      !batch.any (bearsParagraphs config store.toDb) := by
  have hnil : vectorsByDocument .paragraph (recordedIds .document records) records = [] ↔
      ∀ id ∈ batch, bearsParagraphs config store.toDb id = false := by
    refine (grouped_eq_nil.trans eq_nil_iff_valuesOf).trans (forall_congr' fun id ↦ ?_)
    rw [show List.filterMap _ _ = vectorPairs .paragraph (recordedIds .document records) records
      from rfl, (valuesOf_batch hbatch hrecords id).1]
    by_cases hid : id ∈ batch <;> cases hbody : directBody config store.toDb id <;>
      simp [hid, hbody, bearsParagraphs, bodyVectors]
  rw [Bool.eq_iff_iff, List.isEmpty_iff, hnil, Bool.not_eq_true', List.any_eq_false]
  simp only [Bool.not_eq_true]

/-- The mean of a document of a batch. -/
theorem lastVector_documentMeans (hbatch : LiveBatch store.toDb batch)
    (hrecords : RecordsOf config embed store batch records) {means : List ChunkVectorRecord}
    (hmeans : meanRecords .document (byDocument records) = .ok means) (id : Uuid) :
    lastVector means (.document, id) = if (directBody config store.toDb id).isSome then none
      else documentVectorIn config embed store.toDb batch id := by
  obtain ⟨hparagraphs, hchunks⟩ := valuesOf_batch hbatch hrecords id
  have hmean : lastVector means (.document, id) = toOption (meanVector (valuesOf id
      (if batch.any (bearsParagraphs config store.toDb) then
        vectorPairs .paragraph (recordedIds .document records) records
      else vectorPairs .semanticChunk (recordedIds .document records) records))) := by
    unfold byDocument at hmeans
    dsimp only at hmeans
    rw [isEmpty_vectorsByDocument hbatch hrecords] at hmeans
    refine lastVector_means ?_ id
    cases hany : batch.any (bearsParagraphs config store.toDb) <;>
      (rw [hany] at hmeans; exact hmeans)
  rw [hmean]
  cases hbody : directBody config store.toDb id with
  | some body =>
    rw [hbody] at hparagraphs hchunks
    cases hany : batch.any (bearsParagraphs config store.toDb) <;>
      simp [hparagraphs, hchunks, meanVector]
  | none =>
    rw [hbody] at hparagraphs hchunks
    by_cases hid : id ∈ batch
    · cases hany : batch.any (bearsParagraphs config store.toDb) with
      | true =>
        by_cases hnone : paragraphInputs store.toDb id = [] <;>
          simp [hparagraphs, hid, hnone, documentVectorIn, bearsVector, bearsParagraphs, hbody,
            hany, documentVectorOf, bodyVectors, meanVector]
      | false =>
        have hnone : paragraphInputs store.toDb id = [] := by
          have hbears := List.any_eq_false.mp hany id hid
          simpa [bearsParagraphs, hbody] using hbears
        by_cases hempty : chunkInputs store.toDb id = [] <;>
          simp [hchunks, hid, hnone, hempty, documentVectorIn, bearsVector, bearsParagraphs, hbody,
            hany, documentVectorOf, bodyVectors, meanVector]
    · cases hany : batch.any (bearsParagraphs config store.toDb) <;>
        simp [hparagraphs, hchunks, hid, documentVectorIn, bearsVector, meanVector]

/-- The vector of a document of a batch, embedded or averaged. -/
theorem documentVector_batch (hbatch : LiveBatch store.toDb batch)
    (hrecords : RecordsOf config embed store batch records) {means : List ChunkVectorRecord}
    (hmeans : meanRecords .document (byDocument records) = .ok means) (id : Uuid) :
    (lastVector records (.document, id)).or (lastVector means (.document, id)) =
      documentVectorIn config embed store.toDb batch id ∧
    (lastVector means (.document, id)).or (lastVector records (.document, id)) =
      documentVectorIn config embed store.toDb batch id := by
  rw [lastVector_document hbatch hrecords, lastVector_documentMeans hbatch hrecords hmeans]
  cases hbody : directBody config store.toDb id with
  | some body =>
    by_cases hid : id ∈ batch <;>
      simp [hid, hbody, documentVectorIn, bearsVector, documentVectorOf]
  | none => simp

/-! ### The vector of a file -/

/-- The text of a file that is embedded as a whole in a batch. -/
def directFileBody (config : EmbeddingConfig) (store : VectorizationDb ν) (batch : List Uuid)
    (fileId : Uuid) : Option Text :=
  if 0 < config.directTextMaxChars ∧
      (store.files.any fun row ↦ row.deletedAt.isNone && row.id = fileId) = true then
    directText config.directTextMaxChars
      ((fileGroup store batch fileId).flatMap (paragraphBodies store.toDb))
  else none

/-- The documents of a file in a batch. -/
def fileDocuments (db : Db) (batch : List Uuid) (fileId : Uuid) : List Uuid :=
  (db.documents.filter fun row ↦ row.ownerId = some fileId && batch.contains row.id).map
    fun row ↦ row.id

/-- The vector of a file in a batch. -/
def fileVectorIn (config : EmbeddingConfig) (embed : Text → Vector) (store : VectorizationDb ν)
    (batch : List Uuid) (fileId : Uuid) : Option Vector :=
  match directFileBody config store batch fileId with
  | some body => some (embed body)
  | none => toOption (meanVector ((fileDocuments store.toDb batch fileId).filterMap
      (documentVectorIn config embed store.toDb batch)))

/-- Whether a file has a vector in a batch: it is embedded as a whole, or one of its documents has a
vector. -/
def bearsFileVector (config : EmbeddingConfig) (store : VectorizationDb ν) (batch : List Uuid)
    (fileId : Uuid) : Bool :=
  (directFileBody config store batch fileId).isSome ||
    (fileDocuments store.toDb batch fileId).any (bearsVector config store.toDb batch)

/-- A file is embedded as a whole in a batch when the texts of its documents in the batch are short
enough. -/
theorem mem_fileInputs {input : ChunkVectorInput} : (0 < config.directTextMaxChars ∧
      input ∈ fileInputs config.directTextMaxChars store batch) ↔
    ∃ row ∈ store.files, row.deletedAt.isNone = true ∧ ∃ body,
      directFileBody config store batch row.id = some body ∧
      input = { entityType := .file, entityId := row.id, body
                documentId := ((fileGroup store batch row.id).insertionSort idBefore).headD
                  row.id } := by
  constructor
  · rintro ⟨hdirect, hmem⟩
    obtain ⟨row, hrow, hinput⟩ := List.mem_filterMap.mp hmem
    obtain ⟨body, hbody, rfl⟩ := Option.map_eq_some_iff.mp hinput
    obtain ⟨hrow, hlive⟩ := List.mem_filter.mp hrow
    refine ⟨row, hrow, hlive, body, ?_, rfl⟩
    rwa [directFileBody, if_pos ⟨hdirect, List.any_eq_true.mpr ⟨row, hrow, by simpa using hlive⟩⟩]
  · rintro ⟨row, hrow, hlive, body, hbody, rfl⟩
    rw [directFileBody] at hbody
    split at hbody
    next hdirect =>
      exact ⟨hdirect.1, List.mem_filterMap.mpr
        ⟨row, List.mem_filter.mpr ⟨hrow, hlive⟩, by dsimp only; rw [hbody]; rfl⟩⟩
    next => cases hbody

/-- A file that is embedded as a whole is there. -/
theorem exists_file_of_directFileBody {fileId : Uuid} {body : Text}
    (hbody : directFileBody config store batch fileId = some body) :
    ∃ row ∈ store.files, row.deletedAt.isNone = true ∧ row.id = fileId := by
  rw [directFileBody] at hbody
  split at hbody
  next hdirect =>
    obtain ⟨row, hrow, hlive⟩ := List.any_eq_true.mp hdirect.2
    rw [Bool.and_eq_true, decide_eq_true_eq] at hlive
    exact ⟨row, hrow, hlive⟩
  next => cases hbody

theorem lastVector_file (hrecords : RecordsOf config embed store batch records) (fileId : Uuid) :
    lastVector records (.file, fileId) = (directFileBody config store batch fileId).map embed := by
  rw [← lastVector_map_bare, hrecords]
  have hinput : ∀ input ∈ selectVectorInputs config batch store,
      (recordOf embed input).entity = (.file, fileId) →
      directFileBody config store batch fileId = some input.body := by
    intro input hinput hentity
    obtain ⟨htype, hid⟩ := Prod.mk.inj hentity
    rcases mem_selectVectorInputs.mp hinput with ⟨_, _, hmem⟩ | ⟨_, _, hmem⟩ | ⟨hdirect, hmem | hmem⟩
    · cases htype.symm.trans (of_mem_paragraphInputs hmem).1
    · cases htype.symm.trans (of_mem_chunkInputs hmem).1
    · cases htype.symm.trans (of_mem_documentInputs hmem)
    · obtain ⟨row, _, _, body, hbody, rfl⟩ := mem_fileInputs.mp ⟨hdirect, hmem⟩
      obtain rfl : row.id = fileId := hid
      exact hbody
  cases hbody : directFileBody config store batch fileId with
  | none =>
    rw [Option.map_none, lastVector_eq_none]
    intro record hrecord hentity
    obtain ⟨input, hmem, rfl⟩ := List.mem_map.mp hrecord
    exact absurd (hbody.symm.trans (hinput input hmem hentity)) nofun
  | some body =>
    rw [Option.map_some]
    refine lastVector_eq_some ?_ fun record hrecord hentity ↦ ?_
    · obtain ⟨row, hrow, hlive, rfl⟩ := exists_file_of_directFileBody hbody
      obtain ⟨hdirect, hmem⟩ := mem_fileInputs.mpr ⟨row, hrow, hlive, body, hbody, rfl⟩
      exact ⟨_, List.mem_map_of_mem
        (mem_selectVectorInputs.mpr (.inr (.inr ⟨hdirect, .inr hmem⟩))), rfl⟩
    · obtain ⟨input, hmem, rfl⟩ := List.mem_map.mp hrecord
      have hsame := hinput input hmem hentity
      rw [hbody, Option.some.injEq] at hsame
      rw [hsame]
      rfl

/-- The vectors of the documents of a batch, with their files. -/
def filePairs (db : Db) (docs : List Uuid) (records : List ChunkVectorRecord)
    (direct : List Uuid) : List (Uuid × Vector) :=
  (db.documents.filter fun row ↦ docs.contains row.id).filterMap fun row ↦ do
    let fileId ← row.ownerId
    let vector ← documentVector records row.id
    if direct.contains fileId then none else some (fileId, vector)

/-- The vectors from which a file may be averaged. -/
theorem valuesOf_filePairs (db : Db) (docs : List Uuid) (records : List ChunkVectorRecord)
    (direct : List Uuid) (fileId : Uuid) : valuesOf fileId (filePairs db docs records direct) =
      if direct.contains fileId then []
      else (fileDocuments db docs fileId).filterMap (documentVector records) := by
  rw [filePairs, valuesOf_filterMap, fileDocuments, List.filterMap_map, List.filterMap_filter]
  cases hdirect : direct.contains fileId with
  | true =>
    rw [if_pos rfl, List.filterMap_eq_nil_iff]
    intro row _
    cases howner : row.ownerId with
    | none => simp
    | some owner =>
      by_cases hfile : owner = fileId
      · subst hfile
        cases documentVector records row.id <;> simp [List.contains_iff_mem.mp hdirect]
      · cases documentVector records row.id <;> by_cases hother : owner ∈ direct <;>
          simp [hfile, hother]
  | false =>
    rw [if_neg Bool.false_ne_true, List.filterMap_filter]
    refine List.filterMap_congr fun row _ ↦ ?_
    have hnot : fileId ∉ direct := by simpa using hdirect
    cases howner : row.ownerId with
    | none => simp
    | some owner =>
      by_cases hfile : owner = fileId
      · subst hfile
        by_cases hdocs : row.id ∈ docs <;> cases hvector : documentVector records row.id <;>
          simp [hdocs, hnot, hvector]
      · cases documentVector records row.id <;> by_cases hother : owner ∈ direct <;>
          simp [hfile, hother]

/-- The mean of a file of a batch. -/
theorem lastVector_fileMeans (hbatch : LiveBatch store.toDb batch)
    (hrecords : RecordsOf config embed store batch records) {means fileMeans : List ChunkVectorRecord}
    (hmeans : meanRecords .document (byDocument records) = .ok means)
    (hfiles : meanRecords .file (byFile store.toDb batch (means ++ records)
      (recordedIds .file records)) = .ok fileMeans) (fileId : Uuid) :
    lastVector fileMeans (.file, fileId) =
      if (directFileBody config store batch fileId).isSome then none
      else fileVectorIn config embed store batch fileId := by
  have hdocument : documentVector (means ++ records) =
      documentVectorIn config embed store.toDb batch := by
    funext id
    rw [← (documentVector_batch hbatch hrecords hmeans id).1, ← lastVector_append]
    simp only [documentVector, lastVector, ChunkVectorRecord.entity, Prod.mk.injEq,
      Bool.decide_and]
  have hdirect : (recordedIds .file records).contains fileId =
      (directFileBody config store batch fileId).isSome := by
    rw [Bool.eq_iff_iff, List.contains_iff_mem, mem_recordedIds, lastVector_file hrecords,
      Option.isSome_map]
  rw [@lastVector_means _ (filePairs store.toDb batch (means ++ records)
    (recordedIds .file records)) _ hfiles, valuesOf_filePairs, hdirect, hdocument]
  cases hbody : directFileBody config store batch fileId with
  | some body => simp [meanVector]
  | none => simp [fileVectorIn, hbody]

/-- What storing the vectors of a batch does to the vectors in use. -/
theorem activeVector_persistVectors {now : Instant} {written : VectorizationDb ν}
    (hbatch : LiveBatch store.toDb batch)
    (hrecords : RecordsOf service.config embed store batch records)
    (hwritten : persistVectors service now batch records store = .ok written) (id : Uuid) :
    activeVector service.config written.embeddings (.document, id) =
      ((documentVectorIn service.config embed store.toDb batch id).map service.literal).or
        (activeVector service.config store.embeddings (.document, id)) ∧
    activeVector service.config written.embeddings (.file, id) =
      ((fileVectorIn service.config embed store batch id).map service.literal).or
        (activeVector service.config store.embeddings (.file, id)) := by
  obtain ⟨aggregated, haggregated, hwritten⟩ := bind_eq_ok.mp hwritten
  obtain ⟨means, hmeans, haggregated⟩ := bind_eq_ok.mp haggregated
  obtain ⟨fileMeans, hfiles, haggregated⟩ := bind_eq_ok.mp haggregated
  cases haggregated
  cases hwritten
  have hmeanTypes := entityType_of_meanRecords hmeans
  have hfileTypes := entityType_of_meanRecords hfiles
  have hnoDocument : lastVector fileMeans (.document, id) = none :=
    lastVector_eq_none fun record hrecord hentity ↦ by
      cases (Prod.mk.inj hentity).1.symm.trans (hfileTypes record hrecord)
  have hnoFile : lastVector means (.file, id) = none :=
    lastVector_eq_none fun record hrecord hentity ↦ by
      cases (Prod.mk.inj hentity).1.symm.trans (hmeanTypes record hrecord)
  constructor
  · refine (activeVector_foldl (records ++ (means ++ fileMeans)) store _).trans ?_
    rw [lastVector_append, lastVector_append, hnoDocument, Option.none_or,
      (documentVector_batch hbatch hrecords hmeans id).2]
  · refine (activeVector_foldl (records ++ (means ++ fileMeans)) store _).trans ?_
    rw [lastVector_append, lastVector_append, hnoFile, Option.or_none,
      lastVector_fileMeans hbatch hrecords hmeans hfiles, lastVector_file hrecords]
    cases hbody : directFileBody service.config store batch id with
    | some body => simp [fileVectorIn, hbody]
    | none => simp

/-! ### A rebuild of all documents -/

/-- A call for all documents without a limit. -/
def allCall (documentBatchSize : ℤ) : RebuildCall := { allDocuments := true, documentBatchSize }

/-- The documents behind a cursor, in order. -/
def documentsBehind (after : Option Uuid) (store : VectorizationDb ν) : List Uuid :=
  documentsInOrder none true after store

instance : Std.Total idBefore := ⟨fun _ _ ↦ le_total _ _⟩

instance : IsTrans Uuid idBefore := ⟨fun _ _ _ hfirst hsecond ↦ le_trans hfirst hsecond⟩

theorem mem_documentsBehind {after : Option Uuid} {id : Uuid} : id ∈ documentsBehind after store ↔
    ∃ row ∈ store.documents, row.deletedAt = none ∧
      (∀ last, after = some last → last.toNat < row.id.toNat) ∧ row.id = id := by
  rw [documentsBehind, mem_documentsInOrder]
  cases after <;>
    simp [documentSelected, and_assoc]

theorem pairwise_documentsBehind {after : Option Uuid} :
    (documentsBehind after store).Pairwise idBefore :=
  List.pairwise_insertionSort _ _

theorem nodup_documentsBehind (hids : (store.documents.map fun row ↦ row.id).Nodup)
    {after : Option Uuid} : (documentsBehind after store).Nodup :=
  (List.perm_insertionSort _ _).nodup_iff.mpr (hids.sublist (List.filter_sublist.map _))

/-- The documents of a first batch are there. -/
theorem liveBatch_take (hids : (store.documents.map fun row ↦ row.id).Nodup)
    (after : Option Uuid) (count : ℕ) :
    LiveBatch store.toDb ((documentsBehind after store).take count) where
  nodup := (nodup_documentsBehind hids).sublist (List.take_sublist _ _)
  live id hid := by
    obtain ⟨row, hrow, hlive, _, hsame⟩ := mem_documentsBehind.mp (List.mem_of_mem_take hid)
    exact ⟨row, hrow, hlive, hsame⟩

/-- Behind the last document of a batch come the documents that the batch leaves. -/
theorem documentsBehind_last (hids : (store.documents.map fun row ↦ row.id).Nodup)
    {after : Option Uuid} {count : ℕ} {last : Uuid}
    (hlast : ((documentsBehind after store).take count).getLast? = some last) :
    documentsBehind (some last) store = (documentsBehind after store).drop count := by
  have hsorted : (documentsBehind after store).Pairwise idBefore := pairwise_documentsBehind
  have hnodup : (documentsBehind after store).Nodup := nodup_documentsBehind hids
  obtain ⟨front, hfront⟩ := List.getLast?_eq_some_iff.mp hlast
  have hsplit : documentsBehind after store =
      front ++ last :: (documentsBehind after store).drop count := by
    conv_lhs => rw [← List.take_append_drop count (documentsBehind after store), hfront]
    simp
  generalize (documentsBehind after store).drop count = rest at hsplit ⊢
  have hmem : ∀ id, id ∈ documentsBehind after store ↔ id ∈ front ∨ id = last ∨ id ∈ rest := by
    intro id
    rw [hsplit, List.mem_append, List.mem_cons]
  rw [hsplit, List.pairwise_append, List.pairwise_cons] at hsorted
  rw [hsplit] at hnodup
  have hrest := (List.nodup_cons.mp hnodup.of_append_right)
  obtain ⟨_, _, hafter, _⟩ := mem_documentsBehind.mp ((hmem last).mpr (.inr (.inl rfl)))
  refine List.Perm.eq_of_pairwise
    (fun first second _ _ hfirst hsecond ↦ BitVec.eq_of_toNat_eq (le_antisymm hfirst hsecond))
    pairwise_documentsBehind hsorted.2.1.2 ((List.perm_ext_iff_of_nodup
      (nodup_documentsBehind hids) hrest.2).mpr fun id ↦ ⟨fun hid ↦ ?_, fun hid ↦ ?_⟩)
  · obtain ⟨row, hrow, hlive, hbehind, rfl⟩ := mem_documentsBehind.mp hid
    have hless := hbehind last rfl
    have hold : row.id ∈ documentsBehind after store := by
      obtain ⟨lastRow, _, _, hstart, hsame⟩ :=
        mem_documentsBehind.mp ((hmem last).mpr (.inr (.inl rfl)))
      exact mem_documentsBehind.mpr ⟨row, hrow, hlive,
        fun start hsome ↦ (hsame ▸ hstart start hsome).trans hless, rfl⟩
    rcases (hmem row.id).mp hold with hfirst | hlast | hrest
    · exact absurd (hsorted.2.2 row.id hfirst last List.mem_cons_self) (not_le.mpr hless)
    · exact absurd hless (hlast ▸ lt_irrefl _)
    · exact hrest
  · obtain ⟨row, hrow, hlive, _, rfl⟩ := mem_documentsBehind.mp ((hmem id).mpr (.inr (.inr hid)))
    refine mem_documentsBehind.mpr ⟨row, hrow, hlive, fun start hsome ↦ ?_, rfl⟩
    obtain rfl := Option.some.inj hsome
    refine lt_of_le_of_ne (hsorted.2.1.1 row.id hid) fun hsame ↦ hrest.1 ?_
    rwa [BitVec.eq_of_toNat_eq hsame]

/-- What the last batch with a value comes to. -/
def lastIn {α β : Type} (parts : List α) (read : α → Option β) : Option β :=
  parts.reverse.findSome? read

theorem lastIn_cons {α β : Type} (part : α) (parts : List α) (read : α → Option β) :
    lastIn (part :: parts) read = (lastIn parts read).or (read part) := by
  rw [lastIn, List.reverse_cons, List.findSome?_append, List.findSome?_singleton]
  rfl

/-- A turn of a rebuild of all documents. -/
theorem exists_allTurn (hembeds : service.Embeds embed) {size : ℤ} (hsize : 0 < size)
    {state : RebuildState ν}
    (hleft : documentsBehind state.allDocumentsAfter state.store ≠ []) :
    ∃ next now records, rebuildTurn service (allCall size) state = .next next ∧
      next.allDocumentsAfter = ((documentsBehind state.allDocumentsAfter state.store).take
        size.toNat).getLast? ∧
      RecordsOf service.config embed state.store
        ((documentsBehind state.allDocumentsAfter state.store).take size.toNat) records ∧
      persistVectors service now ((documentsBehind state.allDocumentsAfter state.store).take
        size.toNat) records state.store = .ok next.store := by
  have hselected : nextDocuments (allCall size) state =
      .ok (some ((documentsBehind state.allDocumentsAfter state.store).take size.toNat,
        ((documentsBehind state.allDocumentsAfter state.store).take size.toNat).getLast?)) := by
    rw [nextDocuments_of_none state hsize rfl]
    exact if_neg (not_or.mpr ⟨Bool.false_ne_true, hleft⟩)
  obtain ⟨vectors, hvectors⟩ := hembeds.reliable.exists_embedChunks state.calls
    (selectVectorInputs service.config
      ((documentsBehind state.allDocumentsAfter state.store).take size.toNat) state.store)
  obtain ⟨store, hstore⟩ := exists_persistVectors hembeds.dimension
    (service.now state.processedDocs.length)
    ((documentsBehind state.allDocumentsAfter state.store).take size.toNat)
    (ofDimension_embedChunks hvectors) state.store
  exact ⟨_, _, vectors, rebuildTurn_of_stored rfl hselected hvectors hstore, rfl,
    bare_of_embedChunks hembeds hvectors, hstore⟩

/-- A rebuild of all documents ends, and the vectors in use come from the last batches that have
one. -/
theorem exists_allRun (hembeds : service.Embeds embed) {size : ℤ} (hsize : 0 < size)
    (state : RebuildState ν) (hids : (state.store.documents.map fun row ↦ row.id).Nodup) :
    ∃ final result, EndsWith (rebuildTurn service (allCall size)) state (final, .ok result) ∧
      ∀ id, activeVector service.config final.embeddings (.document, id) =
        ((lastIn (batches size.toNat (documentsBehind state.allDocumentsAfter state.store))
          (documentVectorIn service.config embed state.store.toDb · id)).map service.literal).or
            (activeVector service.config state.store.embeddings (.document, id)) ∧
      activeVector service.config final.embeddings (.file, id) =
        ((lastIn (batches size.toNat (documentsBehind state.allDocumentsAfter state.store))
          (fileVectorIn service.config embed state.store · id)).map service.literal).or
            (activeVector service.config state.store.embeddings (.file, id)) := by
  have hpositive : 0 < size.toNat := by omega
  induction hlength : (documentsBehind state.allDocumentsAfter state.store).length using
    Nat.strong_induction_on generalizing state with
  | _ length ih =>
    by_cases hleft : documentsBehind state.allDocumentsAfter state.store = []
    · have hselected : nextDocuments (allCall size) state = .ok none := by
        rw [nextDocuments_of_none state hsize rfl]
        exact if_pos (.inr hleft)
      refine ⟨state.store, _, endsWith_of_stop (by rw [rebuildTurn, hselected]), fun id ↦ ?_⟩
      rw [hleft]
      exact ⟨rfl, rfl⟩
    · obtain ⟨next, now, records, hturn, hafter, hrecords, hstore⟩ :=
        exists_allTurn hembeds hsize hleft
      have hbatch : (documentsBehind state.allDocumentsAfter state.store).take size.toNat ≠ [] := by
        rw [Ne, List.take_eq_nil_iff, not_or]
        exact ⟨hpositive.ne', hleft⟩
      have hlast := List.getLast?_eq_some_getLast hbatch
      have hkept := persistVectors_toDb hstore
      have hbehind : documentsBehind next.allDocumentsAfter next.store =
          (documentsBehind state.allDocumentsAfter state.store).drop size.toNat := by
        rw [hafter, hlast, ← documentsBehind_last hids hlast, hkept]
        rfl
      have hshorter : (documentsBehind next.allDocumentsAfter next.store).length < length := by
        have hpos := List.length_pos_of_ne_nil hleft
        rw [hbehind, List.length_drop, ← hlength]
        omega
      have hnextIds : (next.store.documents.map fun row ↦ row.id).Nodup := by
        rw [hkept]
        exact hids
      have htables : next.store.toDb = state.store.toDb := by
        rw [hkept]
        rfl
      have hfiles : fileVectorIn service.config embed next.store =
          fileVectorIn service.config embed state.store := by
        rw [hkept]
        rfl
      obtain ⟨final, result, hends, hvectors⟩ := ih _ hshorter next hnextIds rfl
      refine ⟨final, result, (endsWith_iff_of_next hturn).mpr hends, fun id ↦ ?_⟩
      obtain ⟨hdocument, hfile⟩ := hvectors id
      obtain ⟨hdocumentBatch, hfileBatch⟩ := activeVector_persistVectors
        (liveBatch_take hids state.allDocumentsAfter size.toNat) hrecords hstore id
      rw [batches_of_ne_nil hpositive hleft, lastIn_cons, lastIn_cons, Option.map_or, Option.map_or,
        Option.or_assoc, Option.or_assoc, ← hdocumentBatch, ← hfileBatch, hdocument, hfile, hbehind,
        htables, hfiles]
      exact ⟨rfl, rfl⟩

/-! ### Agreement -/

/-- The documents of a rebuild of all documents, in batches. -/
def allBatches (size : ℕ) (store : VectorizationDb ν) : List (List Uuid) :=
  batches size (documentsBehind none store)

/-- The documents of a file in the last batch in which the file has a vector. -/
def lastGroup (config : EmbeddingConfig) (store : VectorizationDb ν) (size : ℕ) (fileId : Uuid) :
    Option (List Uuid) :=
  ((allBatches size store).reverse.find? (bearsFileVector config store · fileId)).map
    (fileDocuments store.toDb · fileId)

/-- Two batch sizes put the same together: each document has a vector in both or in none, and each
file the same documents in the last batch in which it has a vector. -/
structure SameGroups (config : EmbeddingConfig) (store : VectorizationDb ν) (first second : ℕ) :
    Prop where
  documents : ∀ row ∈ store.documents,
    (allBatches first store).any (bearsVector config store.toDb · row.id) =
      (allBatches second store).any (bearsVector config store.toDb · row.id)
  files : ∀ fileId, lastGroup config store first fileId = lastGroup config store second fileId

/-- Rebuilding all documents with two batch sizes leads to the same vectors of documents and
files. -/
def VectorsAgree (service : VectorizationService ν) (store : VectorizationDb ν)
    (first second : ℤ) : Prop :=
  ∃ final result other otherResult,
    (∃ fuel, rebuild service (allCall first) store fuel = some (final, .ok result)) ∧
    (∃ fuel, rebuild service (allCall second) store fuel = some (other, .ok otherResult)) ∧
    ∀ id, activeVector service.config final.embeddings (.document, id) =
        activeVector service.config other.embeddings (.document, id) ∧
      activeVector service.config final.embeddings (.file, id) =
        activeVector service.config other.embeddings (.file, id)

theorem lastIn_ite {α β : Type} (parts : List α) (condition : α → Bool) (value : Option β) :
    lastIn parts (fun part ↦ if condition part then value else none) =
      if parts.any condition then value else none := by
  induction parts with
  | nil => rfl
  | cons part parts ih =>
    rw [lastIn_cons, ih, List.any_cons]
    cases condition part <;> cases parts.any condition <;> cases value <;> rfl

/-- The last batch with a value, when a condition says which have one. -/
theorem lastIn_eq_find {α β : Type} {parts : List α} {read : α → Option β} {condition : α → Bool}
    (hread : ∀ part ∈ parts, (read part).isSome = condition part) :
    lastIn parts read = (parts.reverse.find? condition).bind read := by
  have hreverse : ∀ part ∈ parts.reverse, (read part).isSome = condition part :=
    fun part hpart ↦ hread part (List.mem_reverse.mp hpart)
  rw [lastIn]
  generalize parts.reverse = reversed at hreverse ⊢
  induction reversed with
  | nil => rfl
  | cons part rest ih =>
    have hpart := hreverse part List.mem_cons_self
    rw [List.findSome?_cons, List.find?_cons]
    cases hvalue : read part with
    | none =>
      rw [hvalue] at hpart
      rw [← hpart]
      exact ih fun other hother ↦ hreverse other (List.mem_cons_of_mem _ hother)
    | some value =>
      rw [hvalue] at hpart
      rw [← hpart]
      exact hvalue.symm

/-! ### Which vectors there are -/

theorem VectorizationService.Embeds.length_embed (hembeds : service.Embeds embed) (text : Text) :
    (embed text).length = service.config.dimension := by
  obtain ⟨response, _, hvectors, _⟩ := hembeds.answers 0 [text]
  exact extractVectors_length hvectors _ (List.mem_map_of_mem List.mem_cons_self)

/-- A document has a vector of the configured dimension exactly when it bears one. -/
theorem documentVectorIn_spec (hembeds : service.Embeds embed) (db : Db) (batch : List Uuid)
    (id : Uuid) :
    (documentVectorIn service.config embed db batch id).isSome =
      bearsVector service.config db batch id ∧
    ∀ vector, documentVectorIn service.config embed db batch id = some vector →
      vector.length = service.config.dimension := by
  rw [documentVectorIn]
  cases hbears : bearsVector service.config db batch id with
  | false => exact ⟨rfl, nofun⟩
  | true =>
    rw [if_pos rfl, documentVectorOf]
    cases hbody : directBody service.config db id with
    | some body => exact ⟨rfl, fun vector hvector ↦ by
        cases hvector
        exact hembeds.length_embed body⟩
    | none =>
      have hinputs : (if (paragraphInputs db id).isEmpty = true then chunkInputs db id
          else paragraphInputs db id) ≠ [] := by
        by_cases hnone : paragraphInputs db id = []
        · simp only [bearsVector, bearsParagraphs, hbody, hnone, Option.isSome_none,
            List.isEmpty_nil, Bool.not_true, Bool.and_false, Bool.false_or, Bool.and_eq_true,
            Bool.not_eq_true', List.isEmpty_eq_false_iff] at hbears
          rw [hnone]
          exact hbears.2.1
        · rw [if_neg (by simpa using hnone)]
          exact hnone
      dsimp only
      generalize (if (paragraphInputs db id).isEmpty = true then chunkInputs db id
        else paragraphInputs db id) = inputs at hinputs ⊢
      have hvectors : ∀ vector ∈ bodyVectors embed inputs,
          vector.length = service.config.dimension := by
        intro vector hvector
        obtain ⟨input, _, rfl⟩ := List.mem_map.mp hvector
        exact hembeds.length_embed input.body
      have hnonempty : bodyVectors embed inputs ≠ [] := List.map_eq_nil_iff.not.mpr hinputs
      obtain ⟨mean, hmean, hlength⟩ :=
        meanVector_of_dimension hembeds.dimension hnonempty hvectors
      rw [hmean]
      exact ⟨rfl, fun vector hvector ↦ by
        cases hvector
        exact hlength⟩

/-- A file has a vector exactly when it bears one. -/
theorem isSome_fileVectorIn (hembeds : service.Embeds embed) (batch : List Uuid)
    (fileId : Uuid) : (fileVectorIn service.config embed store batch fileId).isSome =
      bearsFileVector service.config store batch fileId := by
  rw [fileVectorIn, bearsFileVector]
  cases hbody : directFileBody service.config store batch fileId with
  | some body => rfl
  | none =>
    dsimp only
    rw [Option.isSome_none, Bool.false_or]
    cases hany : (fileDocuments store.toDb batch fileId).any
        (bearsVector service.config store.toDb batch) with
    | false =>
      have hnil : (fileDocuments store.toDb batch fileId).filterMap
          (documentVectorIn service.config embed store.toDb batch) = [] := by
        rw [List.filterMap_eq_nil_iff]
        intro id hid
        have hbears := List.any_eq_false.mp hany id hid
        rw [Bool.not_eq_true, ← (documentVectorIn_spec hembeds store.toDb batch id).1] at hbears
        simpa using hbears
      rw [hnil]
      rfl
    | true =>
      obtain ⟨id, hid, hbears⟩ := List.any_eq_true.mp hany
      rw [← (documentVectorIn_spec hembeds store.toDb batch id).1,
        Option.isSome_iff_exists] at hbears
      obtain ⟨vector, hvector⟩ := hbears
      obtain ⟨mean, hmean, _⟩ := meanVector_of_dimension hembeds.dimension
        (List.ne_nil_of_mem (List.mem_filterMap.mpr ⟨id, hid, hvector⟩)) (by
          intro other hother
          obtain ⟨otherId, _, hsome⟩ := List.mem_filterMap.mp hother
          exact (documentVectorIn_spec hembeds store.toDb batch otherId).2 other hsome)
      rw [hmean]
      rfl

/-! ### Which documents stand in a batch -/

theorem mem_allBatches {size : ℕ} (hsize : 0 < size)
    (hids : (store.documents.map fun row ↦ row.id).Nodup) (hbatch : batch ∈ allBatches size store) :
    LiveBatch store.toDb batch where
  nodup := by
    have hnodup : (documentsBehind none store).Nodup := nodup_documentsBehind hids
    rw [← flatten_batches hsize (documentsBehind none store), List.nodup_flatten] at hnodup
    exact hnodup.1 batch hbatch
  live id hid := by
    obtain ⟨row, hrow, hlive, _, hsame⟩ :=
      mem_documentsBehind.mp (mem_of_mem_batches hsize hbatch hid)
    exact ⟨row, hrow, hlive, hsame⟩

/-- A document has a vector in a rebuild exactly when it has one in its batch. -/
theorem any_bearsVector {size : ℕ} (hsize : 0 < size)
    (hids : (store.documents.map fun row ↦ row.id).Nodup)
    (hbatch : batch ∈ allBatches size store) {id : Uuid} (hid : id ∈ batch) :
    (allBatches size store).any (bearsVector config store.toDb · id) =
      bearsVector config store.toDb batch id := by
  have hnodup : (documentsBehind none store).Nodup := nodup_documentsBehind hids
  rw [← flatten_batches hsize (documentsBehind none store), List.nodup_flatten] at hnodup
  rw [Bool.eq_iff_iff, List.any_eq_true]
  constructor
  · rintro ⟨other, hother, hbears⟩
    have hmem : id ∈ other := by
      rw [bearsVector, Bool.and_eq_true, List.contains_iff_mem] at hbears
      exact hbears.1
    by_cases hsame : other = batch
    · rwa [← hsame]
    · have hsymm : Std.Symm (List.Disjoint (α := Uuid)) := ⟨fun _ _ hdisjoint ↦ hdisjoint.symm⟩
      exact absurd hid (hnodup.2.forall hother hbatch hsame hmem)
  · exact fun hbears ↦ ⟨batch, hbatch, hbears⟩

/-- A document that is not there has no vector. -/
theorem any_bearsVector_of_not_mem {size : ℕ} (hsize : 0 < size) {id : Uuid}
    (hid : ∀ row ∈ store.documents, row.id ≠ id) :
    (allBatches size store).any (bearsVector config store.toDb · id) = false := by
  rw [List.any_eq_false]
  intro batch hbatch hbears
  rw [bearsVector, Bool.and_eq_true, List.contains_iff_mem] at hbears
  obtain ⟨row, hrow, _, _, hsame⟩ :=
    mem_documentsBehind.mp (mem_of_mem_batches hsize hbatch hbears.1)
  exact hid row hrow hsame

theorem mem_fileDocuments {db : Db} {fileId : Uuid} {row : DocumentRow} (hrow : row ∈ db.documents)
    (howner : row.ownerId = some fileId) :
    row.id ∈ fileDocuments db batch fileId ↔ row.id ∈ batch := by
  simp only [fileDocuments, List.mem_map, List.mem_filter, Bool.and_eq_true, decide_eq_true_eq,
    List.contains_iff_mem]
  constructor
  · rintro ⟨other, ⟨_, _, hmem⟩, hsame⟩
    rwa [← hsame]
  · exact fun hmem ↦ ⟨row, ⟨hrow, howner, hmem⟩, rfl⟩

/-- A file that finds the same documents in two batches, with the same vectors, has the same vector
in both. -/
theorem fileVectorIn_congr {other : List Uuid} {fileId : Uuid}
    (hsame : fileDocuments store.toDb batch fileId = fileDocuments store.toDb other fileId)
    (hvectors : ∀ id ∈ fileDocuments store.toDb batch fileId,
      documentVectorIn config embed store.toDb batch id =
        documentVectorIn config embed store.toDb other id) :
    fileVectorIn config embed store batch fileId = fileVectorIn config embed store other fileId := by
  have hlive : ((liveDocuments store.toDb batch).filter fun row ↦
      row.ownerId = some fileId && !(paragraphsInOrder store.toDb row.id).isEmpty) =
        (liveDocuments store.toDb other).filter fun row ↦
          row.ownerId = some fileId && !(paragraphsInOrder store.toDb row.id).isEmpty := by
    rw [liveDocuments, liveDocuments, List.filter_filter, List.filter_filter]
    refine List.filter_congr fun row hrow ↦ ?_
    by_cases howner : row.ownerId = some fileId
    · have hgroups : row.id ∈ fileDocuments store.toDb batch fileId ↔
          row.id ∈ fileDocuments store.toDb other fileId := by rw [hsame]
      have hmem := ((mem_fileDocuments hrow howner).symm.trans hgroups).trans
        (mem_fileDocuments hrow howner)
      simp [howner, hmem]
    · simp [howner]
  have hbody : directFileBody config store batch fileId =
      directFileBody config store other fileId := by
    rw [directFileBody, directFileBody, fileGroup, fileGroup, hlive]
  rw [fileVectorIn, fileVectorIn, hbody, ← hsame, List.filterMap_congr hvectors]

/-- With the same groups, a document has the same vector in both rebuilds. -/
theorem lastIn_document_congr {first second : ℕ} (hfirst : 0 < first) (hsecond : 0 < second)
    (hsame : SameGroups config store first second) (id : Uuid) :
    lastIn (allBatches first store) (documentVectorIn config embed store.toDb · id) =
      lastIn (allBatches second store) (documentVectorIn config embed store.toDb · id) := by
  have hany : (allBatches first store).any (bearsVector config store.toDb · id) =
      (allBatches second store).any (bearsVector config store.toDb · id) := by
    by_cases hthere : ∃ row ∈ store.documents, row.id = id
    · obtain ⟨row, hrow, rfl⟩ := hthere
      exact hsame.documents row hrow
    · simp only [not_exists, not_and] at hthere
      rw [any_bearsVector_of_not_mem hfirst hthere, any_bearsVector_of_not_mem hsecond hthere]
  simp only [documentVectorIn, lastIn_ite, hany]

/-- With the same groups, a file has the same vector in both rebuilds. -/
theorem lastIn_file_congr (hembeds : service.Embeds embed)
    (hids : (store.documents.map fun row ↦ row.id).Nodup) {first second : ℕ} (hfirst : 0 < first)
    (hsecond : 0 < second) (hsame : SameGroups service.config store first second) (fileId : Uuid) :
    lastIn (allBatches first store) (fileVectorIn service.config embed store · fileId) =
      lastIn (allBatches second store) (fileVectorIn service.config embed store · fileId) := by
  rw [lastIn_eq_find fun part _ ↦ isSome_fileVectorIn hembeds part fileId,
    lastIn_eq_find fun part _ ↦ isSome_fileVectorIn hembeds part fileId]
  have hgroup := hsame.files fileId
  rw [lastGroup, lastGroup] at hgroup
  cases hfound : (allBatches first store).reverse.find?
      (bearsFileVector service.config store · fileId) with
  | none =>
    rw [hfound, Option.map_none, eq_comm, Option.map_eq_none_iff] at hgroup
    rw [hgroup]
  | some batch =>
    rw [hfound, Option.map_some, eq_comm, Option.map_eq_some_iff] at hgroup
    obtain ⟨other, hother, hdocuments⟩ := hgroup
    rw [hother, Option.bind_some, Option.bind_some]
    have hbatch := List.mem_reverse.mp (List.mem_of_find?_eq_some hfound)
    have hotherBatch := List.mem_reverse.mp (List.mem_of_find?_eq_some hother)
    refine fileVectorIn_congr hdocuments.symm fun id hid ↦ ?_
    obtain ⟨row, hrow, rfl⟩ := List.mem_map.mp hid
    obtain ⟨hrow, hselected⟩ := List.mem_filter.mp hrow
    rw [Bool.and_eq_true, decide_eq_true_eq, List.contains_iff_mem] at hselected
    have hmem : row.id ∈ other :=
      (mem_fileDocuments hrow hselected.1).mp (hdocuments ▸ hid)
    rw [documentVectorIn, documentVectorIn, ← any_bearsVector hfirst hids hbatch hselected.2,
      ← any_bearsVector hsecond hids hotherBatch hmem, hsame.documents row hrow]

/-- Equal batches put the same together. -/
theorem sameGroups_of_eq {first second : ℕ}
    (hbatches : allBatches first store = allBatches second store) :
    SameGroups config store first second where
  documents row _ := by rw [hbatches]
  files fileId := by rw [lastGroup, lastGroup, hbatches]

/-- The result of a rebuild does not depend on the fuel. -/
theorem rebuild_unique {call : RebuildCall} {fuel otherFuel : ℕ} {stop other : RebuildEnd ν}
    (hstop : rebuild service call store fuel = some stop)
    (hother : rebuild service call store otherFuel = some other) : stop = other := by
  rw [rebuild] at hstop hother
  split at hstop
  next hsize =>
    rw [if_pos hsize] at hother
    exact Option.some.inj (hstop.symm.trans hother)
  next hsize =>
    rw [if_neg hsize] at hother
    exact EndsWith.unique ⟨fuel, hstop⟩ ⟨otherFuel, hother⟩

end DocStore
