import DocStore.Runtime.ParagraphTexts
import DocStore.Runtime.VectorBatches

/-!
# Vectors and edits between each other

A turn of the vectorizer reads the texts of its documents, waits for the embedding client and stores
the vectors in a later transaction. Edits go on meanwhile, and so do the turns of other vectorizers.
`Fresh` says that every vector in use of a chunk or of a paragraph is the one of its current text.
The version service and `update_entity` of a chunk take the vectors of the old text out of
use and keep it whatever is under way; a turn keeps it exactly when the texts that it has read have
still the same vectors, an update of a paragraph when the vectors in use are those of the new text,
and the chunk repository when the vector that comes with an unchanged text is that of the text
(`fresh_of_interleaving`).

Each transaction is one step, and so are the reads of a turn. Chunks are not removed here.
-/

set_option autoImplicit false
set_option relaxedAutoImplicit false

namespace DocStore

open Foundation

variable {ν : Type}

/-! ### Fresh vectors -/

/-- A chunk or a paragraph, whose vector is that of its own text. -/
def VectorEntity.hasText : VectorEntity → Bool
  | .semanticChunk | .paragraph => true
  | .document | .file => false

/-- The text that the vector of a chunk or of a paragraph is computed from. -/
def Db.vectorText (db : Db) : VectorEntity × Uuid → Option Text
  | (.semanticChunk, id) => db.chunkText id
  | (.paragraph, id) => db.paragraphText id
  | (.document, _) | (.file, _) => none

/-- The vectors of an entity that are in use, for the configured model and dimension. -/
def usedVectors (config : EmbeddingConfig) (embeddings : List (EmbeddingRow ν))
    (entity : VectorEntity × Uuid) : List ν :=
  (embeddings.filter fun row ↦ row.active && embeddingOf config entity row).map EmbeddingRow.vector

/-- What is stored for a text. -/
def VectorizationService.vectorFor (service : VectorizationService ν) (embed : Text → Vector)
    (text : Text) : ν :=
  service.literal (embed text)

/-- Every vector in use of a chunk or of a paragraph is that of its current text. -/
def Fresh (service : VectorizationService ν) (embed : Text → Vector) (store : VectorDb ν) : Prop :=
  ∀ entity : VectorEntity × Uuid, entity.1.hasText = true →
    ∀ vector ∈ usedVectors service.config store.embeddings entity,
      (store.vectorText entity).map (service.vectorFor embed) = some vector

/-- The embedding of a chunk names it, and no other embedding names one. -/
def EmbeddingRow.NamesChunk (row : EmbeddingRow ν) : Prop :=
  row.chunkUuid = if row.entityType = .semanticChunk then some row.entityId else none

/-- What the foreign keys promise: a text belongs to a chunk that is there, and the embeddings of
chunks are those that name a chunk, each its own. -/
structure VectorDb.Keyed (store : VectorDb ν) : Prop where
  texts : ∀ id ∈ store.semanticChunkTexts.map SemanticChunkText.chunkUuid,
    id ∈ store.semanticChunks.map fun row ↦ row.id
  embeddings : ∀ row ∈ store.embeddings, row.NamesChunk

/-! ### Turns under way -/

/-- A turn of a vectorizer between the reading of the texts and the storing of the vectors. -/
structure OpenTurn (service : VectorizationService ν) where
  documents : List Uuid
  inputs : List ChunkVectorInput
  calls : ℕ
  vectors : List ChunkVectorRecord
  embedded : embedChunks service.config service.client calls inputs = .ok vectors

/-- The tables, and the turns that are under way. -/
structure VectorWork (service : VectorizationService ν) where
  store : VectorizationDb ν
  turns : ℕ → Option (OpenTurn service) := fun _ ↦ none

/-- What happens next: a text is edited, a turn reads the texts of some documents, after a number of
calls of the client, or a turn stores its vectors. -/
inductive VectorEvent (ν : Type) where
  | edit (operation : TextOperation ν)
  | read (turn : ℕ) (documents : List Uuid) (calls : ℕ)
  | store (turn : ℕ) (now : Instant)

section Steps

variable {service : VectorizationService ν}

/-- The texts of some documents, read and embedded. -/
def openTurn (service : VectorizationService ν) (store : VectorizationDb ν) (documents : List Uuid)
    (calls : ℕ) : Option (OpenTurn service) :=
  match hembedded : embedChunks service.config service.client calls
      (selectVectorInputs service.config documents store) with
  | .ok vectors => some
    { documents
      inputs := selectVectorInputs service.config documents store
      calls
      vectors
      embedded := hembedded }
  | .error _ => none

/-- One event, when it succeeds. -/
def vectorStep (host : Host) (work : VectorWork service) :
    VectorEvent ν → Option (VectorWork service)
  | .edit operation =>
    (toOption (operation.apply host work.store.toVectorDb)).map fun next ↦
      { work with store := { work.store with toVectorDb := next } }
  | .read turn documents calls =>
    (openTurn service work.store documents calls).map fun opened ↦
      { work with turns := Function.update work.turns turn (some opened) }
  | .store turn now =>
    (work.turns turn).bind fun opened ↦
      (toOption (persistVectors service now opened.documents opened.vectors work.store)).map
        fun next ↦ { store := next, turns := Function.update work.turns turn none }

/-- The entity of an input. -/
def ChunkVectorInput.entity (input : ChunkVectorInput) : VectorEntity × Uuid :=
  (input.entityType, input.entityId)

/-- The text that a turn has read of an entity. -/
def OpenTurn.readText (opened : OpenTurn service) (entity : VectorEntity × Uuid) : Option Text :=
  (opened.inputs.reverse.find? fun input ↦ input.entity = entity).map ChunkVectorInput.body

/-- The texts that a turn has read have still the same vectors. -/
def OpenTurn.Current (opened : OpenTurn service) (embed : Text → Vector) (db : Db) : Prop :=
  ∀ input ∈ opened.inputs, input.entityType.hasText = true →
    (db.vectorText input.entity).map (service.vectorFor embed) =
      (opened.readText input.entity).map (service.vectorFor embed)

/-- When an event keeps the vectors in use fresh. -/
def KeepsFresh (embed : Text → Vector) (work : VectorWork service) : VectorEvent ν → Prop
  | .read .. | .edit (.version _) | .edit (.updateChunk ..) => True
  | .store turn _ => ∀ opened ∈ work.turns turn, opened.Current embed work.store.toDb
  | .edit (.updateParagraph paragraphId values) => ∀ text ∈ values.text,
    ∀ vector ∈ usedVectors service.config work.store.embeddings (.paragraph, paragraphId),
      vector = service.vectorFor embed text
  | .edit (.upsert root embedding) => ∀ payload ∈ embedding,
    rootTextChanged root work.store.toDb = false → payload.active = true →
      payload.model = service.config.model → payload.dimension = service.config.dimension →
        payload.vector = service.vectorFor embed root.text

end Steps

/-! ### Vectors in use -/

section Vectors

variable {service : VectorizationService ν} {config : EmbeddingConfig}
  {embeddings : List (EmbeddingRow ν)} {entity : VectorEntity × Uuid} {vector : ν}

theorem mem_usedVectors : vector ∈ usedVectors config embeddings entity ↔
    ∃ row ∈ embeddings, row.active = true ∧ embeddingOf config entity row = true ∧
      row.vector = vector := by
  simp only [usedVectors, List.mem_map, List.mem_filter, Bool.and_eq_true, and_assoc]

theorem entity_of_embeddingOf {row : EmbeddingRow ν} (hrow : embeddingOf config entity row = true) :
    row.entity = entity := by
  simp only [embeddingOf, Bool.and_eq_true, decide_eq_true_eq] at hrow
  exact hrow.1.1

/-- A stored record is in use, and nothing else of its entity. -/
theorem mem_usedVectors_storeVector_self (store : VectorizationDb ν) (record : ChunkVectorRecord) :
    vector ∈ usedVectors service.config (storeVector service store record).embeddings
      record.entity ↔ vector = service.literal record.vector := by
  constructor
  · intro hused
    obtain ⟨row, hrow, hactive, hof, rfl⟩ := mem_usedVectors.mp hused
    rw [storeVector_embeddings, upsert] at hrow
    have hgone : ∀ old ∈ deactivate (embeddingOf service.config record.entity) store.embeddings,
        embeddingOf service.config record.entity old = true → old.active = false := by
      intro old hold hofOld
      by_contra hused
      have hstill := (mem_deactivate_active.mp ⟨hold, Bool.not_eq_false _ ▸ hused⟩).2.2
      exact absurd hofOld (hstill ▸ Bool.false_ne_true)
    split at hrow
    · obtain ⟨old, hold, rfl⟩ := mem_updateWhere.mp hrow
      split
      · rfl
      next hnot =>
        rw [if_neg hnot] at hactive hof
        exact absurd hactive (hgone old hold hof ▸ Bool.false_ne_true)
    · rcases List.mem_append.mp hrow with hold | hnew
      · exact absurd hactive (hgone row hold hof ▸ Bool.false_ne_true)
      · obtain rfl := List.mem_singleton.mp hnew
        rfl
  · rintro rfl
    have hself := @activeVector_storeVector_self _ service store record
    obtain ⟨row, hfound, hvector⟩ := Option.map_eq_some_iff.mp hself
    have hselected := List.find?_some hfound
    rw [Bool.and_eq_true] at hselected
    exact mem_usedVectors.mpr ⟨row, List.mem_of_find?_eq_some hfound, hselected.1, hselected.2,
      hvector⟩

/-- A stored record leaves the vectors of other entities. -/
theorem mem_usedVectors_storeVector_of_ne (store : VectorizationDb ν) {record : ChunkVectorRecord}
    (hne : record.entity ≠ entity) :
    vector ∈ usedVectors service.config (storeVector service store record).embeddings entity ↔
      vector ∈ usedVectors service.config store.embeddings entity := by
  have hversion : ∀ row : EmbeddingRow ν, row.entity = entity →
      row.version ≠ (embeddingRow service record).version :=
    fun row hrow hsame ↦ hne ((congrArg Prod.fst hsame).symm.trans hrow)
  have hkept : ∀ row : EmbeddingRow ν, row.entity = entity →
      embeddingOf service.config record.entity row = false := by
    intro row hrow
    simp [embeddingOf, hrow, Ne.symm hne]
  simp only [mem_usedVectors]
  refine exists_congr fun row ↦ ⟨?_, ?_⟩
  · rintro ⟨hrow, hactive, hof, hvector⟩
    have hentity := entity_of_embeddingOf hof
    refine ⟨?_, hactive, hof, hvector⟩
    rw [storeVector_embeddings, upsert] at hrow
    split at hrow
    · obtain ⟨old, hold, rfl⟩ := mem_updateWhere.mp hrow
      by_cases hsame : old.version = (embeddingRow service record).version
      · rw [if_pos (decide_eq_true hsame)] at hentity
        exact absurd hsame (hversion old hentity)
      · rw [if_neg (by simpa using hsame)] at hactive ⊢
        exact (mem_deactivate_active.mp ⟨hold, hactive⟩).1
    · rcases List.mem_append.mp hrow with hold | hnew
      · exact (mem_deactivate_active.mp ⟨hold, hactive⟩).1
      · obtain rfl := List.mem_singleton.mp hnew
        exact absurd rfl (hversion _ hentity)
  · rintro ⟨hrow, hactive, hof, hvector⟩
    have hentity := entity_of_embeddingOf hof
    have hold := (mem_deactivate_active.mpr ⟨hrow, hactive, hkept row hentity⟩).1
    refine ⟨?_, hactive, hof, hvector⟩
    rw [storeVector_embeddings, upsert]
    split
    · exact mem_updateWhere_of_not hold (decide_eq_false (hversion row hentity))
    · exact List.mem_append_left _ hold

/-- Stored records: the last one of an entity is in use, alone. -/
theorem mem_usedVectors_foldl (records : List ChunkVectorRecord) (store : VectorizationDb ν) :
    vector ∈ usedVectors service.config (records.foldl (storeVector service) store).embeddings
        entity ↔
      match lastVector records entity with
      | some last => vector = service.literal last
      | none => vector ∈ usedVectors service.config store.embeddings entity := by
  induction records using List.reverseRecOn with
  | nil => exact Iff.rfl
  | append_singleton records record ih =>
    rw [List.foldl_append, List.foldl_cons, List.foldl_nil, lastVector_append,
      lastVector_singleton]
    by_cases hentity : record.entity = entity
    · rw [if_pos hentity, Option.some_or, ← hentity]
      exact mem_usedVectors_storeVector_self _ record
    · rw [if_neg hentity, Option.none_or, mem_usedVectors_storeVector_of_ne _ hentity]
      exact ih

end Vectors

/-! ### Storing a turn -/

section Storing

variable {service : VectorizationService ν} {embed : Text → Vector}
  {store written : VectorizationDb ν}

/-- The means that a turn stores are not those of chunks or paragraphs. -/
theorem hasText_of_aggregate {docs : List Uuid} {vectors aggregated : List ChunkVectorRecord}
    (haggregate : aggregateDocumentFileVectors store.toDb docs vectors = .ok aggregated) :
    ∀ record ∈ aggregated, record.entityType.hasText = false := by
  obtain ⟨documentRecords, hdocuments, haggregate⟩ := bind_eq_ok.mp haggregate
  obtain ⟨fileRecords, hfiles, hsame⟩ := bind_eq_ok.mp haggregate
  cases hsame
  intro record hmem
  rcases List.mem_append.mp hmem with hdocument | hfile
  · rw [entityType_of_meanRecords hdocuments record hdocument]
    rfl
  · rw [entityType_of_meanRecords hfiles record hfile]
    rfl

/-- The vector that a turn has got for an entity is that of the text it has read. -/
theorem OpenTurn.lastVector_eq (hembeds : service.Embeds embed) (opened : OpenTurn service)
    (entity : VectorEntity × Uuid) :
    lastVector opened.vectors entity = (opened.readText entity).map embed := by
  rw [← lastVector_map_bare, bare_of_embedChunks hembeds opened.embedded, OpenTurn.readText,
    lastVector, ← List.map_reverse, List.find?_map, Option.map_map, Option.map_map]
  rfl

theorem OpenTurn.readText_isSome {opened : OpenTurn service} {input : ChunkVectorInput}
    (hinput : input ∈ opened.inputs) : (opened.readText input.entity).isSome = true := by
  rw [OpenTurn.readText, Option.isSome_map, List.find?_isSome]
  exact ⟨input, List.mem_reverse.mpr hinput, decide_eq_true rfl⟩

/-- What a turn stores for the texts that it has read is in use, alone; the other vectors of chunks
and paragraphs stay. -/
theorem mem_usedVectors_of_persist (hembeds : service.Embeds embed) {opened : OpenTurn service}
    {now : Instant} (hpersist : persistVectors service now opened.documents opened.vectors store =
      .ok written) {entity : VectorEntity × Uuid} (htext : entity.1.hasText = true) {vector : ν} :
    vector ∈ usedVectors service.config written.embeddings entity ↔
      match opened.readText entity with
      | some text => vector = service.vectorFor embed text
      | none => vector ∈ usedVectors service.config store.embeddings entity := by
  obtain ⟨aggregated, haggregate, hwritten⟩ := bind_eq_ok.mp hpersist
  cases hwritten
  have hnone : lastVector aggregated entity = none := by
    refine lastVector_eq_none fun record hrecord hsame ↦ ?_
    have hother := hasText_of_aggregate haggregate record hrecord
    rw [show record.entityType = entity.1 from congrArg Prod.fst hsame, htext] at hother
    cases hother
  refine (mem_usedVectors_foldl (opened.vectors ++ aggregated) store).trans ?_
  rw [lastVector_append, hnone, Option.none_or, opened.lastVector_eq hembeds]
  cases opened.readText entity with
  | none => exact Iff.rfl
  | some text => exact Iff.rfl

/-- **A turn keeps the vectors in use fresh exactly when the texts that it has read have still the
same vectors.** -/
theorem fresh_persist_iff (hembeds : service.Embeds embed)
    (hfresh : Fresh service embed store.toVectorDb) {opened : OpenTurn service} {now : Instant}
    (hpersist : persistVectors service now opened.documents opened.vectors store = .ok written) :
    Fresh service embed written.toVectorDb ↔ opened.Current embed store.toDb := by
  have hdb : written.toDb = store.toDb := by
    rw [persistVectors_toDb hpersist]
    rfl
  constructor
  · intro hnext input hinput htext
    obtain ⟨text, hread⟩ := Option.isSome_iff_exists.mp (OpenTurn.readText_isSome hinput)
    have hused : service.vectorFor embed text ∈
        usedVectors service.config written.embeddings input.entity := by
      rw [mem_usedVectors_of_persist hembeds hpersist htext, hread]
    have hcurrent := hnext input.entity htext _ hused
    rw [hdb] at hcurrent
    rw [hcurrent, hread, Option.map_some]
  · intro hcurrent entity htext vector hused
    rw [mem_usedVectors_of_persist hembeds hpersist htext] at hused
    rw [hdb]
    cases hread : opened.readText entity with
    | none =>
      rw [hread] at hused
      exact hfresh entity htext vector hused
    | some text =>
      rw [hread] at hused
      obtain ⟨input, hfound, -⟩ := Option.map_eq_some_iff.mp hread
      have hentity : input.entity = entity := by simpa using List.find?_some hfound
      have hinput := List.mem_reverse.mp (List.mem_of_find?_eq_some hfound)
      rw [← hentity] at htext
      have hsame := hcurrent input hinput htext
      rw [hentity, hread, Option.map_some] at hsame
      rw [hsame, hused]

end Storing

/-! ### Editing a text -/

section Editing

variable {host : Host} {service : VectorizationService ν} {embed : Text → Vector}
  {store next : VectorDb ν}

/-- A fresh vector is that of the current text. -/
theorem Fresh.vector_eq (hfresh : Fresh service embed store) {entity : VectorEntity × Uuid}
    (hasText : entity.1.hasText = true) {text : Text}
    (htext : store.vectorText entity = some text) {vector : ν}
    (hused : vector ∈ usedVectors service.config store.embeddings entity) :
    vector = service.vectorFor embed text := by
  have hcurrent := hfresh entity hasText vector hused
  rw [htext, Option.map_some] at hcurrent
  exact (Option.some.inj hcurrent).symm

/-- Vectors that stay in use with their texts stay fresh. -/
theorem Fresh.of_subset (hfresh : Fresh service embed store)
    (hstays : ∀ entity : VectorEntity × Uuid, entity.1.hasText = true →
      ∀ vector ∈ usedVectors service.config next.embeddings entity,
        vector ∈ usedVectors service.config store.embeddings entity ∧
          ∀ text, store.vectorText entity = some text → next.vectorText entity = some text) :
    Fresh service embed next := by
  intro entity htext vector hused
  obtain ⟨hbefore, hsame⟩ := hstays entity htext vector hused
  obtain ⟨text, hfound, hvector⟩ :=
    Option.map_eq_some_iff.mp (hfresh entity htext vector hbefore)
  rw [hsame text hfound, Option.map_some, hvector]

/-- The texts that vectors are computed from are those of the paragraphs and of the text rows. -/
theorem vectorText_congr {db later : Db} (hparagraphs : later.paragraphs = db.paragraphs)
    {entity : VectorEntity × Uuid}
    (htexts : entity.1 = .semanticChunk → later.chunkText entity.2 = db.chunkText entity.2) :
    later.vectorText entity = db.vectorText entity := by
  obtain ⟨entityType, id⟩ := entity
  cases entityType with
  | semanticChunk => exact htexts rfl
  | paragraph =>
    show (lookup _ id later.paragraphs).map _ = (lookup _ id db.paragraphs).map _
    rw [hparagraphs]
  | document => rfl
  | file => rfl

/-- An operation on one chunk leaves the paragraphs, the texts of other chunks and the keys. -/
structure WritesChunk (db later : Db) (chunkUuid : Uuid) : Prop where
  paragraphs : later.paragraphs = db.paragraphs
  texts : ∀ id, id ≠ chunkUuid → later.chunkText id = db.chunkText id
  keys : (∀ id ∈ db.semanticChunkTexts.map SemanticChunkText.chunkUuid,
      id ∈ db.semanticChunks.map fun row ↦ row.id) →
    ∀ id ∈ later.semanticChunkTexts.map SemanticChunkText.chunkUuid,
      id ∈ later.semanticChunks.map fun row ↦ row.id

/-- A call of the version service writes one chunk. -/
theorem writesChunk_of_version {action : VersionAction} {db later : Db} {reply : VersionReply}
    (happly : action.apply host db = .ok (reply, later)) :
    WritesChunk db later action.chunkUuid := by
  obtain ⟨chunk, hfound⟩ := exists_chunk_of_apply happly
  have hwrites := writesText_of_apply hfound happly
  cases hwritten : action.written chunk db with
  | none =>
    rw [hwritten] at hwrites
    obtain ⟨-, -, hparagraphs, hchunks, htexts⟩ := TextTables.mk.inj hwrites
    refine ⟨hparagraphs, fun id _ ↦ ?_, fun hkeys ↦ ?_⟩
    · rw [Db.chunkText, Db.chunkText, Db.textRow, Db.textRow, htexts]
    · rwa [htexts, hchunks]
  | some written =>
    rw [hwritten] at hwrites
    obtain ⟨row, -, -, htables⟩ := hwrites
    obtain ⟨-, -, hparagraphs, hchunks, htexts⟩ := TextTables.mk.inj htables
    have hids : (projectText action.chunkUuid row db).semanticChunks.map (fun row ↦ row.id) =
        db.semanticChunks.map fun row ↦ row.id := map_updateWhere (by intro _; rfl) _
    have htextIds : (projectText action.chunkUuid row db).semanticChunkTexts.map
        SemanticChunkText.chunkUuid = db.semanticChunkTexts.map SemanticChunkText.chunkUuid :=
      map_updateWhere (by intro _; rfl) _
    refine ⟨hparagraphs, fun id hne ↦ ?_, fun hkeys ↦ ?_⟩
    · rw [Db.chunkText, Db.textRow, htexts]
      exact congrArg (Option.map _) (lookup_updateWhere_of_ne _ (fun _ hsame ↦ hsame) hne)
    · rw [htexts, hchunks, hids, htextIds]
      exact hkeys

/-- `update_entity` of a chunk writes one chunk. -/
theorem writesChunk_of_updateChunkValues {call : TextCall} {chunkUuid : Uuid} {values : TextValues}
    {db later : Db} (hupdate : updateChunkValues host call chunkUuid values db = .ok later) :
    WritesChunk db later chunkUuid ∧
      (((values.text.or values.body).any fun text ↦ db.chunkText chunkUuid ≠ some text) = false →
        later.chunkText chunkUuid = db.chunkText chunkUuid) := by
  obtain ⟨chunk, hfound⟩ := exists_chunk_of_updateChunkValues hupdate
  have htables := textTables_of_updateChunkValues hfound hupdate
  have hassigned : (assignChunkValues chunkUuid values db).semanticChunks.map
      (fun row ↦ row.id) = db.semanticChunks.map fun row ↦ row.id :=
    map_updateWhere (by intro _; rfl) _
  split at htables
  next hnone =>
    obtain ⟨-, -, hparagraphs, hchunks, htexts⟩ := TextTables.mk.inj htables
    have hrow : ∀ id, later.chunkText id = db.chunkText id := by
      intro id
      rw [Db.chunkText, Db.textRow, htexts]
      rfl
    refine ⟨⟨hparagraphs, fun id _ ↦ hrow id, fun hkeys ↦ ?_⟩, fun _ ↦ hrow chunkUuid⟩
    rw [htexts, hchunks, hassigned]
    exact hkeys
  next text hsome =>
    obtain ⟨-, -, hparagraphs, hchunks, htexts⟩ := TextTables.mk.inj htables
    refine ⟨⟨hparagraphs, fun id hne ↦ ?_, fun hkeys id hid ↦ ?_⟩, fun hsame ↦ ?_⟩
    · rw [Db.chunkText, Db.textRow, htexts]
      exact congrArg (Option.map _) (textRow_storeText_of_ne hne text _ _)
    · have hids : ∀ (blockMeta textMeta : Dict) (assigned : Db),
          (storeText host chunkUuid text blockMeta textMeta assigned).semanticChunks.map
            (fun row ↦ row.id) = assigned.semanticChunks.map fun row ↦ row.id :=
        fun _ _ _ ↦ map_updateWhere (by intro _; rfl) _
      rw [hchunks, hids, hassigned]
      rw [htexts] at hid
      obtain ⟨row, hrow, rfl⟩ := List.mem_map.mp hid
      rcases mem_upsert hrow with rfl | hold
      · exact List.mem_map.mpr ⟨chunk, mem_of_lookup hfound⟩
      · exact hkeys _ (List.mem_map_of_mem hold)
    · obtain ⟨hvalue, hother⟩ := Option.filter_eq_some_iff.mp hsome
      rw [hvalue, Option.any_some] at hsame
      exact absurd hother (hsame ▸ Bool.false_ne_true)

/-- An operation on one chunk keeps the vectors in use fresh when it adds none, and leaves those of
the chunk in use only together with its text. -/
theorem Fresh.of_writesChunk (hfresh : Fresh service embed store) {chunkUuid : Uuid}
    (hwrites : WritesChunk store.toDb next.toDb chunkUuid)
    (hused : ∀ row ∈ next.embeddings, row.active = true → row ∈ store.embeddings ∧
      (row.entity = (.semanticChunk, chunkUuid) → ∀ text,
        store.chunkText chunkUuid = some text → next.chunkText chunkUuid = some text)) :
    Fresh service embed next := by
  refine hfresh.of_subset fun entity _ vector hvector ↦ ?_
  obtain ⟨row, hrow, hactive, hof, hsame⟩ := mem_usedVectors.mp hvector
  obtain ⟨hbefore, hstays⟩ := hused row hrow hactive
  refine ⟨mem_usedVectors.mpr ⟨row, hbefore, hactive, hof, hsame⟩, fun text htext ↦ ?_⟩
  by_cases hentity : entity = (.semanticChunk, chunkUuid)
  · subst hentity
    exact hstays (entity_of_embeddingOf hof) text htext
  · refine (vectorText_congr hwrites.paragraphs fun htype ↦ ?_).trans htext
    exact hwrites.texts entity.2 fun hid ↦ hentity (Prod.ext htype hid)

/-- What is active after an invalidation was active before. -/
theorem mem_of_invalidateDerivedRows {chunkUuid : Uuid} {row : EmbeddingRow ν}
    (hrow : row ∈ (invalidateDerivedRows chunkUuid store).embeddings)
    (hactive : row.active = true) : row ∈ store.embeddings := by
  have hfile := (mem_deactivate_active.mp ⟨hrow, hactive⟩).1
  have hdocument := (mem_deactivate_active.mp ⟨hfile, hactive⟩).1
  have hparagraph := (mem_deactivate_active.mp ⟨hdocument, hactive⟩).1
  exact (mem_deactivate_active.mp ⟨hparagraph, hactive⟩).1

/-- A deactivation leaves the chunks that embeddings name. -/
theorem namesChunk_deactivate {selected : EmbeddingRow ν → Bool}
    {embeddings : List (EmbeddingRow ν)} (hnames : ∀ row ∈ embeddings, row.NamesChunk) :
    ∀ row ∈ deactivate selected embeddings, row.NamesChunk :=
  forall_mem_updateWhere (fun _ hrow ↦ hrow) hnames

theorem fresh_of_version (hkeyed : store.Keyed) (hfresh : Fresh service embed store)
    {action : VersionAction} (happly : action.applyTo host store = .ok next) :
    Fresh service embed next ∧ next.Keyed := by
  obtain ⟨⟨reply, db⟩, hservice, hnext⟩ := bind_eq_ok.mp happly
  have hwrites := writesChunk_of_version hservice
  cases hactivates : action.activates store.toDb reply with
  | true =>
    simp only [hactivates, if_true] at hnext
    cases hnext
    constructor
    · refine hfresh.of_writesChunk hwrites fun row hrow hactive ↦
        ⟨@mem_of_invalidateDerivedRows _ { store with toDb := db } _ _ hrow hactive,
          fun hentity ↦ ?_⟩
      have hinvalidated :=
        invalidated_invalidateDerivedRows action.chunkUuid { store with toDb := db }
      exact absurd (hentity ▸ List.mem_cons_self) (hinvalidated.embeddings row hrow hactive)
    · exact ⟨hwrites.keys hkeyed.texts, namesChunk_deactivate (namesChunk_deactivate
        (namesChunk_deactivate (namesChunk_deactivate hkeyed.embeddings)))⟩
  | false =>
    simp only [hactivates] at hnext
    cases hnext
    have hsame := (leavesAlone_of_apply hservice).texts hactivates
    refine ⟨hfresh.of_writesChunk hwrites fun row hrow _ ↦ ⟨hrow, fun _ text htext ↦ ?_⟩,
      hwrites.keys hkeyed.texts, hkeyed.embeddings⟩
    rw [← htext]
    show db.chunkText action.chunkUuid = store.chunkText action.chunkUuid
    rw [Db.chunkText, Db.chunkText, Db.textRow, Db.textRow, hsame.texts]

/-- An embedding that names a chunk is one of that chunk. -/
theorem VectorDb.Keyed.entity_eq (hkeyed : store.Keyed) {row : EmbeddingRow ν}
    (hrow : row ∈ store.embeddings) {chunkUuid : Uuid} (hnames : row.chunkUuid = some chunkUuid) :
    row.entity = (.semanticChunk, chunkUuid) := by
  have hown := hkeyed.embeddings row hrow
  rw [EmbeddingRow.NamesChunk, hnames] at hown
  split at hown
  next htype => exact Prod.ext htype (Option.some.inj hown).symm
  next => cases hown

/-- The vectors of a chunk are gone when those that name it are deleted. -/
theorem mem_of_deleteEmbeddings (hkeyed : store.Keyed) {chunkUuid : Uuid} {row : EmbeddingRow ν}
    (hrow : row ∈ (deleteEmbeddings chunkUuid store).embeddings) :
    row ∈ store.embeddings ∧ row.entity ≠ (.semanticChunk, chunkUuid) := by
  obtain ⟨hbefore, hother⟩ := mem_deleteWhere.mp hrow
  refine ⟨hbefore, fun hentity ↦ ?_⟩
  have hnames := hkeyed.embeddings row hbefore
  rw [EmbeddingRow.NamesChunk,
    show row.entityType = .semanticChunk from congrArg Prod.fst hentity, if_pos rfl,
    show row.entityId = chunkUuid from congrArg Prod.snd hentity] at hnames
  exact of_decide_eq_false hother hnames

theorem keyed_deleteEmbeddings (hkeyed : store.Keyed) {chunkUuid : Uuid} :
    (deleteEmbeddings chunkUuid store).Keyed :=
  ⟨hkeyed.texts, fun row hrow ↦ hkeyed.embeddings row (mem_of_deleteEmbeddings hkeyed hrow).1⟩

theorem fresh_of_updateChunk (hkeyed : store.Keyed) (hfresh : Fresh service embed store)
    {call : TextCall} {chunkUuid : Uuid} {values : TextValues}
    (hupdate : updateChunk host call chunkUuid values store = .ok next) :
    Fresh service embed next ∧ next.Keyed := by
  obtain ⟨db, hupdate, hnext⟩ := bind_eq_ok.mp hupdate
  obtain ⟨hwrites, hsame⟩ := writesChunk_of_updateChunkValues hupdate
  cases hreplaced : ((values.text.or values.body).any fun textValue ↦
      store.chunkText chunkUuid ≠ some textValue) with
  | true =>
    simp only [hreplaced, if_true] at hnext
    cases hnext
    have hmiddle : VectorDb.Keyed { store with toDb := db } :=
      ⟨hwrites.keys hkeyed.texts, hkeyed.embeddings⟩
    refine ⟨hfresh.of_writesChunk hwrites fun row hrow _ ↦ ?_, keyed_deleteEmbeddings hmiddle⟩
    obtain ⟨hbefore, hother⟩ := mem_of_deleteEmbeddings hmiddle hrow
    exact ⟨hbefore, fun hentity ↦ absurd hentity hother⟩
  | false =>
    simp only [hreplaced] at hnext
    cases hnext
    exact ⟨hfresh.of_writesChunk hwrites fun row hrow _ ↦
        ⟨hrow, fun _ text htext ↦ (hsame hreplaced).trans htext⟩,
      hwrites.keys hkeyed.texts, hkeyed.embeddings⟩

/-! ### Paragraphs -/

/-- An update of a paragraph writes the text of this paragraph alone. -/
theorem paragraphText_of_updateParagraphValues {paragraphId : Uuid} {values : TextValues}
    {db later : Db} (hupdate : updateParagraphValues paragraphId values db = .ok later) :
    later.semanticChunks = db.semanticChunks ∧
      later.semanticChunkTexts = db.semanticChunkTexts ∧
      (∃ text, db.paragraphText paragraphId = some text) ∧
      ∀ id, later.paragraphText id = (db.paragraphText id).map fun text ↦
        if id = paragraphId then values.text.getD text else text := by
  obtain ⟨-, hupdate⟩ := raiseIf_bind_eq_ok.mp hupdate
  obtain ⟨-, hupdate⟩ := raiseIf_bind_eq_ok.mp hupdate
  obtain ⟨-, -, hupdate⟩ := bind_eq_ok.mp hupdate
  obtain ⟨hthere, hupdate⟩ := raiseIf_bind_eq_ok.mp hupdate
  cases hupdate
  refine ⟨rfl, rfl, ?_, fun id ↦ ?_⟩
  · cases hfound : lookup (fun row : ParagraphRow ↦ row.id) paragraphId db.paragraphs with
    | none =>
      rw [hasKey_eq_false.mpr (lookup_eq_none.mp hfound)] at hthere
      cases hthere
    | some row => exact ⟨row.text, congrArg (Option.map _) hfound⟩
  · show (lookup (fun row : ParagraphRow ↦ row.id) id (updateWhere
      (fun row ↦ row.id = paragraphId) values.assignParagraph db.paragraphs)).map
        (fun row ↦ row.text) = _
    rw [lookup_updateWhere (by intro _; rfl), Option.map_map, Db.paragraphText, Option.map_map]
    refine Option.map_congr fun row hrow ↦ ?_
    have hid : row.id = id := (mem_of_lookup hrow).2
    simp only [Function.comp_apply, decide_eq_true_eq, hid]
    split <;> rfl

/-- An update of a paragraph keeps the vectors in use fresh exactly when those of the paragraph are
already the ones of its new text. -/
theorem fresh_updateParagraph_iff (hkeyed : store.Keyed) (hfresh : Fresh service embed store)
    {paragraphId : Uuid} {values : TextValues}
    (hupdate : updateParagraph paragraphId values store = .ok next) :
    next.Keyed ∧ (Fresh service embed next ↔ ∀ text ∈ values.text,
      ∀ vector ∈ usedVectors service.config store.embeddings (.paragraph, paragraphId),
        vector = service.vectorFor embed text) := by
  obtain ⟨db, hvalues, hnext⟩ := bind_eq_ok.mp hupdate
  cases hnext
  obtain ⟨hchunks, htexts, ⟨old, hold⟩, hspelled⟩ := paragraphText_of_updateParagraphValues hvalues
  have hkept : VectorDb.Keyed { store with toDb := db } := by
    refine ⟨?_, hkeyed.embeddings⟩
    rw [hchunks, htexts]
    exact hkeyed.texts
  have hself : db.paragraphText paragraphId = some (values.text.getD old) := by
    rw [hspelled, hold, Option.map_some, if_pos rfl]
  refine ⟨hkept, fun hnext text htext vector hused ↦ ?_,
    fun hkeeps entity hasText vector hused ↦ ?_⟩
  · rw [Option.mem_def.mp htext, Option.getD_some] at hself
    exact @Fresh.vector_eq _ _ _ _ hnext (.paragraph, paragraphId) rfl text hself _ hused
  · by_cases hentity : entity = (.paragraph, paragraphId)
    · subst hentity
      refine (congrArg (Option.map _) hself).trans ?_
      cases hvalue : values.text with
      | none => exact (congrArg (Option.map _) hold).symm.trans (hfresh _ hasText vector hused)
      | some text =>
        rw [hkeeps text hvalue vector hused]
        rfl
    · have hsame : db.vectorText entity = store.vectorText entity := by
        obtain ⟨entityType, id⟩ := entity
        cases entityType with
        | semanticChunk =>
          show db.chunkText id = store.chunkText id
          rw [Db.chunkText, Db.chunkText, Db.textRow, Db.textRow, htexts]
        | paragraph =>
          have hid : id ≠ paragraphId := fun hid ↦ hentity (congrArg _ hid)
          show db.paragraphText id = store.paragraphText id
          rw [hspelled]
          simp only [hid, if_false, Option.map_id']
        | document => rfl
        | file => rfl
      exact (congrArg (Option.map _) hsame).trans (hfresh entity hasText vector hused)

/-! ### The chunk repository -/

theorem tables_of_upsertRoot {root : RootRow} {db rooted : Db}
    (hroot : upsertRoot root db = .ok rooted) :
    rooted.paragraphs = db.paragraphs ∧ rooted.semanticChunkTexts = db.semanticChunkTexts ∧
      root.id ∈ rooted.semanticChunks.map (fun row ↦ row.id) ∧
      ∀ id ∈ db.semanticChunks.map fun row ↦ row.id,
        id ∈ rooted.semanticChunks.map fun row ↦ row.id := by
  unfold upsertRoot at hroot
  split at hroot
  next hthere =>
    obtain ⟨-, hroot⟩ := raiseIf_bind_eq_ok.mp hroot
    obtain ⟨-, hroot⟩ := raiseIf_bind_eq_ok.mp hroot
    cases hroot
    have hids : (updateWhere (fun row : SemanticChunkRow ↦ row.id = root.id) root.assign
        db.semanticChunks).map (fun row ↦ row.id) = db.semanticChunks.map fun row ↦ row.id :=
      map_updateWhere (by intro _; rfl) _
    obtain ⟨row, hrow, hid⟩ := hasKey_eq_true.mp hthere
    refine ⟨rfl, rfl, ?_, fun id hmem ↦ ?_⟩
    · rw [hids]
      exact List.mem_map.mpr ⟨row, hrow, hid⟩
    · rw [hids]
      exact hmem
  next =>
    obtain ⟨-, -, -, rfl⟩ := Db.insertSemanticChunk_eq_ok.mp hroot
    refine ⟨rfl, rfl, ?_, fun id hmem ↦ ?_⟩
    · rw [List.map_append]
      exact List.mem_append_right _ List.mem_cons_self
    · rw [List.map_append]
      exact List.mem_append_left _ hmem

/-- The chunk repository writes one chunk, which then says what it was given. -/
theorem writesChunk_of_upsertChunk {root : RootRow} {db later : Db}
    (hupsert : upsertChunk host root db = .ok later) :
    WritesChunk db later root.id ∧ later.chunkText root.id = some root.text := by
  obtain ⟨rooted, hroot, hlater⟩ := bind_eq_ok.mp hupsert
  cases hlater
  set written := if rootTextChanged root db then root.reset else root with hwritten
  have hid : written.id = root.id := by
    rw [hwritten]
    split <;> rfl
  have htext : written.text = root.text := by
    rw [hwritten]
    split <;> rfl
  obtain ⟨hparagraphs, htexts, hthere, hids⟩ := tables_of_upsertRoot hroot
  let row : SemanticChunkText :=
    { chunkUuid := written.id
      text := written.text
      textSha256 := host.hexdigest written.text
      charCount := written.text.length
      blockMeta := written.blockMeta }
  rw [← hid, ← htext]
  refine ⟨⟨hparagraphs, fun id hne ↦ ?_, fun hkeys id hmem ↦ ?_⟩, ?_⟩
  · refine congrArg (Option.map SemanticChunkText.text)
      ((@lookup_upsert_of_ne _ _ _ SemanticChunkText.chunkUuid row id hne _).trans ?_)
    rw [htexts]
    rfl
  · obtain ⟨other, hother, rfl⟩ := List.mem_map.mp hmem
    rcases @mem_upsert _ _ _ SemanticChunkText.chunkUuid row other _ hother with rfl | hold
    · exact hthere
    · rw [htexts] at hold
      exact hids _ (hkeys _ (List.mem_map_of_mem hold))
  · exact congrArg (Option.map SemanticChunkText.text)
      (@lookup_upsert_self _ _ _ SemanticChunkText.chunkUuid row _)

/-- A text row that the chunk repository does not call changed says what it is given. -/
theorem text_of_not_rootTextChanged (hkeyed : store.Keyed) {root : RootRow} {text : Text}
    (hsame : rootTextChanged root store.toDb = false)
    (htext : store.chunkText root.id = some text) : root.text = text := by
  obtain ⟨row, hrow, -⟩ := Option.map_eq_some_iff.mp htext
  obtain ⟨hmem, hid⟩ := mem_of_lookup hrow
  obtain ⟨chunk, hchunk, hchunkId⟩ :=
    List.mem_map.mp (hkeyed.texts root.id (List.mem_map.mpr ⟨row, hmem, hid⟩))
  cases hfound : lookup (fun row : SemanticChunkRow ↦ row.id) root.id store.semanticChunks with
  | none => exact absurd hchunkId (lookup_eq_none.mp hfound chunk hchunk)
  | some found =>
    rw [rootTextChanged, Db.storedText, hfound, Option.map_some, Option.any_some, htext,
      Option.getD_some, decide_eq_false_iff_not, not_not] at hsame
    exact hsame.symm

section Embedding

variable {chunkUuid : Uuid} {payload : EmbeddingPayload ν}

theorem sameModel_eq_true {row : EmbeddingRow ν} : payload.sameModel chunkUuid row = true ↔
    row.chunkUuid = some chunkUuid ∧ row.model = payload.model ∧
      row.dimension = payload.dimension := by
  simp only [EmbeddingPayload.sameModel, Bool.and_eq_true, decide_eq_true_eq, and_assoc]

theorem toDb_of_upsertEmbedding (hupsert : upsertEmbedding chunkUuid payload store = .ok next) :
    next.toDb = store.toDb := by
  obtain ⟨-, hnext⟩ := raiseIf_bind_eq_ok.mp hupsert
  cases hnext
  rfl

theorem keyed_of_upsertEmbedding (hkeyed : store.Keyed)
    (hupsert : upsertEmbedding chunkUuid payload store = .ok next) : next.Keyed := by
  obtain ⟨-, hnext⟩ := raiseIf_bind_eq_ok.mp hupsert
  cases hnext
  refine ⟨hkeyed.texts, forall_mem_updateWhere (fun _ hrow ↦ hrow) ?_⟩
  split
  · exact namesChunk_deactivate hkeyed.embeddings
  · exact hkeyed.embeddings

/-- What is in use after an upsert of an embedding was in use before, or is what came with it. -/
theorem mem_of_upsertEmbedding (hupsert : upsertEmbedding chunkUuid payload store = .ok next)
    {row : EmbeddingRow ν} (hrow : row ∈ next.embeddings) (hactive : row.active = true) :
    row ∈ store.embeddings ∨
      payload.active = true ∧ row.vector = payload.vector ∧
        payload.sameModel chunkUuid row = true := by
  obtain ⟨-, hnext⟩ := raiseIf_bind_eq_ok.mp hupsert
  cases hnext
  obtain ⟨old, hold, rfl⟩ := mem_updateWhere.mp hrow
  split at hactive
  next hexisting =>
    rw [if_pos hexisting]
    simp only [Bool.and_eq_true] at hexisting
    exact .inr ⟨hactive, rfl, hexisting.1.1⟩
  next hnot =>
    rw [if_neg hnot]
    split at hold
    · exact .inl (mem_deactivate_active.mp ⟨hold, hactive⟩).1
    · exact .inl hold

/-- An embedding that comes as an active one is in use afterwards. -/
theorem exists_of_upsertEmbedding (hupsert : upsertEmbedding chunkUuid payload store = .ok next)
    (hactive : payload.active = true) : ∃ row ∈ next.embeddings, row.active = true ∧
      row.vector = payload.vector ∧ payload.sameModel chunkUuid row = true := by
  obtain ⟨hexists, hnext⟩ := raiseIf_bind_eq_ok.mp hupsert
  cases hnext
  rw [Bool.not_eq_false'] at hexists
  obtain ⟨old, hold, hexisting⟩ := List.any_eq_true.mp hexists
  refine ⟨_, mem_updateWhere.mpr ⟨old, hold, rfl⟩, ?_⟩
  rw [if_pos hexisting]
  simp only [Bool.and_eq_true] at hexisting
  exact ⟨hactive, rfl, hexisting.1.1⟩

/-- An upsert of an embedding keeps the vectors in use fresh exactly when what comes for the
configured model is the vector of the text. -/
theorem fresh_upsertEmbedding_iff (hkeyed : store.Keyed) (hfresh : Fresh service embed store)
    {text : Text} (htext : store.chunkText chunkUuid = some text)
    (hupsert : upsertEmbedding chunkUuid payload store = .ok next) :
    next.Keyed ∧ (Fresh service embed next ↔ (payload.active = true →
      payload.model = service.config.model → payload.dimension = service.config.dimension →
        payload.vector = service.vectorFor embed text)) := by
  have hkept := keyed_of_upsertEmbedding hkeyed hupsert
  have hdb := toDb_of_upsertEmbedding hupsert
  refine ⟨hkept, fun hnext hactive hmodel hdimension ↦ ?_,
    fun hkeeps entity hasText vector hused ↦ ?_⟩
  · obtain ⟨row, hrow, hrowActive, hvector, hsame⟩ := exists_of_upsertEmbedding hupsert hactive
    obtain ⟨hnames, hrowModel, hrowDimension⟩ := sameModel_eq_true.mp hsame
    have hof : embeddingOf service.config (.semanticChunk, chunkUuid) row = true := by
      simp [embeddingOf, hkept.entity_eq hrow hnames, hrowModel, hrowDimension, hmodel, hdimension]
    have hstored : next.vectorText (.semanticChunk, chunkUuid) = some text := by
      rw [hdb]
      exact htext
    exact hnext.vector_eq rfl hstored
      (mem_usedVectors.mpr ⟨row, hrow, hrowActive, hof, hvector⟩)
  · obtain ⟨row, hrow, hactive, hof, rfl⟩ := mem_usedVectors.mp hused
    rw [hdb]
    rcases mem_of_upsertEmbedding hupsert hrow hactive with hold | ⟨hpayload, hvector, hsame⟩
    · exact hfresh entity hasText _ (mem_usedVectors.mpr ⟨row, hold, hactive, hof, rfl⟩)
    · obtain ⟨hnames, hmodel, hdimension⟩ := sameModel_eq_true.mp hsame
      obtain rfl := (hkept.entity_eq hrow hnames).symm.trans (entity_of_embeddingOf hof)
      simp only [embeddingOf, Bool.and_eq_true, decide_eq_true_eq] at hof
      rw [hvector, hkeeps hpayload (hmodel.symm.trans hof.1.2) (hdimension.symm.trans hof.2)]
      exact congrArg (Option.map _) htext

end Embedding

/-- The chunk repository takes the vectors of a text that changes out of use. When the text stays,
it keeps the vectors in use fresh exactly when what comes with the text is the vector of it. -/
theorem fresh_upsert_iff (hkeyed : store.Keyed) (hfresh : Fresh service embed store)
    {root : RootRow} {embedding : Option (EmbeddingPayload ν)}
    (hupsert : upsertAggregate host root embedding store = .ok next) :
    next.Keyed ∧ (Fresh service embed next ↔ ∀ payload ∈ embedding,
      rootTextChanged root store.toDb = false → payload.active = true →
        payload.model = service.config.model → payload.dimension = service.config.dimension →
          payload.vector = service.vectorFor embed root.text) := by
  obtain ⟨db, hchunk, hnext⟩ := bind_eq_ok.mp hupsert
  obtain ⟨hwrites, hstored⟩ := writesChunk_of_upsertChunk hchunk
  have hmiddle : VectorDb.Keyed { store with toDb := db } :=
    ⟨hwrites.keys hkeyed.texts, hkeyed.embeddings⟩
  cases hchanged : rootTextChanged root store.toDb with
  | true =>
    simp only [hchanged, if_true] at hnext
    cases hnext
    refine ⟨keyed_deleteEmbeddings hmiddle, iff_of_true
      (hfresh.of_writesChunk hwrites fun row hrow _ ↦ ?_) fun _ _ hsame ↦ by cases hsame⟩
    obtain ⟨hbefore, hother⟩ := mem_of_deleteEmbeddings hmiddle hrow
    exact ⟨hbefore, fun hentity ↦ absurd hentity hother⟩
  | false =>
    simp only [hchanged] at hnext
    have hbetween : Fresh service embed { store with toDb := db } :=
      hfresh.of_writesChunk hwrites fun row hrow _ ↦ ⟨hrow, fun _ text htext ↦
        hstored.trans (congrArg some (text_of_not_rootTextChanged hkeyed hchanged htext))⟩
    cases embedding with
    | none =>
      cases hnext
      exact ⟨hmiddle, iff_of_true hbetween fun _ hpayload ↦ by cases hpayload⟩
    | some payload =>
      obtain ⟨hkept, hiff⟩ := fresh_upsertEmbedding_iff hmiddle hbetween hstored hnext
      refine ⟨hkept, hiff.trans ⟨fun hsame other hother _ ↦ ?_, fun hall ↦ hall payload rfl rfl⟩⟩
      obtain rfl := Option.some.inj hother
      exact hsame

end Editing

/-! ### Any order of events -/

section Runs

variable {host : Host} {service : VectorizationService ν} {embed : Text → Vector}

theorem namesChunk_foldl (records : List ChunkVectorRecord) {store : VectorizationDb ν}
    (hnames : ∀ row ∈ store.embeddings, row.NamesChunk) :
    ∀ row ∈ (records.foldl (storeVector service) store).embeddings, row.NamesChunk := by
  induction records generalizing store with
  | nil => exact hnames
  | cons record records ih =>
    refine ih ?_
    rw [storeVector_embeddings, upsert]
    split
    · exact forall_mem_updateWhere (fun _ hrow ↦ hrow) (namesChunk_deactivate hnames)
    · intro row hrow
      rcases List.mem_append.mp hrow with hold | hnew
      · exact namesChunk_deactivate hnames row hold
      · obtain rfl := List.mem_singleton.mp hnew
        rfl

theorem keyed_of_persist {store written : VectorizationDb ν} (hkeyed : store.toVectorDb.Keyed)
    {now : Instant} {documents : List Uuid} {vectors : List ChunkVectorRecord}
    (hpersist : persistVectors service now documents vectors store = .ok written) :
    written.toVectorDb.Keyed := by
  obtain ⟨aggregated, -, hwritten⟩ := bind_eq_ok.mp hpersist
  refine ⟨?_, ?_⟩
  · rw [persistVectors_toDb hpersist]
    exact hkeyed.texts
  · cases hwritten
    exact namesChunk_foldl (vectors ++ aggregated) hkeyed.embeddings

/-- One event keeps the vectors in use fresh exactly when `KeepsFresh` says so. -/
theorem fresh_step_iff (hembeds : service.Embeds embed) {work next : VectorWork service}
    (hkeyed : work.store.toVectorDb.Keyed) (hfresh : Fresh service embed work.store.toVectorDb)
    {event : VectorEvent ν} (hstep : vectorStep host work event = some next) :
    next.store.toVectorDb.Keyed ∧
      (Fresh service embed next.store.toVectorDb ↔ KeepsFresh embed work event) := by
  cases event with
  | edit operation =>
    obtain ⟨edited, hedit, rfl⟩ := Option.map_eq_some_iff.mp hstep
    have happly := toOption_eq_some.mp hedit
    cases operation with
    | version action =>
      obtain ⟨hnext, hkept⟩ := fresh_of_version hkeyed hfresh happly
      exact ⟨hkept, iff_of_true hnext trivial⟩
    | updateChunk call chunkUuid values =>
      obtain ⟨hnext, hkept⟩ := fresh_of_updateChunk hkeyed hfresh happly
      exact ⟨hkept, iff_of_true hnext trivial⟩
    | updateParagraph paragraphId values => exact fresh_updateParagraph_iff hkeyed hfresh happly
    | upsert root embedding => exact fresh_upsert_iff hkeyed hfresh happly
  | read turn documents calls =>
    obtain ⟨opened, -, rfl⟩ := Option.map_eq_some_iff.mp hstep
    exact ⟨hkeyed, iff_of_true hfresh trivial⟩
  | store turn now =>
    obtain ⟨opened, hopened, hstep⟩ := Option.bind_eq_some_iff.mp hstep
    obtain ⟨written, hstored, rfl⟩ := Option.map_eq_some_iff.mp hstep
    have hpersist := toOption_eq_some.mp hstored
    refine ⟨keyed_of_persist hkeyed hpersist, (fresh_persist_iff hembeds hfresh hpersist).trans
      ⟨fun hcurrent other hother ↦ ?_, fun hkeeps ↦ hkeeps opened hopened⟩⟩
    obtain rfl := Option.some.inj (hopened.symm.trans hother)
    exact hcurrent

/-- **Vectors and edits in any order.** As long as every event keeps them so, the vectors in use of
chunks and paragraphs are those of the current texts; and whatever happens next, they stay so
exactly when it keeps them. -/
theorem fresh_of_interleaving (hembeds : service.Embeds embed) {initial final : VectorWork service}
    (hkeyed : initial.store.toVectorDb.Keyed)
    (hfresh : Fresh service embed initial.store.toVectorDb)
    (hrun : Steps (vectorStep host) (KeepsFresh embed) initial final) :
    Fresh service embed final.store.toVectorDb ∧
      ∀ event next, vectorStep host final event = some next →
        (Fresh service embed next.store.toVectorDb ↔ KeepsFresh embed final event) := by
  obtain ⟨hkept, hstill⟩ : final.store.toVectorDb.Keyed ∧
      Fresh service embed final.store.toVectorDb := by
    refine @Steps.invariant _ _ _ _ initial final hrun (fun work ↦ work.store.toVectorDb.Keyed ∧
      Fresh service embed work.store.toVectorDb) ⟨hkeyed, hfresh⟩ ?_
    rintro work event next ⟨hkeyed, hfresh⟩ hkeeps hstep
    obtain ⟨hnext, hiff⟩ := fresh_step_iff hembeds hkeyed hfresh hstep
    exact ⟨hnext, hiff.mpr hkeeps⟩
  exact ⟨hstill, fun _ _ hstep ↦ (fresh_step_iff hembeds hkept hstill hstep).2⟩

end Runs

/-! ### A text that changes during a turn -/

instance [DecidableEq ν] {service : VectorizationService ν} (opened : OpenTurn service)
    (embed : Text → Vector) (db : Db) : Decidable (opened.Current embed db) :=
  inferInstanceAs (Decidable (∀ input ∈ opened.inputs, input.entityType.hasText = true →
    (db.vectorText input.entity).map (service.vectorFor embed) =
      (opened.readText input.entity).map (service.vectorFor embed)))

/-- A chunk in a document, without vectors. -/
def unembeddedChunk : VectorWork sampleVectorizer where
  store :=
    { toDb := embeddedChunk.toDb
      documentCreatedAt := fun _ ↦ 0
      documentUpdatedAt := fun _ ↦ none }

/-- A turn reads the text of the chunk, which then gets a longer one. -/
def editedDuringTurn : List (VectorEvent Vector) :=
  [.read 0 [2] 0, .edit (.version { chunkUuid := 1, call := { now := 1, versionId := 12 }
                                    operation := .appendVersion (lit "bb") none })]

/-- The vector that the sample vectorizer gets for a text. -/
def lengthVector (text : Text) : Vector := [(text.length : ℚ)]

/-- The vectors in use are fresh up to the edit. The turn then stores a vector of the text that is
no longer there. -/
theorem not_fresh_editedDuringTurn : ∃ final next : VectorWork sampleVectorizer,
    replay (vectorStep sampleHost) unembeddedChunk editedDuringTurn = some final ∧
      vectorStep sampleHost final (.store 0 2) = some next ∧
      Fresh sampleVectorizer lengthVector final.store.toVectorDb ∧
      ¬Fresh sampleVectorizer lengthVector next.store.toVectorDb := by
  have hpossible : ((replay (vectorStep sampleHost) unembeddedChunk editedDuringTurn).any
      fun final ↦ (vectorStep sampleHost final (.store 0 2)).isSome && (final.turns 0).any
        fun opened ↦ !decide (opened.Current lengthVector final.store.toDb)) = true := by
    decide +kernel
  obtain ⟨final, hfinal, hstale⟩ := (Option.any_eq_true _ _).mp hpossible
  rw [Bool.and_eq_true] at hstale
  obtain ⟨next, hnext⟩ := Option.isSome_iff_exists.mp hstale.1
  obtain ⟨opened, hopened, hother⟩ := (Option.any_eq_true _ _).mp hstale.2
  have hrun : Steps (vectorStep sampleHost) (KeepsFresh lengthVector) unembeddedChunk final := by
    refine steps_of_replay_of_forall (fun event hevent work ↦ ?_) hfinal
    rcases List.mem_pair.mp hevent with rfl | rfl
    · exact trivial
    · exact trivial
  have hkeyed : unembeddedChunk.store.toVectorDb.Keyed :=
    ⟨fun _ hid ↦ hid, fun _ hrow ↦ absurd hrow List.not_mem_nil⟩
  have hfresh : Fresh sampleVectorizer lengthVector unembeddedChunk.store.toVectorDb :=
    fun _ _ _ hused ↦ absurd hused List.not_mem_nil
  obtain ⟨hstill, hevents⟩ :=
    @fresh_of_interleaving _ _ _ lengthVector embeds_sampleVectorizer _ _ hkeyed hfresh hrun
  refine ⟨final, next, hfinal, hnext, hstill, fun hkept ↦ ?_⟩
  have hcurrent := (hevents (.store 0 2) next hnext).mp hkept opened hopened
  rw [decide_eq_true hcurrent] at hother
  cases hother

end DocStore
