import DocStore.Query.SemanticWindows

/-!
# Hierarchical refinement

With refinement enabled, a semantic search leaves its plan aside. It looks for the vectors closest to
the query at all four levels at once, replaces a paragraph, a document or a file by what is close
below it, and keeps the best of all that was offered in a window. The threshold and the two limits
are those of the refinement.

`refined_results` says what comes out: at most as many items as the window holds, each one once, and
every one a row of its level that is not deleted, found through a vector in use and at least as close
as the threshold. They need not be chunks, and nothing asks for the filters of the plan
(`not_honoursPlan_refined`).
-/

set_option autoImplicit false
set_option relaxedAutoImplicit false

namespace DocStore

open Foundation

variable {ν : Type}

/-! ### Options -/

/-- What `_semantic_refinement_options` lets through. A threshold that is not a number passes the
comparisons of `_bounded_float`; it is `⊤`. -/
structure RefinementOptions where
  threshold : Similarity
  candidateLimit : ℕ
  resultLimit : ℕ
  diagnostics : Bool := false
  threshold_bounds : threshold = ⊤ ∨ 0 ≤ threshold ∧ threshold ≤ 1
  candidateLimit_bounds : 1 ≤ candidateLimit ∧ candidateLimit ≤ 1000
  resultLimit_bounds : 1 ≤ resultLimit ∧ resultLimit ≤ 1000

/-! ### Candidates -/

/-- The place of a level in the alphabet: `document`, `file`, `paragraph`, `semantic_chunk`. -/
def VectorEntity.levelRank : VectorEntity → ℕ
  | document => 0
  | file => 1
  | paragraph => 2
  | semanticChunk => 3

/-- A candidate, `_candidate_from_row`, with the path that was taken to refine it. -/
structure Candidate where
  level : VectorEntity
  id : Uuid
  documentId : Option Uuid
  fileId : Option Uuid
  paragraphId : Option Uuid := none
  chunkId : Option Uuid := none
  preview : Text
  score : Similarity
  refinementPath : List (VectorEntity × Uuid) := []

/-- `key`. -/
def Candidate.key (candidate : Candidate) : VectorEntity × Uuid := (candidate.level, candidate.id)

/-- `children or [candidate]`. -/
def Candidate.orChildren (candidate : Candidate) (children : List Candidate) : List Candidate :=
  if children.isEmpty then [candidate] else children

/-- `_parent_path`. -/
def Candidate.parentPath (candidate : Candidate) : List (VectorEntity × Uuid) :=
  (candidate.fileId.map (Prod.mk .file)).toList ++
    (candidate.documentId.map (Prod.mk .document)).toList ++
    (candidate.paragraphId.map (Prod.mk .paragraph)).toList ++
    (candidate.chunkId.map (Prod.mk .semanticChunk)).toList

/-- The width of a preview. -/
def previewWidth : ℕ := 240

/-- The vectors in use at a level under a model and a dimension. -/
def SearchDb.levelVectors (store : SearchDb ν) (model : Text) (dimension : ℕ)
    (level : VectorEntity) : List (EmbeddingRow ν) :=
  store.embeddings.filter fun embedding ↦
    embedding.entityType = level && embedding.active && embedding.model = model &&
      embedding.dimension = dimension

section Levels

variable (host : VectorHost ν) (store : SearchDb ν) (wanted : ν)

/-- The chunk of a vector, which has to be that of its current version. -/
def chunkCandidate (embedding : EmbeddingRow ν) : Option Candidate := do
  let chunk ← (lookup (fun row : SemanticChunkRow ↦ row.id) embedding.entityId
    store.semanticChunks).filter fun chunk ↦ chunk.deletedAt.isNone
  let _ ← (lookup SemanticChunkCurrent.chunkUuid chunk.id store.semanticChunkCurrent).filter
    fun current ↦ embedding.chunkVersionId = some current.versionId
  let payload ← lookup SemanticChunkText.chunkUuid chunk.id store.semanticChunkTexts
  let document ← lookup (fun row : DocumentRow ↦ row.id) chunk.documentId store.documents
  return { level := .semanticChunk
           id := chunk.id
           documentId := some chunk.documentId
           fileId := document.ownerId
           paragraphId := some chunk.paragraphId
           chunkId := some chunk.id
           preview := payload.text.take previewWidth
           score := host.similarity embedding.vector wanted }

/-- The paragraph of a vector. -/
def paragraphCandidate (embedding : EmbeddingRow ν) : Option Candidate := do
  let paragraph ← (lookup (fun row : ParagraphRow ↦ row.id) embedding.entityId
    store.paragraphs).filter fun paragraph ↦ paragraph.deletedAt.isNone
  let document ← lookup (fun row : DocumentRow ↦ row.id) paragraph.documentId store.documents
  return { level := .paragraph
           id := paragraph.id
           documentId := some paragraph.documentId
           fileId := document.ownerId
           paragraphId := some paragraph.id
           preview := paragraph.text.take previewWidth
           score := host.similarity embedding.vector wanted }

/-- The document of a vector. -/
def documentCandidate (embedding : EmbeddingRow ν) : Option Candidate := do
  let document ← (lookup (fun row : DocumentRow ↦ row.id) embedding.entityId
    store.documents).filter fun document ↦ document.deletedAt.isNone
  return { level := .document
           id := document.id
           documentId := some document.id
           fileId := document.ownerId
           preview := (store.documentTitle document.id).take previewWidth
           score := host.similarity embedding.vector wanted }

/-- The document that stands for a file: the oldest live one that it owns. -/
def firstDocument (fileId : Uuid) : Option Uuid :=
  ((store.documents.filter fun document ↦
      document.ownerId = some fileId && document.deletedAt.isNone).insertionSort
    fun first second ↦ toLex (store.documentCreatedAt first.id, first.id.toNat) ≤
      toLex (store.documentCreatedAt second.id, second.id.toNat)).head?.map fun document ↦
        document.id

/-- The file of a vector. -/
def fileCandidate (embedding : EmbeddingRow ν) : Option Candidate := do
  let file ← (lookup (fun row : FileRow ↦ row.id) embedding.entityId store.files).filter
    fun file ↦ file.deletedAt.isNone
  return { level := .file
           id := file.id
           documentId := firstDocument store file.id
           fileId := some file.id
           preview := file.name.take previewWidth
           score := host.similarity embedding.vector wanted }

/-- The candidate of a vector, at its level. -/
def candidateOf (embedding : EmbeddingRow ν) : Option Candidate :=
  match embedding.entityType with
  | .semanticChunk => chunkCandidate host store wanted embedding
  | .paragraph => paragraphCandidate host store wanted embedding
  | .document => documentCandidate host store wanted embedding
  | .file => fileCandidate host store wanted embedding

/-- The candidates at some levels that reach a threshold. -/
def candidatesAt (model : Text) (dimension : ℕ) (threshold : Similarity)
    (levels : List VectorEntity) : List Candidate :=
  (levels.flatMap fun level ↦ (store.levelVectors model dimension level).filterMap
    (candidateOf host store wanted)).filter fun candidate ↦ threshold ≤ candidate.score

end Levels

/-! ### The queries -/

/-- `score DESC, level ASC, id ASC`. -/
def primaryKey (candidate : Candidate) : Similarityᵒᵈ ×ₗ (ℕ ×ₗ ℕ) :=
  toLex (OrderDual.toDual candidate.score,
    toLex (candidate.level.levelRank, candidate.id.toNat))

/-- `score DESC, CASE level WHEN 'semantic_chunk' THEN 0 ELSE 1 END, id ASC`. -/
def childKey (candidate : Candidate) : Similarityᵒᵈ ×ₗ (ℕ ×ₗ ℕ) :=
  toLex (OrderDual.toDual candidate.score,
    toLex (if candidate.level = .semanticChunk then 0 else 1, candidate.id.toNat))

/-- The scope of the children of a candidate. -/
structure ChildScope where
  documentId : Option Uuid := none
  fileId : Option Uuid := none
  paragraphId : Option Uuid := none

/-- Whether a candidate is in a scope. -/
def ChildScope.covers (scope : ChildScope) (candidate : Candidate) : Bool :=
  (scope.documentId.all fun id ↦ candidate.documentId = some id) &&
    (scope.fileId.all fun id ↦ candidate.fileId = some id) &&
    (scope.paragraphId.all fun id ↦ candidate.paragraphId = some id)

/-- The searcher of a refinement: the surroundings, the configuration, the store, the vector and the
options. -/
structure Refinement (ν : Type) where
  host : VectorHost ν
  executor : SemanticExecutor
  store : SearchDb ν
  wanted : ν
  options : RefinementOptions

namespace Refinement

variable (search : Refinement ν)

/-- The candidates at some levels. -/
def candidates (levels : List VectorEntity) : List Candidate :=
  candidatesAt search.host search.store search.wanted search.executor.model
    search.executor.dimension search.options.threshold levels

/-- `_hierarchical_primary_candidates`. -/
def primary : List Candidate :=
  (ranked primaryKey (search.candidates [.semanticChunk, .paragraph, .document, .file])).take
    search.options.candidateLimit

/-- `_hierarchical_children`. -/
def children (scope : ChildScope) : List Candidate :=
  (ranked childKey ((search.candidates [.semanticChunk, .paragraph]).filter scope.covers)).take
    search.options.resultLimit

/-- The closest of the rows at a level that are selected. Of several equally close ones PostgreSQL
returns any. -/
def closest (level : VectorEntity) (selected : Uuid → Bool) : Option Uuid :=
  (ranked (fun embedding ↦ OrderDual.toDual
      (search.host.similarity embedding.vector search.wanted))
    ((search.store.levelVectors search.executor.model search.executor.dimension level).filter
      fun embedding ↦ selected embedding.entityId)).head?.map EmbeddingRow.entityId

/-- `_closest_file_for_document`. -/
def closestFile (documentId : Uuid) : Option Uuid :=
  search.closest .file fun fileId ↦
    search.store.documents.any fun document ↦
      document.id = documentId && document.deletedAt.isNone &&
        search.store.files.any fun file ↦
          file.id = fileId && file.deletedAt.isNone &&
            (document.ownerId = some file.id || file.ownerId = some document.id)

/-- `_closest_document_for_file`. -/
def closestDocument (fileId : Uuid) : Option Uuid :=
  search.closest .document fun documentId ↦
    search.store.documents.any fun document ↦
      document.id = documentId && document.deletedAt.isNone && document.ownerId = some fileId

/-- `_refine_document_candidate`. -/
def refineDocument (documentId : Uuid) : List Candidate × List (VectorEntity × Uuid) :=
  let fileId := search.closestFile documentId
  (search.children { documentId := some documentId, fileId },
    (.document, documentId) :: (fileId.map (Prod.mk .file)).toList)

/-- `_refine_file_candidate`. -/
def refineFile (fileId : Uuid) : List Candidate × List (VectorEntity × Uuid) :=
  let documentId := search.closestDocument fileId
  (search.children { documentId, fileId := some fileId },
    (.file, fileId) :: (documentId.map (Prod.mk .document)).toList)

end Refinement

/-! ### The window -/

/-- Offers an item: it is taken when its key is new or its score higher. -/
def offer (byKey : List ((VectorEntity × Uuid) × Candidate)) (item : Candidate) :
    List ((VectorEntity × Uuid) × Candidate) :=
  match getKey byKey item.key with
  | none => setKey byKey item.key item
  | some existing => if existing.score < item.score then setKey byKey item.key item else byKey

/-- `_merge_window`. A score that is not a number comes first. -/
def mergeWindow (window additions : List Candidate) (limit : ℕ) : List Candidate :=
  let byKey := window.foldl (fun items item ↦ setKey items item.key item) []
  (ranked primaryKey ((additions.foldl offer byKey).map Prod.snd)).take limit

/-- A line of the diagnostics. -/
structure RefinementDiagnostic where
  id : Uuid
  level : VectorEntity
  score : Similarity
  windowSize : ℕ
  evictedTailCount : ℕ
  refinementPath : List (VectorEntity × Uuid)

/-- The state of the loop over the primary candidates. -/
structure RefinementState where
  window : List Candidate := []
  evictedTotal : ℕ := 0
  diagnostics : List RefinementDiagnostic := []

/-- The data of a reply. -/
structure RefinementReply where
  results : List Candidate
  threshold : Similarity
  candidateLimit : ℕ
  resultLimit : ℕ
  primaryCandidateCount : ℕ
  evictedTailCount : ℕ
  model : Text
  dimension : ℕ
  diagnostics : List RefinementDiagnostic

namespace Refinement

variable (search : Refinement ν)

/-- What a primary candidate offers, and the path that was taken. -/
def refine (candidate : Candidate) : List Candidate × List (VectorEntity × Uuid) :=
  match candidate.level with
  | .semanticChunk => ([candidate], [])
  | .paragraph =>
    (candidate.orChildren (search.children { paragraphId := some candidate.id }), [])
  | .document =>
    let (children, path) := search.refineDocument candidate.id
    ({ candidate with refinementPath := path }.orChildren children, path)
  | .file =>
    let (children, path) := search.refineFile candidate.id
    ({ candidate with refinementPath := path }.orChildren children, path)

/-- One turn of the loop. -/
def turn (state : RefinementState) (candidate : Candidate) : RefinementState :=
  let (additions, path) := search.refine candidate
  let window := mergeWindow state.window additions search.options.resultLimit
  let evicted := ((state.window.map Candidate.key).filter fun key ↦
    key ∉ window.map Candidate.key).length
  { window
    evictedTotal := state.evictedTotal + evicted
    diagnostics := if search.options.diagnostics then state.diagnostics ++
      [{ id := candidate.id
         level := candidate.level
         score := candidate.score
         windowSize := window.length
         evictedTailCount := evicted
         refinementPath := path }] else [] }

/-- `_execute_hierarchical_semantic`. -/
def execute : RefinementReply :=
  let state := search.primary.foldl search.turn {}
  { results := state.window.take search.options.resultLimit
    threshold := search.options.threshold
    candidateLimit := search.options.candidateLimit
    resultLimit := search.options.resultLimit
    primaryCandidateCount := search.primary.length
    evictedTailCount := state.evictedTotal
    model := search.executor.model
    dimension := search.executor.dimension
    diagnostics := state.diagnostics }

end Refinement

/-- `RuntimeSearchBoundary._execute_semantic` with refinement. -/
def executeRefined (executor : SemanticExecutor) (host : VectorHost ν) (plan : ExecutionPlan)
    (options : RefinementOptions) (store : SearchDb ν) : Except SearchError RefinementReply := do
  let vector ← singleVector plan.embedding
  return Refinement.execute
    { host, executor, store, wanted := host.cast (vectorLiteral vector), options }

/-! ### What a candidate stands for -/

section Candidates

variable {host : VectorHost ν} {store : SearchDb ν} {wanted : ν} {model : Text} {dimension : ℕ}
  {embedding : EmbeddingRow ν} {candidate : Candidate}

/-- The row that an item names: a chunk as every search reads it, with the version that is current,
or a paragraph, a document or a file that is not deleted. -/
def LiveAt (store : SearchDb ν) (embedding : EmbeddingRow ν) (id : Uuid) : VectorEntity → Prop
  | .semanticChunk => (∃ row ∈ store.liveRows, row.chunk.id = id) ∧
      ∃ current ∈ store.semanticChunkCurrent, current.chunkUuid = id ∧
        embedding.chunkVersionId = some current.versionId
  | .paragraph => ∃ row ∈ store.paragraphs, row.id = id ∧ row.deletedAt = none
  | .document => ∃ row ∈ store.documents, row.id = id ∧ row.deletedAt = none
  | .file => ∃ row ∈ store.files, row.id = id ∧ row.deletedAt = none

/-- A candidate names the entity of its vector, which is live, and its score is the similarity. -/
theorem of_candidateOf (hcandidate : candidateOf host store wanted embedding = some candidate) :
    embedding.entity = candidate.key ∧ candidate.score = host.similarity embedding.vector wanted ∧
      LiveAt store embedding candidate.id candidate.level := by
  rw [candidateOf] at hcandidate
  cases hlevel : embedding.entityType with
  | semanticChunk =>
    rw [hlevel] at hcandidate
    obtain ⟨chunk, hchunk, hcandidate⟩ := Option.bind_eq_some_iff.mp hcandidate
    obtain ⟨current, hcurrent, hcandidate⟩ := Option.bind_eq_some_iff.mp hcandidate
    obtain ⟨payload, hpayload, hcandidate⟩ := Option.bind_eq_some_iff.mp hcandidate
    obtain ⟨document, hdocument, hcandidate⟩ := Option.bind_eq_some_iff.mp hcandidate
    obtain ⟨hchunk, hlive⟩ := Option.filter_eq_some_iff.mp hchunk
    obtain ⟨hcurrent, hversion⟩ := Option.filter_eq_some_iff.mp hcurrent
    obtain ⟨hmem, hid⟩ := mem_of_lookup hchunk
    obtain ⟨hcurrentMem, hcurrentId⟩ := mem_of_lookup hcurrent
    cases hcandidate
    refine ⟨?_, rfl, ⟨_, List.mem_filterMap.mpr ⟨chunk, List.mem_filter.mpr ⟨hmem, hlive⟩,
      Option.bind_eq_some_iff.mpr ⟨payload, hpayload, Option.map_eq_some_iff.mpr
        ⟨document, hdocument, rfl⟩⟩⟩, rfl⟩, current, hcurrentMem, hcurrentId,
      of_decide_eq_true hversion⟩
    rw [EmbeddingRow.entity, hlevel, ← hid]
    rfl
  | paragraph =>
    rw [hlevel] at hcandidate
    obtain ⟨paragraph, hparagraph, hcandidate⟩ := Option.bind_eq_some_iff.mp hcandidate
    obtain ⟨document, hdocument, hcandidate⟩ := Option.bind_eq_some_iff.mp hcandidate
    obtain ⟨hparagraph, hlive⟩ := Option.filter_eq_some_iff.mp hparagraph
    obtain ⟨hmem, hid⟩ := mem_of_lookup hparagraph
    cases hcandidate
    refine ⟨?_, rfl, paragraph, hmem, rfl, Option.isNone_iff_eq_none.mp hlive⟩
    rw [EmbeddingRow.entity, hlevel, ← hid]
    rfl
  | document =>
    rw [hlevel] at hcandidate
    obtain ⟨document, hdocument, hcandidate⟩ := Option.bind_eq_some_iff.mp hcandidate
    obtain ⟨hdocument, hlive⟩ := Option.filter_eq_some_iff.mp hdocument
    obtain ⟨hmem, hid⟩ := mem_of_lookup hdocument
    cases hcandidate
    refine ⟨?_, rfl, document, hmem, rfl, Option.isNone_iff_eq_none.mp hlive⟩
    rw [EmbeddingRow.entity, hlevel, ← hid]
    rfl
  | file =>
    rw [hlevel] at hcandidate
    obtain ⟨file, hfile, hcandidate⟩ := Option.bind_eq_some_iff.mp hcandidate
    obtain ⟨hfile, hlive⟩ := Option.filter_eq_some_iff.mp hfile
    obtain ⟨hmem, hid⟩ := mem_of_lookup hfile
    cases hcandidate
    refine ⟨?_, rfl, file, hmem, rfl, Option.isNone_iff_eq_none.mp hlive⟩
    rw [EmbeddingRow.entity, hlevel, ← hid]
    rfl

end Candidates

/-! ### What a refinement returns -/

namespace Refinement

variable {search : Refinement ν} {candidate item : Candidate}

/-- An item that a refinement may return: it names a live row of its level, found through a vector
in use whose similarity to the query is its score and reaches the threshold. -/
def Finds (search : Refinement ν) (item : Candidate) : Prop :=
  search.options.threshold ≤ item.score ∧ ∃ embedding ∈ search.store.embeddings,
    embedding.active = true ∧ embedding.model = search.executor.model ∧
    embedding.dimension = search.executor.dimension ∧ embedding.entity = item.key ∧
    item.score = search.host.similarity embedding.vector search.wanted ∧
    LiveAt search.store embedding item.id item.level

theorem finds_of_mem_candidates {levels : List VectorEntity}
    (hitem : item ∈ search.candidates levels) : search.Finds item := by
  obtain ⟨hmem, hthreshold⟩ := List.mem_filter.mp hitem
  obtain ⟨level, -, hmem⟩ := List.mem_flatMap.mp hmem
  obtain ⟨embedding, hembedding, hcandidate⟩ := List.mem_filterMap.mp hmem
  obtain ⟨hembedding, hconditions⟩ := List.mem_filter.mp hembedding
  simp only [Bool.and_eq_true, decide_eq_true_eq] at hconditions
  obtain ⟨⟨⟨-, hactive⟩, hmodel⟩, hdimension⟩ := hconditions
  exact ⟨of_decide_eq_true hthreshold, embedding, hembedding, hactive, hmodel, hdimension,
    of_candidateOf hcandidate⟩

theorem finds_of_mem_primary (hitem : item ∈ search.primary) : search.Finds item :=
  finds_of_mem_candidates (mem_ranked.mp (List.mem_of_mem_take hitem))

theorem finds_of_mem_children {scope : ChildScope} (hitem : item ∈ search.children scope) :
    search.Finds item :=
  finds_of_mem_candidates (List.mem_of_mem_filter (mem_ranked.mp (List.mem_of_mem_take hitem)))

theorem finds_of_mem_orChildren {children : List Candidate} (hcandidate : search.Finds candidate)
    (hchildren : ∀ child ∈ children, search.Finds child)
    (hitem : item ∈ candidate.orChildren children) : search.Finds item := by
  rw [Candidate.orChildren] at hitem
  split at hitem
  · rwa [List.mem_singleton.mp hitem]
  · exact hchildren item hitem

/-- What a candidate offers, the candidate itself or what is below it. -/
theorem finds_of_mem_refine (hcandidate : search.Finds candidate)
    (hitem : item ∈ (search.refine candidate).1) : search.Finds item := by
  have hpath : ∀ path, search.Finds { candidate with refinementPath := path } := fun _ ↦ hcandidate
  rw [refine] at hitem
  split at hitem
  · rwa [List.mem_singleton.mp hitem]
  · exact finds_of_mem_orChildren hcandidate (fun _ hchild ↦ finds_of_mem_children hchild) hitem
  · exact finds_of_mem_orChildren (hpath _) (fun _ hchild ↦ finds_of_mem_children hchild) hitem
  · exact finds_of_mem_orChildren (hpath _) (fun _ hchild ↦ finds_of_mem_children hchild) hitem

end Refinement

/-! ### Merging -/

/-- A dict of items under their own keys. -/
structure Keyed (byKey : List ((VectorEntity × Uuid) × Candidate)) : Prop where
  keys : ∀ entry ∈ byKey, entry.1 = entry.2.key
  nodup : (byKey.map Prod.fst).Nodup

theorem Keyed.setKey {byKey : List ((VectorEntity × Uuid) × Candidate)} (hkeyed : Keyed byKey)
    (item : Candidate) : Keyed (setKey byKey item.key item) where
  keys entry hentry := by
    rcases mem_setKey hentry with rfl | hentry
    · rfl
    · exact hkeyed.keys entry hentry
  nodup := nodup_setKey hkeyed.nodup _ _

theorem Keyed.offer {byKey : List ((VectorEntity × Uuid) × Candidate)} (hkeyed : Keyed byKey)
    (item : Candidate) : Keyed (offer byKey item) := by
  rw [DocStore.offer]
  split
  · exact hkeyed.setKey item
  · split
    · exact hkeyed.setKey item
    · exact hkeyed

theorem mem_offer {byKey : List ((VectorEntity × Uuid) × Candidate)} {item : Candidate}
    {entry : (VectorEntity × Uuid) × Candidate} (hentry : entry ∈ offer byKey item) :
    entry = (item.key, item) ∨ entry ∈ byKey := by
  rw [offer] at hentry
  split at hentry
  · exact mem_setKey hentry
  · split at hentry
    · exact mem_setKey hentry
    · exact Or.inr hentry

/-- What a fold of offers or of assignments leaves is what it started with or was given. -/
theorem keyed_foldl {step : List ((VectorEntity × Uuid) × Candidate) → Candidate →
      List ((VectorEntity × Uuid) × Candidate)}
    (hkeyed : ∀ {byKey} (item : Candidate), Keyed byKey → Keyed (step byKey item))
    (hmem : ∀ {byKey} {item : Candidate} {entry}, entry ∈ step byKey item →
      entry = (item.key, item) ∨ entry ∈ byKey)
    {items : List Candidate} {byKey : List ((VectorEntity × Uuid) × Candidate)}
    (hstart : Keyed byKey) : Keyed (items.foldl step byKey) ∧
      ∀ entry ∈ items.foldl step byKey, entry.2 ∈ items ∨ entry ∈ byKey := by
  induction items generalizing byKey with
  | nil => exact ⟨hstart, fun entry hentry ↦ Or.inr hentry⟩
  | cons item rest ih =>
    obtain ⟨hkeyedRest, hrest⟩ := ih (hkeyed item hstart)
    refine ⟨hkeyedRest, fun entry hentry ↦ ?_⟩
    rcases hrest entry hentry with hlater | hnow
    · exact Or.inl (List.mem_cons_of_mem _ hlater)
    · rcases hmem hnow with rfl | hold
      · exact Or.inl List.mem_cons_self
      · exact Or.inr hold

/-- A merged window holds at most its limit, every key once, and only what was in it or offered. -/
theorem mergeWindow_spec (window additions : List Candidate) (limit : ℕ) :
    (mergeWindow window additions limit).length ≤ limit ∧
      ((mergeWindow window additions limit).map Candidate.key).Nodup ∧
      ∀ item ∈ mergeWindow window additions limit, item ∈ window ∨ item ∈ additions := by
  obtain ⟨hkeyedOld, hold⟩ := @keyed_foldl (fun items item ↦ setKey items item.key item)
    (fun item hkeyed ↦ hkeyed.setKey item) (fun hentry ↦ mem_setKey hentry) window []
    ⟨nofun, List.nodup_nil⟩
  obtain ⟨hkeyed, hnew⟩ := @keyed_foldl offer (fun item hkeyed ↦ hkeyed.offer item) mem_offer
    additions _ hkeyedOld
  have hkeys : ((additions.foldl offer (window.foldl
      (fun items item ↦ setKey items item.key item) [])).map Prod.snd).map Candidate.key =
        (additions.foldl offer (window.foldl
          (fun items item ↦ setKey items item.key item) [])).map Prod.fst := by
    rw [List.map_map]
    exact List.map_congr_left fun entry hentry ↦ (hkeyed.keys entry hentry).symm
  refine ⟨List.length_take_le _ _, ?_, fun item hitem ↦ ?_⟩
  · refine List.Nodup.sublist ((List.take_sublist _ _).map _) ?_
    rw [((perm_ranked _ _).map _).nodup_iff, hkeys]
    exact hkeyed.nodup
  · obtain ⟨entry, hentry, rfl⟩ := List.mem_map.mp (mem_ranked.mp (List.mem_of_mem_take hitem))
    rcases hnew entry hentry with hadded | hkept
    · exact Or.inr hadded
    · exact Or.inl ((hold entry hkept).resolve_right List.not_mem_nil)

namespace Refinement

variable {search : Refinement ν}

/-- The invariant of the loop. -/
structure WindowHolds (search : Refinement ν) (state : RefinementState) : Prop where
  length : state.window.length ≤ search.options.resultLimit
  nodup : (state.window.map Candidate.key).Nodup
  finds : ∀ item ∈ state.window, search.Finds item

/-- One turn keeps the invariant. -/
theorem WindowHolds.turn {state : RefinementState} (hholds : search.WindowHolds state)
    {candidate : Candidate} (hcandidate : search.Finds candidate) :
    search.WindowHolds (search.turn state candidate) := by
  obtain ⟨hlength, hnodup, hmem⟩ := mergeWindow_spec state.window (search.refine candidate).1
    search.options.resultLimit
  exact
    { length := hlength
      nodup := hnodup
      finds := fun item hitem ↦ (hmem item hitem).elim (hholds.finds item)
        (finds_of_mem_refine hcandidate) }

/-- The whole loop keeps it. -/
theorem windowHolds_foldl (candidates : List Candidate)
    (hcandidates : ∀ candidate ∈ candidates, search.Finds candidate) :
    search.WindowHolds (candidates.foldl search.turn {}) := by
  refine List.foldlRecOn candidates search.turn
    ⟨Nat.zero_le _, List.nodup_nil, nofun⟩ fun state hholds candidate hcandidate ↦ ?_
  exact hholds.turn (hcandidates candidate hcandidate)

end Refinement

/-- What a refined search returns: at most as many items as the window holds, every one once, each
a live row of its level that was found through a vector in use and reaches the threshold. -/
theorem refined_results {executor : SemanticExecutor} {host : VectorHost ν} {plan : ExecutionPlan}
    {options : RefinementOptions} {store : SearchDb ν} {reply : RefinementReply}
    (hreply : executeRefined executor host plan options store = .ok reply) :
    reply.results.length ≤ options.resultLimit ∧ (reply.results.map Candidate.key).Nodup ∧
      ∀ item ∈ reply.results, Refinement.Finds
        { host, executor, store, options
          wanted := host.cast (vectorLiteral (firstVector plan.embedding)) } item := by
  obtain ⟨vector, hvector, hreply⟩ := bind_eq_ok.mp hreply
  obtain rfl := firstVector_of_singleVector hvector
  cases hreply
  let search : Refinement ν :=
    { host, executor, store, options
      wanted := host.cast (vectorLiteral (firstVector plan.embedding)) }
  have hholds : search.WindowHolds (search.primary.foldl search.turn {}) :=
    Refinement.windowHolds_foldl _ fun candidate hcandidate ↦
      Refinement.finds_of_mem_primary hcandidate
  exact ⟨List.length_take_le _ _, hholds.nodup.sublist ((List.take_sublist _ _).map _),
    fun item hitem ↦ hholds.finds item (List.mem_of_mem_take hitem)⟩

/-! ### A paragraph with two chunks -/

/-- What a plan asks of a reply: chunks that satisfy it, and no more than its limit. -/
structure HonoursPlan (executor : SemanticExecutor) (host : VectorHost ν) (plan : ExecutionPlan)
    (store : SearchDb ν) (reply : RefinementReply) : Prop where
  satisfies : ∀ item ∈ reply.results, item.level = .semanticChunk ∧
    ∃ clauses, semanticClauses host plan = .ok clauses ∧
      ∃ found ∈ executor.matching host plan store clauses
          (host.cast (vectorLiteral (firstVector plan.embedding))), found.row.chunk.id = item.id
  limited : ∀ limit ∈ plan.limit, reply.results.length ≤ limit

section Sample

/-- The options of the server, with refinement. -/
def sampleOptions : RefinementOptions where
  threshold := 0
  candidateLimit := 50
  resultLimit := 10
  threshold_bounds := Or.inr ⟨le_rfl, zero_le_one⟩
  candidateLimit_bounds := by decide
  resultLimit_bounds := by decide

/-- A query for the chunk of a project that is closest to a vector. -/
def projectQuery : ChunkQuery :=
  { closestQuery [1, 0] with fields := [("project", .text (lit "atlas"))] }

/-- The plan of that query. -/
def projectPlan : ExecutionPlan :=
  { closestPlan [1, 0] with
    predicates :=
      [{ column := "project", operator := .equals, value := .text (lit "atlas"), parameter := 0 }] }

/-- A store whose two chunks and their paragraph have vectors, and no project. -/
def paragraphStore : SearchDb Vector :=
  { searchStore [[0, 1], [1, 0]] with
    paragraphs :=
      [{ id := 3
         ownerId := none
         documentId := 1
         chapterId := 2
         orderIndex := 0
         text := lit "xx"
         sourceStart := 0
         sourceEnd := 2
         blockMeta := [] }]
    embeddings := (searchStore [[0, 1], [1, 0]]).embeddings ++
      [{ entityType := .paragraph
         entityId := 3
         chunkUuid := none
         vector := [1 / 2, 1 / 2]
         model := sampleExecutor.model
         dimension := sampleExecutor.dimension
         provider := sampleExecutor.provider
         modelVersion := sampleExecutor.modelVersion }] }

/-- The reply to the query. -/
def paragraphReply : RefinementReply := Refinement.execute
  { host := sampleVectorHost
    executor := sampleExecutor
    store := paragraphStore
    wanted := vectorLiteral [1, 0]
    options := sampleOptions }

/-- The reply holds the two chunks and the paragraph. -/
theorem refined_results_paragraph :
    paragraphReply.results.map Candidate.key =
        [(.semanticChunk, 11), (.paragraph, 3), (.semanticChunk, 10)] ∧
      paragraphReply.results.length ≤ sampleOptions.resultLimit ∧
      (paragraphReply.results.map Candidate.key).Nodup ∧
      ∀ item ∈ paragraphReply.results, Refinement.Finds
        { host := sampleVectorHost
          executor := sampleExecutor
          store := paragraphStore
          wanted := vectorLiteral [1, 0]
          options := sampleOptions } item :=
  ⟨by decide +kernel, @refined_results _ sampleExecutor sampleVectorHost projectPlan sampleOptions
    paragraphStore paragraphReply rfl⟩

/-- No chunk has the project that the query asks for, the limit is one, and three items are
returned, one of them a paragraph. -/
theorem not_honoursPlan_refined :
    compileQuery sampleSchema projectQuery = .ok projectPlan ∧
      executeRefined sampleExecutor sampleVectorHost projectPlan sampleOptions paragraphStore =
        .ok paragraphReply ∧
      paragraphReply.results.map Candidate.key =
        [(.semanticChunk, 11), (.paragraph, 3), (.semanticChunk, 10)] ∧
      ¬ HonoursPlan sampleExecutor sampleVectorHost projectPlan paragraphStore paragraphReply := by
  have hresults : paragraphReply.results.map Candidate.key =
      [(.semanticChunk, 11), (.paragraph, 3), (.semanticChunk, 10)] := by
    decide +kernel
  refine ⟨rfl, rfl, hresults, fun hhonours ↦ ?_⟩
  have hlength := hhonours.limited 1 rfl
  rw [← List.length_map (f := Candidate.key), hresults] at hlength
  exact absurd hlength (by decide)

end Sample

end DocStore
