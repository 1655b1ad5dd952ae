import DocStore.Query.Refinement

/-!
# The parts of a document candidate

A document candidate is replaced by the chunks and the paragraphs of the document that are close to
the query. The query for them is narrowed by the closest file that the document is related to, and
that file may own the document or be owned by it, while a part only carries the owner of its
document. So a document whose closest related file is one that it owns loses all its parts and stands
for itself: it offers its own best parts exactly when it has none that are close enough, or no file
other than its owner is the closest one (`offersOwnParts_iff`).
-/

set_option autoImplicit false
set_option relaxedAutoImplicit false

namespace DocStore

open Foundation

variable {ν : Type}

namespace Refinement

variable (search : Refinement ν)

/-! ### The property -/

/-- The chunks and the paragraphs of a document that reach the threshold. -/
def ownParts (documentId : Uuid) : List Candidate :=
  (search.candidates [.semanticChunk, .paragraph]).filter fun part ↦
    part.documentId = some documentId

/-- A document candidate offers the best parts of its document, and itself only when it has none. -/
structure OffersOwnParts (candidate : Candidate) : Prop where
  best : search.ownParts candidate.id ≠ [] → (search.refine candidate).1 =
    (ranked childKey (search.ownParts candidate.id)).take search.options.resultLimit
  itself : search.ownParts candidate.id = [] →
    (search.refine candidate).1.map Candidate.key = [candidate.key]

/-! ### The condition -/

/-- A file is related to a document when it owns the document or is owned by it; both are live. -/
def IsRelatedFile (documentId fileId : Uuid) : Bool :=
  search.store.documents.any fun document ↦
    document.id = documentId && document.deletedAt.isNone &&
      search.store.files.any fun file ↦
        file.id = fileId && file.deletedAt.isNone &&
          (document.ownerId = some file.id || file.ownerId = some document.id)

/-- The vectors in use of the files that are related to a document. -/
def relatedVectors (documentId : Uuid) : List (EmbeddingRow ν) :=
  (search.store.levelVectors search.executor.model search.executor.dimension .file).filter
    fun vector ↦ search.IsRelatedFile documentId vector.entityId

/-- A vector is the closest one to the query, and of equally close ones the first. -/
def IsClosest (documentId : Uuid) (vector : EmbeddingRow ν) : Prop :=
  IsFirst (fun other : EmbeddingRow ν ↦
    OrderDual.toDual (search.host.similarity other.vector search.wanted))
    (search.relatedVectors documentId) vector

/-- The owner of a document. -/
def ownerOf (documentId : Uuid) : Option Uuid :=
  (lookup (fun row : DocumentRow ↦ row.id) documentId search.store.documents).bind fun document ↦
    document.ownerId

/-- No file other than its owner is the closest one to a document. -/
def OwnerIsClosest (documentId : Uuid) : Prop :=
  ∀ vector, search.IsClosest documentId vector → search.ownerOf documentId = some vector.entityId

variable {search} {candidate : Candidate} {documentId : Uuid}

theorem closestFile_eq_some_iff {fileId : Uuid} : search.closestFile documentId = some fileId ↔
    ∃ vector, search.IsClosest documentId vector ∧ vector.entityId = fileId := by
  rw [closestFile, closest, Option.map_eq_some_iff]
  exact exists_congr fun vector ↦ and_congr_left fun _ ↦ head?_ranked_eq_some_iff

/-! ### The owner that a part carries -/

/-- A part carries the owner of its document. -/
theorem fileId_of_candidateOf {embedding : EmbeddingRow ν}
    (hlevel : embedding.entityType = .semanticChunk ∨ embedding.entityType = .paragraph)
    (hpart : candidateOf search.host search.store search.wanted embedding = some candidate)
    (hdocument : candidate.documentId = some documentId) :
    candidate.fileId = search.ownerOf documentId := by
  rcases hlevel with hlevel | hlevel
  · rw [candidateOf, hlevel] at hpart
    obtain ⟨chunk, -, hpart⟩ := Option.bind_eq_some_iff.mp hpart
    obtain ⟨current, -, hpart⟩ := Option.bind_eq_some_iff.mp hpart
    obtain ⟨payload, -, hpart⟩ := Option.bind_eq_some_iff.mp hpart
    obtain ⟨document, hlookup, hpart⟩ := Option.bind_eq_some_iff.mp hpart
    cases hpart
    rw [ownerOf, ← Option.some.inj hdocument, hlookup]
    rfl
  · rw [candidateOf, hlevel] at hpart
    obtain ⟨paragraph, -, hpart⟩ := Option.bind_eq_some_iff.mp hpart
    obtain ⟨document, hlookup, hpart⟩ := Option.bind_eq_some_iff.mp hpart
    cases hpart
    rw [ownerOf, ← Option.some.inj hdocument, hlookup]
    rfl

/-- A part is the candidate of a vector of a chunk or of a paragraph. -/
theorem exists_of_mem_ownParts (hpart : candidate ∈ search.ownParts documentId) :
    ∃ embedding : EmbeddingRow ν,
      (embedding.entityType = .semanticChunk ∨ embedding.entityType = .paragraph) ∧
      candidateOf search.host search.store search.wanted embedding = some candidate ∧
      candidate.documentId = some documentId := by
  obtain ⟨hcandidate, hdocument⟩ := List.mem_filter.mp hpart
  obtain ⟨level, hlevel, hcandidate⟩ := List.mem_flatMap.mp (List.mem_of_mem_filter hcandidate)
  obtain ⟨embedding, hembedding, hcandidate⟩ := List.mem_filterMap.mp hcandidate
  have hconditions := List.of_mem_filter hembedding
  simp only [Bool.and_eq_true, decide_eq_true_eq] at hconditions
  refine ⟨embedding, ?_, hcandidate, of_decide_eq_true hdocument⟩
  rw [hconditions.1.1.1]
  simpa using hlevel

theorem level_of_mem_ownParts (hpart : candidate ∈ search.ownParts documentId) :
    candidate.level ≠ .document := by
  obtain ⟨embedding, hlevel, hcandidate, -⟩ := exists_of_mem_ownParts hpart
  have hentity : embedding.entityType = candidate.level :=
    congrArg Prod.fst (of_candidateOf hcandidate).1
  rw [← hentity]
  rcases hlevel with hlevel | hlevel <;> rw [hlevel] <;> decide

/-- The parts in the scope of a document and a file: all that the document has when the file is its
owner, and none otherwise. -/
theorem filter_covers_eq (fileId : Option Uuid) :
    (search.candidates [.semanticChunk, .paragraph]).filter
        ({ documentId := some documentId, fileId } : ChildScope).covers =
      if ∀ file ∈ fileId, search.ownerOf documentId = some file then search.ownParts documentId
      else [] := by
  have hsplit : (search.candidates [.semanticChunk, .paragraph]).filter
      ({ documentId := some documentId, fileId } : ChildScope).covers =
        (search.ownParts documentId).filter fun part ↦ fileId.all fun file ↦
          part.fileId = some file := by
    rw [ownParts, List.filter_filter]
    refine List.filter_congr fun part _ ↦ ?_
    simp [ChildScope.covers, Bool.and_comm]
  have hall : ∀ part ∈ search.ownParts documentId,
      (fileId.all fun file ↦ decide (part.fileId = some file)) =
        decide (∀ file ∈ fileId, search.ownerOf documentId = some file) := by
    intro part hpart
    obtain ⟨embedding, hlevel, hcandidate, hdocument⟩ := exists_of_mem_ownParts hpart
    rw [fileId_of_candidateOf hlevel hcandidate hdocument]
    cases fileId <;> simp
  rw [hsplit, List.filter_congr hall]
  split
  next howner => rw [decide_eq_true howner, List.filter_true]
  next hother => rw [decide_eq_false hother, List.filter_false]

/-- What a document candidate offers. -/
theorem refine_document (hlevel : candidate.level = .document) : (search.refine candidate).1 =
    { candidate with refinementPath := (search.refineDocument candidate.id).2 }.orChildren
      (search.refineDocument candidate.id).1 := by
  rw [refine, hlevel]

theorem take_ranked_nil (limit : ℕ) : (ranked childKey []).take limit = [] := List.take_nil

/-- The number of results that are asked for is not zero. -/
theorem take_ranked_ne_nil {parts : List Candidate} (hparts : parts ≠ []) :
    (ranked childKey parts).take search.options.resultLimit ≠ [] := by
  have hlength := congrArg List.length (List.take_append_drop search.options.resultLimit
    (ranked childKey parts))
  have hlimit := search.options.resultLimit_bounds.1
  have hpositive := List.length_pos_iff.mpr hparts
  rw [← (perm_ranked childKey parts).length_eq] at hpositive
  refine List.length_pos_iff.mp ?_
  rw [List.length_take]
  omega

end Refinement

open Refinement in
/-- **When a document offers its own parts.** For every store, query and options and every document
candidate: it offers the best of its chunks and paragraphs that reach the threshold, and itself only
when it has none, if and only if it has none or no file other than its owner is the closest one. -/
theorem offersOwnParts_iff {search : Refinement ν} {candidate : Candidate}
    (hlevel : candidate.level = .document) : search.OffersOwnParts candidate ↔
      search.ownParts candidate.id = [] ∨ search.OwnerIsClosest candidate.id := by
  have hclosest : search.OwnerIsClosest candidate.id ↔
      ∀ file ∈ search.closestFile candidate.id, search.ownerOf candidate.id = some file := by
    simp only [Option.mem_def, closestFile_eq_some_iff, OwnerIsClosest]
    exact ⟨fun hall file ⟨vector, hvector, hfile⟩ ↦ hfile ▸ hall vector hvector,
      fun hall vector hvector ↦ hall _ ⟨vector, hvector, rfl⟩⟩
  have hchildren : (search.refineDocument candidate.id).1 = (ranked childKey
      (if ∀ file ∈ search.closestFile candidate.id, search.ownerOf candidate.id = some file then
        search.ownParts candidate.id else [])).take search.options.resultLimit := by
    rw [refineDocument, children, filter_covers_eq]
  rw [hclosest]
  constructor
  · intro hoffers
    refine or_iff_not_imp_left.mpr fun hsome ↦ by_contra fun hother ↦ ?_
    have hbest := hoffers.best hsome
    rw [if_neg hother] at hchildren
    rw [refine_document hlevel, hchildren, take_ranked_nil, Candidate.orChildren] at hbest
    have hmem : { candidate with refinementPath := (search.refineDocument candidate.id).2 } ∈
        (ranked childKey (search.ownParts candidate.id)).take search.options.resultLimit :=
      hbest ▸ List.mem_cons_self
    exact level_of_mem_ownParts (mem_ranked.mp (List.mem_of_mem_take hmem)) hlevel
  · intro hcondition
    refine ⟨fun hsome ↦ ?_, fun hnone ↦ ?_⟩
    · rw [if_pos (hcondition.resolve_left hsome)] at hchildren
      rw [refine_document hlevel, hchildren, Candidate.orChildren,
        List.isEmpty_eq_false_iff.mpr (take_ranked_ne_nil hsome)]
      rfl
    · have hempty : (search.refineDocument candidate.id).1 = [] := by
        rw [hchildren, hnone, ite_self, take_ranked_nil]
      rw [refine_document hlevel, hempty]
      rfl

/-! ### An exported document -/

/-- A vector of a document or of a file. -/
def entityVector (entityType : VectorEntity) (entityId : Uuid) : EmbeddingRow Vector where
  entityType := entityType
  entityId := entityId
  chunkUuid := none
  vector := [1, 0]
  model := sampleExecutor.model
  dimension := sampleExecutor.dimension
  provider := sampleExecutor.provider
  modelVersion := sampleExecutor.modelVersion

/-- The file that the document was exported to, which the document owns. -/
def fileOfExport : FileRow where
  id := 9
  ownerId := some 1
  primarySourceId := 5
  path := lit "export.txt"
  name := lit "export.txt"
  charCount := 2
  contentSha256 := []
  bodySha256 := []
  blockMeta := []

/-- A document with two chunks, and some files. -/
def documentSearch (files : List FileRow) : Refinement Vector where
  host := sampleVectorHost
  executor := sampleExecutor
  store :=
    { searchStore [[0, 1], [1, 0]] with
      files
      embeddings := (searchStore [[0, 1], [1, 0]]).embeddings ++
        entityVector .document 1 :: files.map fun file ↦ entityVector .file file.id }
  wanted := vectorLiteral [1, 0]
  options := sampleOptions

/-- The candidate of the document. -/
def documentItem : Candidate where
  level := .document
  id := 1
  documentId := some 1
  fileId := none
  preview := lit "Title"
  score := 1

/-- Without a file, the document offers its two chunks. -/
theorem offersOwnParts_without_files : (documentSearch []).OffersOwnParts documentItem := by
  refine (offersOwnParts_iff rfl).mpr (.inr fun vector hvector ↦ ?_)
  obtain ⟨before, after, hnone, -⟩ := hvector
  have hempty : (documentSearch []).relatedVectors documentItem.id = [] := rfl
  rw [hempty] at hnone
  exact absurd hnone (by simp)

/-- Once it is exported, it offers only itself. -/
theorem not_offersOwnParts_exported :
    (∃ candidate ∈ (documentSearch [fileOfExport]).primary, candidate.key = documentItem.key) ∧
      ((documentSearch [fileOfExport]).ownParts documentItem.id).map Candidate.key =
        [(.semanticChunk, 10), (.semanticChunk, 11)] ∧
      ((documentSearch [fileOfExport]).refine documentItem).1.map Candidate.key =
        [documentItem.key] ∧
      ¬(documentSearch [fileOfExport]).OffersOwnParts documentItem := by
  have hparts : ((documentSearch [fileOfExport]).ownParts documentItem.id).map Candidate.key =
      [(.semanticChunk, 10), (.semanticChunk, 11)] := by
    decide +kernel
  have hoffered : ((documentSearch [fileOfExport]).refine documentItem).1.map Candidate.key =
      [documentItem.key] := by
    decide +kernel
  have hprimary : documentItem.key ∈
      (documentSearch [fileOfExport]).primary.map Candidate.key := by
    decide +kernel
  refine ⟨List.mem_map.mp hprimary, hparts, hoffered, fun hoffers ↦ ?_⟩
  have hsome : (documentSearch [fileOfExport]).ownParts documentItem.id ≠ [] := by
    intro hnone
    rw [hnone] at hparts
    cases hparts
  have hlength := congrArg List.length (hoffers.best hsome)
  have hone := congrArg List.length hoffered
  have htwo := congrArg List.length hparts
  rw [List.length_map] at hone htwo
  rw [hone, List.length_take, (perm_ranked childKey _).length_eq, htwo] at hlength
  cases hlength

end DocStore
