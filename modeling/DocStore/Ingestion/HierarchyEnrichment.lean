import DocStore.Domain.UuidText
import DocStore.Foundation.Sweeps
import Mathlib.Data.List.Sort

/-!
# Enriching a hierarchy

`enrichHierarchy` builds the document, the chapters, the paragraphs and the chunks of one source
version from chapters and paragraphs that name the chunks they own. The ranges are checked while
the objects are built: those of chapters and paragraphs in two nested loops, those of chunks by
`buildSemanticChunks` and once more by `validateSemanticChunks`. That the paragraphs own every chunk
once and in order is checked at the end.

The adapter package that owns the chunk type is a parameter (`ChunkAdapter`), with what its
documentation says of it in `ChunkAdapter.Documented`. The identifiers that `uuid4()` yields are a
sequence, of which a state has drawn some number.
-/

set_option autoImplicit false
set_option relaxedAutoImplicit false

namespace DocStore.Enrichment

open Foundation

/-! ### Refusals -/

/-- What the enrichment raises: `HierarchyEnrichmentError`, another `ValueError`, an `IndexError`, or
an error of the adapter package. -/
inductive Refusal where
  | hierarchy (message : String)
  | value (message : String)
  | index
  | adapter (message : String)

/-! ### The adapter package -/

/-- `ChunkType`, as far as it is used. -/
inductive ChunkType where
  | docBlock
deriving DecidableEq

/-- `BlockType`, as far as it is used. -/
inductive BlockType where
  | paragraph
deriving DecidableEq

/-- The fields of an adapter chunk that are read. -/
structure ChunkFields where
  uuid : Text
  sourceId : Option Text
  blockId : Option Text
  body : Option Text
  start : Option ℤ
  stop : Option ℤ
  ordinal : Option ℤ
  blockIndex : Option ℤ
  blockMeta : Option Dict

/-- The payload that a chunk is constructed from. -/
structure ChunkPayload where
  uuid : Text
  sourceId : Text
  blockId : Text
  body : Text
  text : Text
  type : ChunkType
  blockType : BlockType
  ordinal : ℤ
  blockIndex : ℤ
  start : ℤ
  stop : ℤ
  blockMeta : Dict

/-- The adapter package: `SemanticChunk.model_validate`, the fields of `model_dump(mode="json")`, the
factory `from_dict_with_autofill_and_validation`, and the attributes of a chunk. -/
structure ChunkAdapter (κ : Type) where
  modelValidate : κ → Except Refusal κ
  modelDump : κ → ChunkFields
  fromDict : ChunkPayload → Except Refusal κ
  fields : κ → ChunkFields

/-! ### Inputs and results -/

/-- `ParagraphInput`. -/
structure ParagraphInput where
  text : Text
  start : ℤ
  stop : ℤ
  chunkIndexes : List ℤ

/-- `ChapterInput`, without the heading, which is not read. -/
structure ChapterInput where
  paragraphs : List ParagraphInput
  start : ℤ
  stop : ℤ

/-- A source version, `str | int`. -/
inductive SourceVersion where
  | text (value : Text)
  | number (value : ℤ)
deriving DecidableEq

/-- `ChunkSpec`. -/
structure ChunkSpec where
  body : Text
  start : ℤ
  stop : ℤ
  uuid : Option Uuid
  ordinal : Option ℤ

/-- `Paragraph`; the chapter it belongs to is named by its id. -/
structure Paragraph where
  chapter : Uuid
  id : Uuid
  text : Text

/-- `Chapter`; the document it belongs to is named by its id. -/
structure Chapter where
  document : Uuid
  id : Uuid
  paragraphs : List Paragraph

/-- `Document`. -/
structure Document where
  id : Uuid
  chapters : List Chapter

/-- `HierarchyProvenance`. -/
structure HierarchyProvenance where
  sourceUploadId : Uuid
  sourceVersion : SourceVersion
  sourceStateAssertionId : Option Uuid
  processingRunId : Option Uuid
deriving DecidableEq

/-- `SourceVersionTrace`. -/
structure SourceVersionTrace where
  sourceUploadId : Uuid
  sourceVersion : SourceVersion
  documentId : Uuid
  chapterIds : List Uuid
  paragraphIds : List Uuid
  chunkIds : List Uuid
  entitySource : List (Uuid × (Uuid × SourceVersion))
  sourceStateAssertionId : Option Uuid
  processingRunId : Option Uuid
  entityProvenance : List (Uuid × HierarchyProvenance)

/-- `CanonicalIngestionAggregate`. -/
structure CanonicalIngestionAggregate (κ : Type) where
  document : Document
  chapters : List Chapter
  paragraphs : List Paragraph
  chunks : List κ
  traceability : SourceVersionTrace

/-- The source that a hierarchy is enriched for. -/
structure Source where
  uploadId : Uuid
  version : SourceVersion
  stateAssertionId : Option Uuid
  processingRunId : Option Uuid

variable {κ : Type}

/-! ### Checks -/

/-- `_uuid4`: the text of a version 4 UUID. -/
def uuid4Text (value : Uuid) (fieldName : String) : Except Refusal Text := do
  raiseIf (uuidVersion value ≠ some 4) (.value s!"{fieldName} must be a UUID version 4 value")
  return uuidText value

/-- `_validate_source`. -/
def validateSource (sourceUploadId : Uuid) (sourceVersion : SourceVersion) :
    Except Refusal Unit := do
  raiseIf (uuidVersion sourceUploadId ≠ some 4)
    (.hierarchy "source_upload_id must be a UUID version 4 value")
  raiseIf
    (match sourceVersion with
      | .text value => (strip value).isEmpty
      | .number value => value ≤ 0)
    (.hierarchy "source_version must be non-empty or positive")

/-- The check of one identity of the provenance. -/
def validateProvenanceId (value : Option Uuid) (label : String) : Except Refusal Unit :=
  match value with
  | none => .ok ()
  | some id =>
    raiseIf (uuidVersion id ≠ some 4) (.hierarchy s!"{label} must be a UUID version 4 value")

/-- `_validate_provenance`. -/
def validateProvenance (sourceStateAssertionId processingRunId : Option Uuid) :
    Except Refusal Unit := do
  raiseIf (sourceStateAssertionId.isNone ≠ processingRunId.isNone)
    (.hierarchy "source_state_assertion_id and processing_run_id must be given together")
  validateProvenanceId sourceStateAssertionId "source_state_assertion_id"
  validateProvenanceId processingRunId "processing_run_id"

/-- `_validate_range`. -/
def validateRange (start stop : ℤ) (label : String) : Except Refusal Unit :=
  raiseIf (start < 0 || stop ≤ start)
    (.hierarchy s!"{label} range must satisfy 0 <= start < end")

/-- `_validate_hierarchy`. -/
def validateHierarchy (document : Document) (chapter : Chapter) (paragraph : Paragraph) :
    Except Refusal Unit := do
  let _ ← uuid4Text document.id "Document.id"
  let _ ← uuid4Text chapter.id "Chapter.id"
  let _ ← uuid4Text paragraph.id "Paragraph.id"
  raiseIf (chapter.document ≠ document.id) (.value "Chapter must belong to the supplied Document")
  raiseIf (paragraph.chapter ≠ chapter.id)
    (.value "Paragraph must belong to the supplied Chapter")

/-- `Document(id=...)`, with its `__post_init__`. -/
def newDocument (id : Uuid) : Except Refusal Document := do
  let _ ← uuid4Text id "Document.id"
  return { id, chapters := [] }

/-- `Chapter(document=..., id=...)`, with its `__post_init__`. -/
def newChapter (document : Document) (id : Uuid) : Except Refusal Chapter := do
  let _ ← uuid4Text id "Chapter.id"
  return { document := document.id, id, paragraphs := [] }

/-- `Paragraph(chapter=..., id=..., text=...)`, with its `__post_init__`. -/
def newParagraph (chapter : Chapter) (id : Uuid) (text : Text) : Except Refusal Paragraph := do
  let _ ← uuid4Text id "Paragraph.id"
  return { chapter := chapter.id, id, text }

/-! ### The chunks of a paragraph -/

/-- What `validate_semantic_chunks` keeps between two chunks. -/
structure CheckState where
  index : ℕ
  seenUuids : List Text
  previousEnd : ℤ

/-- One turn of the loop of `validate_semantic_chunks`. -/
def checkChunk (sourceId blockId chapterId : Text) (state : CheckState) (chunk : ChunkFields) :
    Except Refusal CheckState := do
  raiseIf (chunk.sourceId ≠ some sourceId)
    (.value "SemanticChunk.source_id must equal Document.id")
  raiseIf (chunk.blockId ≠ some blockId)
    (.value "SemanticChunk.block_id must equal Paragraph.id")
  raiseIf ((chunk.blockMeta.bind fun fields ↦ getKey fields "chapter_id") ≠ some (.str chapterId))
    (.value "SemanticChunk.block_meta.chapter_id must equal Chapter.id")
  match parseUuid chunk.uuid with
  | none => .error (.value "badly formed hexadecimal UUID string")
  | some uuid =>
    let chunkId ← uuid4Text uuid "SemanticChunk.uuid"
    raiseIf (state.seenUuids.contains chunkId) (.value "each chunk must have a distinct UUID4")
    raiseIf (chunk.ordinal ≠ some (state.index : ℤ) || chunk.blockIndex ≠ some (state.index : ℤ))
      (.value "chunk order metadata must match stable input order")
    match chunk.start, chunk.stop with
    | some start, some stop =>
      raiseIf (stop ≤ start) (.value "chunk range must satisfy start < end")
      raiseIf (start < state.previousEnd)
        (.value "chunk ranges must be ordered and non-overlapping")
      return { index := state.index + 1
               seenUuids := chunkId :: state.seenUuids
               previousEnd := stop }
    | _, _ => .error (.value "chunk range must satisfy start < end")

/-- `validate_semantic_chunks`. -/
def validateSemanticChunks (adapter : ChunkAdapter κ) (document : Document) (chapter : Chapter)
    (paragraph : Paragraph) (chunks : List κ) : Except Refusal (List κ) := do
  validateHierarchy document chapter paragraph
  let sourceId ← uuid4Text document.id "Document.id"
  let blockId ← uuid4Text paragraph.id "Paragraph.id"
  let chapterId ← uuid4Text chapter.id "Chapter.id"
  let validated ← chunks.mapM adapter.modelValidate
  raiseIf validated.isEmpty (.value "a Paragraph must produce at least one chunk")
  let _ ← (validated.map adapter.fields).foldlM (checkChunk sourceId blockId chapterId)
    { index := 0, seenUuids := [], previousEnd := -1 }
  return validated

/-- What `build_semantic_chunks` keeps between two chunks. -/
structure BuildState (κ : Type) where
  drawn : ℕ
  index : ℕ
  result : List κ
  seenUuids : List Text
  previousEnd : ℤ

/-- One turn of the loop of `build_semantic_chunks`. -/
def buildChunk (adapter : ChunkAdapter κ) (fresh : ℕ → Uuid) (sourceId blockId chapterId : Text)
    (state : BuildState κ) (spec : ChunkSpec) : Except Refusal (BuildState κ) := do
  raiseIf spec.body.isEmpty (.value "chunk body must be a non-empty string")
  raiseIf (spec.start < 0 || spec.stop ≤ spec.start)
    (.value "chunk range must satisfy 0 <= start < end")
  raiseIf (spec.start < state.previousEnd)
    (.value "chunk ranges must be ordered and non-overlapping")
  raiseIf (spec.ordinal ≠ none && spec.ordinal ≠ some (state.index : ℤ))
    (.value "chunk ordinals must match stable input order")
  let chunkId ← uuid4Text (spec.uuid.getD (fresh state.drawn)) "SemanticChunk.uuid"
  raiseIf (state.seenUuids.contains chunkId) (.value "each chunk must have a distinct UUID4")
  let chunk ← adapter.fromDict
    { uuid := chunkId
      sourceId
      blockId
      body := spec.body
      text := spec.body
      type := .docBlock
      blockType := .paragraph
      ordinal := state.index
      blockIndex := state.index
      start := spec.start
      stop := spec.stop
      blockMeta := [("chapter_id", .str chapterId)] }
  return { drawn := if spec.uuid.isSome then state.drawn else state.drawn + 1
           index := state.index + 1
           result := state.result ++ [chunk]
           seenUuids := chunkId :: state.seenUuids
           previousEnd := spec.stop }

/-- `build_semantic_chunks`, with the number of identifiers drawn before and after. -/
def buildSemanticChunks (adapter : ChunkAdapter κ) (fresh : ℕ → Uuid) (drawn : ℕ)
    (document : Document) (chapter : Chapter) (paragraph : Paragraph) (specs : List ChunkSpec) :
    Except Refusal (List κ × ℕ) := do
  validateHierarchy document chapter paragraph
  raiseIf specs.isEmpty (.value "a Paragraph must produce at least one chunk")
  let sourceId ← uuid4Text document.id "Document.id"
  let blockId ← uuid4Text paragraph.id "Paragraph.id"
  let chapterId ← uuid4Text chapter.id "Chapter.id"
  let built ← specs.foldlM (buildChunk adapter fresh sourceId blockId chapterId)
    { drawn, index := 0, result := [], seenUuids := [], previousEnd := -1 }
  let chunks ← validateSemanticChunks adapter document chapter paragraph built.result
  return (chunks, built.drawn)

/-! ### The hierarchy -/

/-- The specification of the chunk at an index, behind those collected so far. -/
def collectSpec (adapter : ChunkAdapter κ) (chunks : List κ) (paragraph : ParagraphInput)
    (specs : List ChunkSpec) (index : ℤ) : Except Refusal (List ChunkSpec) :=
  match chunks[index.toNat]? with
  | none => .error .index
  | some chunk => do
    let validated ← adapter.modelValidate chunk
    let payload := adapter.modelDump validated
    match payload.body, payload.start, payload.stop with
    | some body, some start, some stop =>
      raiseIf (start < paragraph.start || paragraph.stop < stop)
        (.hierarchy "chunk range must be within its paragraph")
      return specs ++ [{ body, start, stop, uuid := none, ordinal := some specs.length }]
    | _, _, _ => .error (.hierarchy "chunk body and source range are required")

/-- What the loops have put together. -/
structure Built (κ : Type) where
  drawn : ℕ
  chapters : List Chapter
  paragraphs : List Paragraph
  chunks : List κ
  seenIndexes : List ℤ

/-- What the loop over the paragraphs of a chapter keeps. -/
structure ParagraphState (κ : Type) where
  built : Built κ
  chapter : Chapter
  previousEnd : ℤ

/-- One turn of the loop over the paragraphs of a chapter. -/
def enrichParagraph (adapter : ChunkAdapter κ) (fresh : ℕ → Uuid) (chunks : List κ)
    (document : Document) (chapterInput : ChapterInput) (state : ParagraphState κ)
    (input : ParagraphInput) : Except Refusal (ParagraphState κ) := do
  validateRange input.start input.stop "paragraph"
  raiseIf (input.start < chapterInput.start || chapterInput.stop < input.stop)
    (.hierarchy "paragraph range must be within its chapter")
  raiseIf (input.start < state.previousEnd)
    (.hierarchy "paragraphs must be ordered and non-overlapping")
  raiseIf input.text.isEmpty (.hierarchy "paragraph text must be non-empty")
  raiseIf input.chunkIndexes.isEmpty (.hierarchy "paragraph chunk ownership must be explicit")
  raiseIf (input.chunkIndexes ≠ input.chunkIndexes.insertionSort (· ≤ ·) ||
      input.chunkIndexes.eraseDups.length ≠ input.chunkIndexes.length)
    (.hierarchy "paragraph chunk indexes must be ordered and distinct")
  raiseIf (input.chunkIndexes.any fun index ↦ index < 0 || chunks.length ≤ index)
    (.hierarchy "paragraph chunk index is out of range")
  let paragraph ← newParagraph state.chapter (fresh state.built.drawn) input.text
  let specs ← input.chunkIndexes.foldlM (collectSpec adapter chunks input) []
  let (produced, drawn) ← buildSemanticChunks adapter fresh (state.built.drawn + 1) document
    state.chapter paragraph specs
  return { built :=
             { state.built with
               drawn
               paragraphs := state.built.paragraphs ++ [paragraph]
               chunks := state.built.chunks ++ produced
               seenIndexes := state.built.seenIndexes ++ input.chunkIndexes }
           chapter :=
             { state.chapter with paragraphs := state.chapter.paragraphs ++ [paragraph] }
           previousEnd := input.stop }

/-- What the loop over the chapters keeps. -/
structure ChapterState (κ : Type) where
  built : Built κ
  previousEnd : ℤ

/-- One turn of the loop over the chapters. -/
def enrichChapter (adapter : ChunkAdapter κ) (fresh : ℕ → Uuid) (chunks : List κ)
    (document : Document) (state : ChapterState κ) (input : ChapterInput) :
    Except Refusal (ChapterState κ) := do
  validateRange input.start input.stop "chapter"
  raiseIf (input.start < state.previousEnd)
    (.hierarchy "chapters must be ordered and non-overlapping")
  raiseIf input.paragraphs.isEmpty (.hierarchy "each chapter must contain paragraphs")
  let chapter ← newChapter document (fresh state.built.drawn)
  let last ← input.paragraphs.foldlM (enrichParagraph adapter fresh chunks document input)
    { built := { state.built with drawn := state.built.drawn + 1 }, chapter, previousEnd := -1 }
  -- The source lists the chapter first and fills it afterwards.
  return { built := { last.built with chapters := last.built.chapters ++ [last.chapter] }
           previousEnd := input.stop }

/-- `UUID(str(chunk.uuid))`. -/
def chunkUuid (chunk : ChunkFields) : Except Refusal Uuid :=
  match parseUuid chunk.uuid with
  | none => .error (.value "badly formed hexadecimal UUID string")
  | some uuid => .ok uuid

/-- `enrich_hierarchy`. -/
def enrichHierarchy (adapter : ChunkAdapter κ) (fresh : ℕ → Uuid) (source : Source)
    (chapters : List ChapterInput) (chunks : List κ) :
    Except Refusal (CanonicalIngestionAggregate κ) := do
  validateSource source.uploadId source.version
  validateProvenance source.stateAssertionId source.processingRunId
  raiseIf chunks.isEmpty (.hierarchy "semantic_chunks must not be empty")
  raiseIf chapters.isEmpty (.hierarchy "hierarchy must contain at least one chapter")
  let document ← newDocument (fresh 0)
  let last ← chapters.foldlM (enrichChapter adapter fresh chunks document)
    { built := { drawn := 1, chapters := [], paragraphs := [], chunks := [], seenIndexes := [] }
      previousEnd := -1 }
  let built := last.built
  raiseIf (built.seenIndexes ≠ (List.range chunks.length).map Int.ofNat)
    (.hierarchy "every chunk must have exactly one ordered paragraph owner")
  let chunkIds ← built.chunks.mapM fun chunk ↦ chunkUuid (adapter.fields chunk)
  let provenance : HierarchyProvenance :=
    { sourceUploadId := source.uploadId
      sourceVersion := source.version
      sourceStateAssertionId := source.stateAssertionId
      processingRunId := source.processingRunId }
  let entityIds := [document.id] ++ built.chapters.map Chapter.id ++
    built.paragraphs.map Paragraph.id ++ chunkIds
  return {
    document := { document with chapters := built.chapters }
    chapters := built.chapters
    paragraphs := built.paragraphs
    chunks := built.chunks
    traceability :=
      { sourceUploadId := source.uploadId
        sourceVersion := source.version
        documentId := document.id
        chapterIds := built.chapters.map Chapter.id
        paragraphIds := built.paragraphs.map Paragraph.id
        chunkIds
        entitySource :=
          updateKeys [] (entityIds.map fun id ↦ (id, (source.uploadId, source.version)))
        sourceStateAssertionId := source.stateAssertionId
        processingRunId := source.processingRunId
        entityProvenance := updateKeys [] (entityIds.map fun id ↦ (id, provenance)) } }

end DocStore.Enrichment
