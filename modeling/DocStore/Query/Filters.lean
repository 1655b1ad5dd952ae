import DocStore.Domain.Embeddings
import DocStore.Domain.Host
import Mathlib.Algebra.Group.Int.Defs

/-!
# Queries and their filters

`compileQuery` turns the fields of a query into a plan: a mode, the bound predicates and the window.
An executor looks the field of every predicate up among its columns, binds the value and selects the
chunks for which the clauses hold. What is shown of a chunk is built from the same row by
`chunkPayloadFromRow`.

The field list of the public chunk, the way the driver reads a UUID and the text that `->>` makes of a
value that is not a string are parameters.
-/

set_option autoImplicit false
set_option relaxedAutoImplicit false

namespace DocStore

open Foundation

/-! ### Queries -/

/-- A value that a query gives to a field. The value of an enumeration is its text. -/
inductive FilterValue where
  | text (value : Text)
  | integer (value : ℤ)
  | float (value : ℚ)
  | bool (value : Bool)
  | strings (items : List Text)
  | mapping (fields : Dict)

/-- A value as JSON. -/
def FilterValue.json : FilterValue → Json
  | .text value => .str value
  | .integer value => .num value
  | .float value => .num value
  | .bool value => .bool value
  | .strings items => .arr (items.map Json.str)
  | .mapping fields => .obj fields

/-- `embedding`: one vector, or several. -/
inductive QueryEmbedding where
  | single (vector : Vector)
  | rows (vectors : List Vector)
deriving DecidableEq

/-- `_TEXT_FIELDS`, which the search fields default to. -/
def textFields : List String := ["body", "text", "summary", "title"]

/-- A `ChunkQuery`, validated: the fields of a chunk that hold a value, and the controls. A window
number is missing when the query does not have it, and not a number when `int` does not take it. -/
structure ChunkQuery where
  fields : List (String × FilterValue) := []
  filterExpr : Option Text := none
  searchQuery : Option Text := none
  searchFields : List String := textFields
  embedding : Option QueryEmbedding := none
  hybridSearch : Bool := false
  bm25K1 : Option ℚ := none
  bm25B : Option ℚ := none
  bm25Weight : Option ℚ := none
  semanticWeight : Option ℚ := none
  minScore : Option ℚ := none
  maxResults : Option ℕ := none
  maxResultsProvided : Bool := false
  limit : Option (Option ℤ) := none
  offset : Option (Option ℤ) := none

/-- The field lists of the public models: the fields of a query, and those of a chunk that are
neither controls nor the embedding. -/
structure QuerySchema where
  queryFields : List String
  filterFields : List String

/-- What `compile_query` raises. -/
inductive QueryError where
  | contract (message : String)
  | field (message : String)
  | mode (message : String)
  | predicate (message : String)
deriving DecidableEq, Repr

/-- `ExecutionMode`. -/
inductive ExecutionMode where
  | structured
  | fullText
  | semantic
  | hybrid
deriving DecidableEq, Repr

/-- The two operators that the compiler emits, `=` and `@>`. -/
inductive PredicateOperator where
  | equals
  | contains
deriving DecidableEq, Repr

/-- `BoundPredicate`. The parameter is the number behind `p`. -/
structure BoundPredicate where
  column : String
  operator : PredicateOperator
  value : FilterValue
  parameter : ℕ

/-- `ExecutionPlan`. -/
structure ExecutionPlan where
  mode : ExecutionMode
  predicates : List BoundPredicate := []
  text : Option Text := none
  searchFields : List String := []
  embedding : Option QueryEmbedding := none
  bm25K1 : Option ℚ := none
  bm25B : Option ℚ := none
  bm25Weight : Option ℚ := none
  semanticWeight : Option ℚ := none
  minScore : Option ℚ := none
  limit : Option ℕ := none
  offset : ℕ := 0
  orderBy : List String := []

/-! ### Compiling -/

/-- `_bounded_int`. -/
def boundedInt (value : Option ℤ) (name : String) (minimum maximum : ℕ) : Except QueryError ℕ :=
  match value with
  | none => .error (.contract (name ++ " must be an integer"))
  | some parsed => do
    raiseIf (parsed < minimum || (maximum : ℤ) < parsed) (.contract
      (name ++ " must be between " ++ toString minimum ++ " and " ++ toString maximum))
    return parsed.toNat

/-- `_limit`. -/
def compileLimit (query : ChunkQuery) : Except QueryError (Option ℕ) :=
  match query.limit with
  | none => .ok query.maxResults
  | some value => do
    let limit ← boundedInt value "limit" 1 1000
    raiseIf (query.maxResultsProvided && query.maxResults.any (· ≠ limit))
      (.contract "limit and max_results must match when both are provided")
    return some limit

/-- `_offset`. -/
def compileOffset (query : ChunkQuery) : Except QueryError ℕ :=
  match query.offset with
  | none => .ok 0
  | some value => boundedInt value "offset" 0 100000

/-- The predicate of one field. -/
def boundPredicate (field : String) (value : FilterValue) : Except QueryError BoundPredicate :=
  if field = "block_meta" then
    match value with
    | .mapping _ => .ok { column := field, operator := .contains, value, parameter := 0 }
    | _ => .error (.predicate "block_meta requires an object")
  else
    match value with
    | .mapping _ => .error (.predicate ("boolean/operator AST is not accepted for " ++ field))
    | .strings _ => .ok
      { column := field
        operator := if field ∈ ["tags", "links"] then .contains else .equals
        value
        parameter := 0 }
    | value =>
      if field ∈ ["tags", "links"] then
        .error (.predicate (field ++ " requires a sequence of strings"))
      else .ok { column := field, operator := .equals, value, parameter := 0 }

/-- `_compile_predicates`. -/
def compilePredicates (schema : QuerySchema) (query : ChunkQuery) :
    Except QueryError (List BoundPredicate) := do
  let fields := schema.filterFields.insertionSort fun first second ↦ first.toList ≤ second.toList
  let provided := fields.filterMap fun field ↦
    (getKey query.fields field).map fun value ↦ (field, value)
  let predicates ← provided.mapM fun entry ↦ boundPredicate entry.1 entry.2
  return predicates.mapIdx fun index predicate ↦ { predicate with parameter := index }

/-- `compile_query`. -/
def compileQuery (schema : QuerySchema) (query : ChunkQuery) : Except QueryError ExecutionPlan := do
  let unknown := (query.fields.map Prod.fst).filter fun field ↦ field ∉ schema.queryFields
  raiseIf (!unknown.isEmpty) (.field ("unknown ChunkQuery fields: " ++ ", ".intercalate unknown))
  raiseIf query.filterExpr.isSome
    (.predicate "filter_expr is adapter-owned and cannot be executed")
  let hasText := query.searchQuery.any fun text ↦ !(strip text).isEmpty
  let hasEmbedding := query.embedding.isSome
  raiseIf (query.hybridSearch && !(hasText && hasEmbedding))
    (.mode "hybrid_search requires both search_query and embedding")
  let mode : ExecutionMode :=
    if hasText && hasEmbedding then .hybrid
    else if hasText then .fullText
    else if hasEmbedding then .semantic
    else .structured
  raiseIf (query.searchFields.any fun field ↦ field ∉ textFields)
    (.field "search_fields may contain only body, text, summary, or title")
  let predicates ← compilePredicates schema query
  let limit ← compileLimit query
  let offset ← compileOffset query
  let ranksTexts := mode = .fullText || mode = .hybrid
  return { mode
           predicates
           text := if hasText then query.searchQuery else none
           searchFields := query.searchFields
           embedding := query.embedding
           bm25K1 := if ranksTexts then query.bm25K1 else none
           bm25B := if ranksTexts then query.bm25B else none
           bm25Weight := if mode = .hybrid then query.bm25Weight else none
           semanticWeight := if mode = .hybrid then query.semanticWeight else none
           minScore := if mode = .structured then none else query.minScore
           limit
           offset }

/-- A compiled plan has no order of its own. -/
theorem orderBy_of_compileQuery {schema : QuerySchema} {query : ChunkQuery} {plan : ExecutionPlan}
    (hplan : compileQuery schema query = .ok plan) : plan.orderBy = [] := by
  rw [compileQuery] at hplan
  obtain ⟨-, hplan⟩ := raiseIf_bind_eq_ok.mp hplan
  obtain ⟨-, hplan⟩ := raiseIf_bind_eq_ok.mp hplan
  obtain ⟨-, hplan⟩ := raiseIf_bind_eq_ok.mp hplan
  obtain ⟨-, hplan⟩ := raiseIf_bind_eq_ok.mp hplan
  obtain ⟨predicates, -, hplan⟩ := bind_eq_ok.mp hplan
  obtain ⟨limit, -, hplan⟩ := bind_eq_ok.mp hplan
  obtain ⟨offset, -, hplan⟩ := bind_eq_ok.mp hplan
  cases hplan
  rfl

/-! ### What a search reads -/

/-- What a search takes from its surroundings. -/
structure SearchHost where
  /-- The UUID that the driver reads a text as. -/
  parseUuid : Text → Option Uuid
  /-- The text that `->>` makes of a value that is neither a string nor `null`. -/
  jsonText : Json → Text
  /-- Whether `SemanticChunk.from_dict_with_autofill_and_validation` takes a payload. -/
  acceptsPayload : Dict → Bool

/-- The tables with the columns that only queries read. The dictionaries are named by the columns of
a chunk and by its assignments, which win. -/
structure SearchDb (ν : Type) extends VectorDb ν where
  documentTitle : Uuid → Text
  documentCreatedAt : Uuid → Instant
  chunkScore : Uuid → Option ℚ := fun _ ↦ none
  searchWeight : Uuid → ℤ := fun _ ↦ 1
  chunkEntry : DictionaryTable → Uuid → Option Uuid := fun _ _ ↦ none
  assignedEntry : DictionaryTable → Uuid → Option Uuid := fun _ _ ↦ none
  descr : DictionaryTable → Uuid → Option Text := fun _ _ ↦ none

/-- A row of `semantic_chunks`, joined with its text, its document and its classifiers. -/
structure SearchRow where
  chunk : SemanticChunkRow
  text : Text
  title : Text
  score : Option ℚ
  searchWeight : ℤ
  classifier : DictionaryTable → Option Text

/-- `COALESCE(ct.descr, sc.chunk_type, 'DocBlock')`. -/
def SearchRow.typeDescr (row : SearchRow) : Text :=
  (row.classifier .chunkTypes).getD row.chunk.chunkType

variable {ν : Type}

/-- `LEFT JOIN` of a dictionary over `COALESCE(assignment, column)`. -/
def SearchDb.classifier (store : SearchDb ν) (chunkUuid : Uuid) (table : DictionaryTable) :
    Option Text :=
  ((store.assignedEntry table chunkUuid).or (store.chunkEntry table chunkUuid)).bind
    (store.descr table)

/-- The join of one chunk with its text and its document. -/
def SearchDb.joined (store : SearchDb ν) (chunk : SemanticChunkRow) : Option SearchRow :=
  (lookup SemanticChunkText.chunkUuid chunk.id store.semanticChunkTexts).bind fun payload ↦
    (lookup (fun row : DocumentRow ↦ row.id) chunk.documentId store.documents).map fun document ↦
      { chunk
        text := payload.text
        title := store.documentTitle document.id
        score := store.chunkScore chunk.id
        searchWeight := store.searchWeight chunk.id
        classifier := store.classifier chunk.id }

/-- The joined rows with `sc.deleted_at IS NULL`. -/
def SearchDb.liveRows (store : SearchDb ν) : List SearchRow :=
  (store.semanticChunks.filter fun chunk ↦ chunk.deletedAt.isNone).filterMap store.joined

/-! ### Columns -/

/-- The type of a column, with the width of an integer. -/
inductive SqlType where
  | uuid
  | integer (bits : ℕ)
  | float
  | text
  | jsonb
deriving DecidableEq, Repr

/-- A value of a column. -/
inductive SqlValue where
  | uuid (value : Uuid)
  | integer (value : ℤ)
  | float (value : ℚ)
  | text (value : Text)
deriving DecidableEq

/-- The expressions that the predicate maps name. -/
inductive SqlColumn where
  | id
  | documentId
  | paragraphId
  | chapterId
  | orderIndex
  | sourceStart
  | sourceEnd
  | charCount
  | chunkType
  | score
  | searchWeight
  | text
  | title
  | typeDescr
  | classifier (table : DictionaryTable)
  | blockMeta
  | metadataText (key : String)
  | metadataJson (key : String)
deriving DecidableEq, Repr

/-- The type of an expression. -/
def SqlColumn.type : SqlColumn → SqlType
  | id => .uuid
  | documentId => .uuid
  | paragraphId => .uuid
  | chapterId => .uuid
  | orderIndex => .integer 32
  | sourceStart => .integer 64
  | sourceEnd => .integer 64
  | charCount => .integer 32
  | score => .float
  | searchWeight => .integer 32
  | chunkType => .text
  | text => .text
  | title => .text
  | typeDescr => .text
  | classifier _ => .text
  | metadataText _ => .text
  | blockMeta => .jsonb
  | metadataJson _ => .jsonb

/-- `block_meta ->> key`. -/
def SearchHost.extractText (host : SearchHost) (fields : Dict) (key : String) : Option Text :=
  match getKey fields key with
  | none => none
  | some .null => none
  | some (.str text) => some text
  | some value => some (host.jsonText value)

/-- The value of an expression that is not JSON. -/
def SqlColumn.value (host : SearchHost) (row : SearchRow) : SqlColumn → Option SqlValue
  | id => some (.uuid row.chunk.id)
  | documentId => some (.uuid row.chunk.documentId)
  | paragraphId => some (.uuid row.chunk.paragraphId)
  | chapterId => some (.uuid row.chunk.chapterId)
  | orderIndex => some (.integer row.chunk.orderIndex)
  | sourceStart => some (.integer row.chunk.sourceStart)
  | sourceEnd => some (.integer row.chunk.sourceEnd)
  | charCount => some (.integer row.chunk.charCount)
  | score => row.score.map .float
  | searchWeight => some (.integer row.searchWeight)
  | chunkType => some (.text row.chunk.chunkType)
  | text => some (.text row.text)
  | title => some (.text row.title)
  | typeDescr => some (.text row.typeDescr)
  | classifier table => (row.classifier table).map .text
  | metadataText key => (host.extractText row.chunk.blockMeta key).map .text
  | blockMeta => none
  | metadataJson _ => none

/-- The value of a JSON expression. -/
def SqlColumn.json (row : SearchRow) : SqlColumn → Option Json
  | blockMeta => some (.obj row.chunk.blockMeta)
  | metadataJson key => getKey row.chunk.blockMeta key
  | _ => none

/-- What all three copies of `_PREDICATE_COLUMNS` list. -/
def baseColumns : List (String × SqlColumn) :=
  [("uuid", .id), ("document_id", .documentId), ("paragraph_id", .paragraphId),
    ("chapter_id", .chapterId), ("ordinal", .orderIndex), ("order_index", .orderIndex),
    ("source_start", .sourceStart), ("source_end", .sourceEnd), ("char_count", .charCount),
    ("chunk_type", .chunkType), ("score", .score), ("search_weight", .searchWeight),
    ("block_meta", .blockMeta), ("project", .metadataText "project"),
    ("source", .metadataText "source"), ("source_id", .documentId), ("block_id", .paragraphId),
    ("body", .text), ("text", .text), ("summary", .metadataText "summary"), ("title", .title),
    ("type", .typeDescr), ("role", .classifier .chunkRoles), ("status", .classifier .chunkStatuses),
    ("block_type", .classifier .blockTypes), ("language", .classifier .languages),
    ("category", .classifier .categories)]

/-- `_METADATA_FIELDS` of the structured search. -/
def structuredMetadataFields : List String :=
  ["block_id", "block_index", "block_meta", "boundary_next", "boundary_prev", "chunking_version",
    "cohesion", "coverage", "created_at", "embedding_model", "end", "feedback_accepted",
    "feedback_modifications", "feedback_rejected", "is_code_chunk", "is_public", "link_parent",
    "link_related", "metrics", "sha256", "source_lines_end", "source_lines_start", "source_path",
    "start", "subtask_id", "tags_flat", "task_id", "unit_id", "used_in_generation", "year",
    "quality_score"]

/-- `_METADATA_FIELDS` of the full-text and of the semantic search. -/
def searchMetadataFields : List String :=
  structuredMetadataFields ++ ["block_type", "category", "language", "role", "status", "type"]

/-- The three executors. -/
inductive Executor where
  | fullText
  | semantic
  | structured
deriving DecidableEq, Repr

/-- The metadata fields of an executor. -/
def Executor.metadataFields : Executor → List String
  | fullText => searchMetadataFields
  | semantic => searchMetadataFields
  | structured => structuredMetadataFields

/-- `_PREDICATE_COLUMNS.get`, and what stands in for a field that is not there. A metadata field does
not replace a column that is listed. -/
def predicateColumn (metadataFields : List String) (field : String) : Option SqlColumn :=
  ((getKey baseColumns field).or
    (if field ∈ metadataFields then some (.metadataText field) else none)).or
      (if field ∈ ["tags", "links", "block_meta"] then some (.metadataJson field) else none)

/-! ### Clauses -/

/-- What a search raises: a plan for another mode or without what it needs, a field without a text
to search, a predicate without a column, a value that the driver or the server does not take for a
column, an embedding response that does not fit, and a row that is no result. -/
inductive SearchError where
  | nonSemanticPlan
  | nonFullTextPlan
  | fullText (message : String)
  | textField (field : String)
  | embedding (message : String)
  | unsupportedPredicate (field : String)
  | data (field : String)
  | malformedRow
deriving DecidableEq, Repr

/-- A condition with its bound value. -/
inductive Clause where
  | equals (column : SqlColumn) (value : SqlValue)
  | contains (column : SqlColumn) (part : Json)

/-- How a value is bound for a column of a type. -/
def bindValue (host : SearchHost) : SqlType → FilterValue → Option SqlValue
  | .uuid, .text value => (host.parseUuid value).map .uuid
  | .integer bits, .integer value =>
    if -2 ^ (bits - 1) ≤ value ∧ value < 2 ^ (bits - 1) then some (.integer value) else none
  | .float, .integer value => some (.float value)
  | .float, .float value => some (.float value)
  | .text, .text value => some (.text value)
  | _, _ => none

/-- `column operator value`, or nothing when the types do not fit. -/
def SqlColumn.clause (host : SearchHost) (column : SqlColumn) (predicate : BoundPredicate) :
    Option Clause :=
  match predicate.operator with
  | .equals => (bindValue host column.type predicate.value).map (.equals column)
  | .contains => if column.type = .jsonb then some (.contains column predicate.value.json) else none

/-- The clause of one predicate. -/
def predicateClause (host : SearchHost) (metadataFields : List String)
    (predicate : BoundPredicate) : Except SearchError Clause :=
  match predicateColumn metadataFields predicate.column with
  | none => .error (.unsupportedPredicate predicate.column)
  | some column =>
    match column.clause host predicate with
    | none => .error (.data predicate.column)
    | some clause => .ok clause

/-- `_predicate_sql`, with the values bound. -/
def predicateSql (host : SearchHost) (metadataFields : List String)
    (predicates : List BoundPredicate) : Except SearchError (List Clause) :=
  predicates.mapM (predicateClause host metadataFields)

mutual

/-- `whole @> part`. -/
def Json.contains (whole : Json) : Json → Bool
  | .obj fields =>
    match whole with
    | .obj wholeFields => containsFields wholeFields fields
    | _ => false
  | .arr items =>
    match whole with
    | .arr wholeItems => containsItems wholeItems items
    | _ => false
  | .null => whole = .null
  | .bool value => whole = .bool value
  | .num value => whole = .num value
  | .str value => whole = .str value

/-- Containment of objects. -/
def containsFields (whole : Dict) : Dict → Bool
  | [] => true
  | (key, part) :: rest =>
    (match getKey whole key with
      | some found => found.contains part
      | none => false) && containsFields whole rest

/-- Containment of arrays. -/
def containsItems (whole : List Json) : List Json → Bool
  | [] => true
  | part :: rest => (whole.any fun item ↦ item.contains part) && containsItems whole rest

end

/-- Whether a clause holds for a row. -/
def Clause.holds (host : SearchHost) (row : SearchRow) : Clause → Bool
  | .equals column value => column.value host row = some value
  | .contains column part => (column.json row).any fun whole ↦ whole.contains part

/-- Whether all clauses hold. -/
def selectedBy (host : SearchHost) (clauses : List Clause) (row : SearchRow) : Bool :=
  clauses.all fun clause ↦ clause.holds host row

/-! ### Payloads -/

/-- `chunk_type_descr or chunk_type or "DocBlock"`. -/
def shownType (row : SearchRow) : Text :=
  if row.typeDescr ≠ [] then row.typeDescr
  else if row.chunk.chunkType ≠ [] then row.chunk.chunkType
  else lit "DocBlock"

/-- The classifiers of a payload. -/
def shownClassifiers (row : SearchRow) : List (String × Option Text) :=
  [("type", some (shownType row)), ("role", row.classifier .chunkRoles),
    ("status", row.classifier .chunkStatuses), ("block_type", row.classifier .blockTypes),
    ("language", row.classifier .languages), ("category", row.classifier .categories)]

/-- The metadata of a payload: those of the row, with the classifiers that there are. -/
def shownMetadata (row : SearchRow) : Dict :=
  updateKeys row.chunk.blockMeta ((shownClassifiers row).filterMap fun entry ↦
    entry.2.map fun value ↦ (entry.1, .str value))

/-- `chunk_payload_from_row`. -/
def chunkPayloadFromRow (row : SearchRow) : Dict :=
  [("uuid", .str (uuidText row.chunk.id)), ("source_id", .str (uuidText row.chunk.documentId)),
    ("block_id", .str (uuidText row.chunk.paragraphId)), ("type", .str (shownType row)),
    ("role", .ofOption (row.classifier .chunkRoles)),
    ("status", .ofOption (row.classifier .chunkStatuses)),
    ("block_type", .ofOption (row.classifier .blockTypes)),
    ("language", .ofOption (row.classifier .languages)),
    ("category", .ofOption (row.classifier .categories)), ("body", .str row.text),
    ("text", .str row.text), ("ordinal", .num row.chunk.orderIndex),
    ("start", .num row.chunk.sourceStart), ("end", .num row.chunk.sourceEnd),
    ("block_meta", .obj (shownMetadata row))]

end DocStore
