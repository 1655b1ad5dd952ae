import DocStore.Domain.TextOrder
import DocStore.Foundation.Ordinals
import DocStore.Ingestion.Publication
import Mathlib.Data.Prod.Lex
import Mathlib.Order.WithBot

/-!
# The mapper of semantic chunks

`toRows` takes the payload that the adapter serializes for a chunk apart into one root row, the
metrics and the feedback, and the rows of the child tables, and `fromRows` puts the payload together
again that the adapter builds a chunk of. The adapter itself is not kept here: a payload is the dict
that `serialize_semantic_chunk` returns, or the one that `deserialize_semantic_chunk` is given.

A row has the columns that the mapper writes or reads. The columns of the metrics and of the
feedback keep what the payload says of them.
-/

set_option autoImplicit false
set_option relaxedAutoImplicit false

namespace DocStore.SemanticChunkMapper

open Foundation

/-! ### Failures and values -/

/-- What the mapper raises: a `ValueError`, a `TypeError`, a `KeyError` or an `AttributeError`. -/
inductive MapperError where
  | value (message : String)
  | type (message : String)
  | key (name : String)
  | attribute (message : String)
deriving DecidableEq, Repr

/-- The numbers that `int` and `float` read from a text. -/
structure Numerals where
  int : Text → Option ℤ
  float : Text → Option ℚ

/-- `payload[key]`. -/
def item (payload : Dict) (key : String) : Except MapperError Json :=
  match getKey payload key with
  | some value => .ok value
  | none => .error (.key key)

/-- `payload.get(key)`. -/
def field (payload : Dict) (key : String) : Json := (getKey payload key).getD .null

/-- `value or default`. -/
def orElse (value default : Json) : Json := if truthy value then value else default

/-- `_uuid`. -/
def uuidField (host : Host) (value : Json) (name : String) : Except MapperError Uuid :=
  match parseUuid (host.strOf value) with
  | some id => .ok id
  | none => .error (.value s!"{name} must be a UUID")

/-- `int(value)`. -/
def toInt (numerals : Numerals) : Json → Except MapperError ℤ
  | .bool value => .ok (if value then 1 else 0)
  | .num value => .ok (value.num.tdiv value.den)
  | .str text =>
    match numerals.int text with
    | some value => .ok value
    | none => .error (.value "invalid literal for int() with base 10")
  | _ => .error (.type "int() argument must be a string, a bytes-like object or a real number")

/-- `float(value)`. -/
def toFloat (numerals : Numerals) : Json → Except MapperError ℚ
  | .bool value => .ok (if value then 1 else 0)
  | .num value => .ok value
  | .str text =>
    match numerals.float text with
    | some value => .ok value
    | none => .error (.value "could not convert string to float")
  | _ => .error (.type "float() argument must be a string or a real number")

/-- The items that a loop over a value takes. -/
def iterate : Json → Except MapperError (List Json)
  | .arr items => .ok items
  | .str text => .ok (text.map fun character ↦ .str [character])
  | .obj fields => .ok (fields.map fun entry ↦ .str (lit entry.1))
  | _ => .error (.type "object is not iterable")

/-- `isinstance(value, Mapping)`. -/
def isMapping : Json → Bool
  | .obj _ => true
  | _ => false

/-! ### Rows -/

/-- A row of `semantic_chunks`. -/
structure RootRow where
  id : Uuid
  documentId : Uuid
  paragraphId : Uuid
  chapterId : Uuid
  orderIndex : ℤ
  text : Text
  sourceStart : ℤ
  sourceEnd : ℤ
  charCount : ℕ
  chunkType : Json
  score : Json
  searchWeight : ℕ
  blockMeta : Dict
deriving DecidableEq

/-- The metrics of a chunk. -/
structure MetricsRow where
  chunkUuid : Uuid
  columns : Dict
deriving DecidableEq

/-- The feedback on a chunk. -/
structure FeedbackRow where
  chunkUuid : Uuid
  columns : Dict
deriving DecidableEq

structure TokenRow where
  chunkUuid : Uuid
  tokenKind : String
  ordinal : ℤ
  tokenValue : Text
deriving DecidableEq

structure TagRow where
  chunkUuid : Uuid
  ordinal : ℤ
  tagValue : Text
deriving DecidableEq

structure LinkRow where
  sourceChunkUuid : Uuid
  relationType : Text
  targetChunkUuid : Uuid
  ordinal : ℤ
  relationData : Dict
deriving DecidableEq

/-- A vector. It has a UUID once it is stored. -/
structure EmbeddingRow where
  id : Option Uuid := none
  chunkUuid : Uuid
  vector : List ℚ
  model : Text
  dimension : ℤ
  provider : Text
  modelVersion : Text
  createdAt : Option Instant
  active : Bool
deriving DecidableEq

/-- `BlockMetaParts`, with the chunk they belong to. -/
structure BlockMetaRow where
  chunkUuid : Uuid
  promoted : Dict
  extensions : Dict
deriving DecidableEq

/-- The rows of one chunk. -/
structure SemanticChunkRows where
  root : RootRow
  metrics : Option MetricsRow
  feedback : Option FeedbackRow
  tokens : List TokenRow
  tags : List TagRow
  links : List LinkRow
  embeddings : List EmbeddingRow
  blockMeta : BlockMetaRow
deriving DecidableEq

/-! ### Metadata -/

/-- `KNOWN_BLOCK_META_KEYS`, a set whose order does not matter. -/
def knownBlockMetaKeys : List String :=
  ["parent_id", "parent_type", "source_start", "source_end", "markup", "list_level",
    "heading_level", "aggregation"]

/-- The known keys of `split_block_meta`. -/
def promotedMeta (blockMeta : Dict) : Dict :=
  knownBlockMetaKeys.filterMap fun key ↦ (getKey blockMeta key).map (Prod.mk key)

/-- The other keys of `split_block_meta`. -/
def extensionMeta (blockMeta : Dict) : Dict :=
  blockMeta.filter fun entry ↦ !knownBlockMetaKeys.contains entry.1

/-- `merge_block_meta`. -/
def mergeBlockMeta (promoted extensions : Dict) : Dict :=
  updateKeys extensions (promoted.filter fun entry ↦ knownBlockMetaKeys.contains entry.1)

/-! ### From a payload to rows -/

/-- `_METRIC_ALIAS_FIELDS`. -/
def metricAliasFields : List String :=
  ["quality_score", "coverage", "cohesion", "boundary_prev", "boundary_next", "used_in_generation"]

/-- The columns of the metrics. -/
def metricKeys : List String :=
  ["quality_score", "coverage", "cohesion", "boundary_prev", "boundary_next", "matches",
    "used_in_generation", "used_as_input", "used_as_context"]

/-- The columns of the feedback, each with its alias in the payload. -/
def feedbackAliases : List (String × String) :=
  [("accepted", "feedback_accepted"), ("rejected", "feedback_rejected"),
    ("modifications", "feedback_modifications")]

/-- `TOKEN_KINDS`. -/
def tokenKinds : List String := ["tokens", "bm25_tokens"]

/-- The values of a dict under some keys. -/
def columnsOf (keys : List String) (values : Dict) : Dict :=
  keys.map fun key ↦ (key, field values key)

/-- `_assert_matching_alias`. -/
def assertMatchingAlias (payload : Dict) (key : String) (canonical : Json) :
    Except MapperError Unit :=
  raiseIf (field payload key ≠ .null && canonical ≠ .null &&
    !(field payload key).same canonical) (.value s!"conflicting compatibility alias: {key}")

/-- The `block_meta` of a payload. -/
def blockMetaOf (payload : Dict) : Except MapperError Dict :=
  match orElse (field payload "block_meta") (.obj []) with
  | .obj blockMeta => .ok blockMeta
  | _ => .error (.type "SemanticChunk.block_meta must be a mapping")

/-- What the metadata name as the chapter. -/
def chapterOf (blockMeta : Dict) : Json :=
  (getKey (extensionMeta blockMeta) "chapter_id").getD (field (promotedMeta blockMeta) "parent_id")

/-- The `root` of `to_rows`. -/
def rootRow (host : Host) (numerals : Numerals) (payload : Dict) : Except MapperError RootRow := do
  let chunkId ← uuidField host (← item payload "uuid") "SemanticChunk.uuid"
  let blockMeta ← blockMetaOf payload
  raiseIf (chapterOf blockMeta = .null)
    (.value "SemanticChunk.block_meta must identify chapter_id")
  let documentId ← uuidField host (← item payload "source_id") "SemanticChunk.source_id"
  let paragraphId ← uuidField host (← item payload "block_id") "SemanticChunk.block_id"
  let chapterId ← uuidField host (chapterOf blockMeta) "SemanticChunk.block_meta.chapter_id"
  let orderIndex ← toInt numerals ((getKey payload "ordinal").getD (.num 0))
  let body ← item payload "body"
  let sourceStart ← toInt numerals (orElse (field payload "start") (.num 0))
  let sourceEnd ← toInt numerals (orElse (field payload "end") (.num 0))
  return {
    id := chunkId
    documentId
    paragraphId
    chapterId
    orderIndex
    text := host.strOf body
    sourceStart
    sourceEnd
    charCount := (host.strOf body).length
    chunkType := field payload "type"
    score := field payload "score"
    searchWeight := 1
    blockMeta }

/-- The `feedback` of `to_rows`. -/
def feedbackRow (chunkId : Uuid) (payload metrics : Dict) :
    Except MapperError (Option FeedbackRow) :=
  match field metrics "feedback" with
  | .null => .ok none
  | value => do
    feedbackAliases.forM fun entry ↦
      assertMatchingAlias payload entry.2 (field (asMapping value) entry.1)
    return some ⟨chunkId, columnsOf (feedbackAliases.map Prod.fst) (asMapping value)⟩

/-- The `metrics` and the `feedback` of `to_rows`. -/
def metricRows (chunkId : Uuid) (payload : Dict) :
    Except MapperError (Option MetricsRow × Option FeedbackRow) :=
  match field payload "metrics" with
  | .null => .ok (none, none)
  | value => do
    metricAliasFields.forM fun key ↦
      assertMatchingAlias payload key (field (asMapping value) key)
    let feedback ← feedbackRow chunkId payload (asMapping value)
    return (some ⟨chunkId, columnsOf metricKeys (asMapping value)⟩, feedback)

/-- The tokens of a kind. -/
def tokenTexts (host : Host) (payload : Dict) (kind : String) :
    Except MapperError (List Text) := do
  match orElse (field payload "metrics") (.obj []) with
  | .obj metrics => return (← iterate (orElse (field metrics kind) (.arr []))).map host.strOf
  | _ => .error (.attribute "object has no attribute 'get'")

/-- The `tokens` of `to_rows`. -/
def tokenRows (host : Host) (chunkId : Uuid) (payload : Dict) :
    Except MapperError (List TokenRow) := do
  let rows ← tokenKinds.mapM fun kind ↦ do
    return enumerate (TokenRow.mk chunkId kind) (← tokenTexts host payload kind)
  return rows.flatten

/-- The texts of the tags. -/
def tagTexts (host : Host) (payload : Dict) : Except MapperError (List Text) := do
  return (← iterate (orElse (field payload "tags") (.arr []))).map host.strOf

/-- The `tags` of `to_rows`. -/
def tagRows (host : Host) (chunkId : Uuid) (payload : Dict) : Except MapperError (List TagRow) := do
  return enumerate (TagRow.mk chunkId) (← tagTexts host payload)

/-- The relation and the target of a link, `value.split(":", 1)`. -/
def linkOf (host : Host) : Json → Except MapperError (Text × Uuid)
  | .str text => do
    raiseIf (!text.contains ':') (.value "links must use relation:uuid format")
    let target ← uuidField host (.str ((text.dropWhile (· ≠ ':')).drop 1)) "link target"
    return (text.takeWhile (· ≠ ':'), target)
  | _ => .error (.value "links must use relation:uuid format")

/-- The `links` of `to_rows`. -/
def linkRows (host : Host) (chunkId : Uuid) (payload : Dict) :
    Except MapperError (List LinkRow) := do
  let links ← (← iterate (orElse (field payload "links") (.arr []))).mapM (linkOf host)
  return enumerate (fun ordinal link ↦ LinkRow.mk chunkId link.1 link.2 ordinal []) links

/-- The keyword arguments of `to_rows`. -/
structure EmbeddingArguments where
  provider : Text := []
  modelVersion : Text := []
  createdAt : Option Instant := none
  active : Bool := true

/-- The `embeddings` of `to_rows`. -/
def embeddingRows (host : Host) (numerals : Numerals) (arguments : EmbeddingArguments)
    (chunkId : Uuid) (payload : Dict) : Except MapperError (List EmbeddingRow) :=
  if field payload "embedding" = .null ∧ field payload "embedding_model" = .null then .ok []
  else do
    raiseIf (field payload "embedding" = .null || !truthy (field payload "embedding_model"))
      (.value "embedding and embedding_model must be supplied together")
    let vector ← (← iterate (field payload "embedding")).mapM (toFloat numerals)
    return [{
      chunkUuid := chunkId
      vector
      model := host.strOf (field payload "embedding_model")
      dimension := vector.length
      provider := arguments.provider
      modelVersion := arguments.modelVersion
      createdAt := arguments.createdAt
      active := arguments.active }]

/-- `to_rows`. -/
def toRows (host : Host) (numerals : Numerals) (arguments : EmbeddingArguments) (payload : Dict) :
    Except MapperError SemanticChunkRows := do
  let root ← rootRow host numerals payload
  let metrics ← metricRows root.id payload
  let tokens ← tokenRows host root.id payload
  let tags ← tagRows host root.id payload
  let links ← linkRows host root.id payload
  let embeddings ← embeddingRows host numerals arguments root.id payload
  return {
    root
    metrics := metrics.1
    feedback := metrics.2
    tokens
    tags
    links
    embeddings
    blockMeta := ⟨root.id, promotedMeta root.blockMeta, extensionMeta root.blockMeta⟩ }

/-! ### From rows to a payload -/

/-- `_ordered`. -/
def orderedRows {ρ : Type} (ordinal : ρ → ℤ) (rows : List ρ) : Except MapperError (List ρ) :=
  match ordered ordinal rows with
  | .ok rows => .ok rows
  | .error (.invalid number) => .error (.value s!"invalid or duplicate ordinal: {number}")
  | .error .gap => .error (.value "ordinal values must be contiguous from zero")

/-- The check that the rows of a collection belong to the chunk. -/
def checkOwner {ρ : Type} (collection : String) (owner : ρ → Uuid) (chunkId : Uuid)
    (rows : List ρ) : Except MapperError Unit :=
  raiseIf (rows.any fun row ↦ owner row ≠ chunkId)
    (.value s!"{collection} row has invalid child ownership")

/-- The check of the kinds of the tokens. -/
def checkKinds (tokens : List TokenRow) : Except MapperError Unit :=
  match tokens.find? fun row ↦ !tokenKinds.contains row.tokenKind with
  | some row => .error (.value s!"unknown token kind: {row.tokenKind}")
  | none => .ok ()

/-- The texts of the tokens, by their kinds. -/
def orderedTokens (tokens : List TokenRow) : Except MapperError Dict :=
  tokenKinds.mapM fun kind ↦ do
    let rows ← orderedRows TokenRow.ordinal (tokens.filter fun row ↦ row.tokenKind = kind)
    return (kind, .arr (rows.map fun row ↦ .str row.tokenValue))

/-- The metrics of the payload. -/
def metricsPayload (rows : SemanticChunkRows) (chunkId : Uuid) (tokens : Dict) :
    Except MapperError (Option Dict) :=
  match rows.metrics, rows.feedback with
  | none, _ => .ok none
  | some metrics, none => .ok (some (updateKeys metrics.columns tokens))
  | some metrics, some feedback => do
    raiseIf (feedback.chunkUuid ≠ chunkId) (.value "feedback row has invalid child ownership")
    return some (updateKeys (setKey metrics.columns "feedback" (.obj feedback.columns)) tokens)

/-- What the vectors are compared by: the time of creation, and the UUID as a text. -/
def recency (row : EmbeddingRow) : WithBot Instant ×ₗ TextKey :=
  toLex (row.createdAt, ⟨(row.id.map uuidText).getD []⟩)

/-- `max` by the recency. A time cannot be compared with `datetime.min`, which has no zone and
stands for a time that is missing. -/
def latest : List EmbeddingRow → Except MapperError (Option EmbeddingRow)
  | [] => .ok none
  | row :: rest => do
    raiseIf (rest.any fun other ↦ other.createdAt.isSome ≠ row.createdAt.isSome)
      (.type "can't compare offset-naive and offset-aware datetimes")
    return some (maxBy recency row rest)

/-- The vector that is selected; with a model and a dimension by `select_active_embedding`. -/
def selectEmbedding (embeddings : List EmbeddingRow) :
    Option Text → Option ℤ → Except MapperError (Option EmbeddingRow)
  | none, none => latest (embeddings.filter fun row ↦ row.active)
  | some model, some dimension =>
    latest (embeddings.filter fun row ↦
      row.active && row.model = model && row.dimension = dimension)
  | _, _ => .error (.value "requested_model and requested_dimension must be supplied together")

/-- `items or None`. -/
def orNull (items : List Json) : Json := if items.isEmpty then .null else .arr items

/-- The entries that every payload has. -/
def rootFields (root : RootRow) (blockMeta : Dict) (tags : List TagRow) (links : List LinkRow) :
    Dict :=
  let tagTexts := tags.map fun row ↦ row.tagValue
  let linkTexts := links.map fun row ↦ row.relationType ++ ':' :: uuidText row.targetChunkUuid
  [("uuid", .str (uuidText root.id)), ("source_id", .str (uuidText root.documentId)),
    ("block_id", .str (uuidText root.paragraphId)),
    ("type", orElse root.chunkType (.str (lit "DocBlock"))),
    ("body", .str root.text), ("text", .str root.text), ("ordinal", .num root.orderIndex),
    ("start", .num root.sourceStart), ("end", .num root.sourceEnd), ("block_meta", .obj blockMeta),
    ("tags", orNull (tagTexts.map .str)),
    ("tags_flat", orElse (.str (joinTexts (lit ", ") tagTexts)) .null),
    ("links", orNull (linkTexts.map .str))]

/-- The entries of the metrics and their aliases. -/
def metricFields : Option Dict → Dict
  | none => []
  | some metrics =>
    ("metrics", .obj metrics) :: metricAliasFields.map (fun key ↦ (key, field metrics key)) ++
      match field metrics "feedback" with
      | .obj feedback => feedbackAliases.map fun entry ↦ (entry.2, field feedback entry.1)
      | _ => []

/-- The target of the first link of a relation, under its alias. -/
def linkField (links : List LinkRow) (relation name : String) : Dict :=
  match links.find? fun row ↦ row.relationType = lit relation with
  | some row => [(name, .str (uuidText row.targetChunkUuid))]
  | none => []

/-- The entries of the vector. -/
def embeddingFields : Option EmbeddingRow → Dict
  | none => []
  | some row => [("embedding", .arr (row.vector.map .num)), ("embedding_model", .str row.model)]

/-- `from_rows`, up to the payload for the adapter. -/
def fromRows (rows : SemanticChunkRows) (requestedModel : Option Text)
    (requestedDimension : Option ℤ) : Except MapperError Dict := do
  let chunkId := rows.root.id
  raiseIf (rows.blockMeta.chunkUuid ≠ chunkId) (.value "block_meta row has invalid child ownership")
  checkOwner "tokens" TokenRow.chunkUuid chunkId rows.tokens
  checkOwner "tags" TagRow.chunkUuid chunkId rows.tags
  checkOwner "links" LinkRow.sourceChunkUuid chunkId rows.links
  checkOwner "embeddings" EmbeddingRow.chunkUuid chunkId rows.embeddings
  checkKinds rows.tokens
  let tokens ← orderedTokens rows.tokens
  let tags ← orderedRows TagRow.ordinal rows.tags
  let links ← orderedRows LinkRow.ordinal rows.links
  let metrics ← metricsPayload rows chunkId tokens
  let selected ← selectEmbedding rows.embeddings requestedModel requestedDimension
  let blockMeta := mergeBlockMeta rows.blockMeta.promoted rows.blockMeta.extensions
  return [metricFields metrics, linkField links "related" "link_related",
    linkField links "parent" "link_parent", embeddingFields selected].foldl updateKeys
      (rootFields rows.root blockMeta tags links)

end DocStore.SemanticChunkMapper
