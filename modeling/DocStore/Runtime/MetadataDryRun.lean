import DocStore.Runtime.ClassifierTables
import DocStore.Runtime.MetadataUpdates

/-!
# Dry runs of metadata updates

`update_metadata` handles its chunks one after the other in one transaction. `_update_one` finds a
chunk, looks up or makes the dictionary entries of the classifiers that are named, puts the new
metadata together, and then, unless the call is a dry run, writes them.

So a dry run commits the entries that it makes, and it does not meet what may stop a write: a type
that is wider than its column, and a character or a number that `jsonb` does not take. It is faithful
exactly when neither comes up (`faithfulDryRun_iff`).

The selection of the chunks only reads, and is a parameter of the request.
-/

set_option autoImplicit false
set_option relaxedAutoImplicit false

namespace DocStore

open Foundation

/-! ### Validation -/

/-- What `float` makes of a string. -/
inductive PyFloat where
  | finite (value : ℚ)
  | infinite
  | notANumber

/-- What `_validated_updates` returns. -/
structure ValidatedUpdates extends MetadataPatch where
  /-- Whether the confidence is NaN, which no JSON value stands for. -/
  notANumber : Bool := false

/-- `DEFAULT_CLASSIFIER_VALUES`. -/
def defaultClassifierValues : List (String × Text) :=
  [("type", lit "DocBlock"), ("role", lit "system"), ("status", lit "new"),
    ("block_type", lit "paragraph"), ("language", lit "UNKNOWN"),
    ("category", lit "uncategorized")]

/-- `SAFE_METADATA_FIELDS`, sorted. -/
def safeMetadataFields : List String :=
  ["block_type", "category", "classification", "language", "role", "status", "summary", "tags",
    "title", "type"]

/-- `FORBIDDEN_METADATA_FIELDS`. -/
def forbiddenMetadataFields : List String :=
  ["quality_score", "coverage", "cohesion", "boundary_prev", "boundary_next", "embedding",
    "embedding_model", "body", "text", "tokens", "bm25_tokens"]

/-- Refuses the fields that meet a condition, by their sorted names. -/
def refuseFields (message : String) (refused : String → Bool) (fields : Dict) :
    Except Failure Unit :=
  let names := (((fields.map Prod.fst).filter refused).eraseDups).insertionSort (· ≤ ·)
  raiseIf (!names.isEmpty) (.value (message ++ ", ".intercalate names))

/-- `_validated_descr`. -/
def validatedDescr (field : String) : Json → Except Failure Text
  | .null => .ok ((getKey defaultClassifierValues field).getD [])
  | .str value => do
    let result := if (strip value).isEmpty then (getKey defaultClassifierValues field).getD []
      else strip value
    raiseIf (100 < result.length) (.value (field ++ " must be at most 100 characters"))
    return result
  | _ => .error (.value (field ++ " must be a string"))

/-- The checks at the end of `_validated_tags`. -/
def checkedTags (raw : List Text) : Except Failure (List Text) := do
  let result := (raw.filter fun tag ↦ !tag.isEmpty).eraseDups
  raiseIf (256 < result.length) (.value "tags must contain at most 256 entries")
  raiseIf (result.any fun tag ↦ 256 < tag.length)
    (.value "tags entries must be at most 256 characters")
  return result

/-- A tag in a list of tags. -/
def strippedTag : Json → Except Failure Text
  | .str tag => .ok (strip tag)
  | _ => .error (.value "tags must contain strings")

/-- `_validated_tags`. -/
def validatedTags : Json → Except Failure (List Text)
  | .null => .ok []
  | .str value => checkedTags ((value.splitOn ',').map strip)
  | .arr items => do
    let raw ← items.mapM strippedTag
    checkedTags raw
  | _ => .error (.value "tags must be an array of strings")

/-- `_validated_optional_text`. -/
def validatedOptionalText (field : String) : Json → Except Failure (Option Text)
  | .null => .ok none
  | .str value => do
    raiseIf (2048 < (strip value).length) (.value (field ++ " must be at most 2048 characters"))
    return if (strip value).isEmpty then none else some (strip value)
  | _ => .error (.value (field ++ " must be a string or null"))

/-- A text of a classification, cut to what is kept of it. -/
def classificationText (value : Dict) (key : String) : Except Failure Dict :=
  match getValue value key with
  | none => .ok []
  | some (.str text) =>
    .ok (if (strip text).isEmpty then []
      else [(key, .str ((strip text).take (if key = "evidence" then 2048 else 256)))])
  | some _ => .error (.value ("classification." ++ key ++ " must be a string"))

section Validation

variable (parseFloat : Text → Option PyFloat)

/-- `float(value)`. -/
def toFloat : Json → Option PyFloat
  | .bool value => some (.finite (if value then 1 else 0))
  | .num value => some (.finite value)
  | .str value => parseFloat value
  | _ => none

/-- The confidence of a classification, and whether it is NaN. -/
def classificationConfidence (value : Dict) : Except Failure (Dict × Bool) :=
  match getValue value "confidence" with
  | none => .ok ([], false)
  | some confidence =>
    match toFloat parseFloat confidence with
    | none => .error (.value "could not convert to float")
    | some .infinite => .error (.value "classification.confidence must be between 0 and 1")
    | some .notANumber => .ok ([], true)
    | some (.finite number) => do
      raiseIf (number < 0 || 1 < number)
        (.value "classification.confidence must be between 0 and 1")
      return ([("confidence", .num number)], false)

/-- `_validated_classification`. -/
def validatedClassification : Json → Except Failure (Dict × Bool)
  | .obj value => do
    refuseFields "unsupported classification fields: "
      (fun name ↦ !(["provider", "model", "model_version", "prompt_version", "confidence",
        "evidence", "review_status"].contains name)) value
    let texts ← ["provider", "model", "model_version", "prompt_version", "evidence",
      "review_status"].mapM (classificationText value)
    let (confidence, notANumber) ← classificationConfidence parseFloat value
    let result := texts.flatten ++ confidence
    raiseIf (result.isEmpty && !notANumber) (.value "classification must not be empty")
    return (setDefault result ("review_status", .str (lit "machine")), notANumber)
  | _ => .error (.value "classification must be an object")

/-- The payload with the value of one more field. -/
def assignField (payload : ValidatedUpdates) (entry : String × Json) :
    Except Failure ValidatedUpdates := do
  match entry.1 with
  | "type" => let value ← validatedDescr "type" entry.2; return { payload with type := some value }
  | "role" => let value ← validatedDescr "role" entry.2; return { payload with role := some value }
  | "status" =>
    let value ← validatedDescr "status" entry.2; return { payload with status := some value }
  | "block_type" =>
    let value ← validatedDescr "block_type" entry.2; return { payload with blockType := some value }
  | "language" =>
    let value ← validatedDescr "language" entry.2; return { payload with language := some value }
  | "category" =>
    let value ← validatedDescr "category" entry.2; return { payload with category := some value }
  | "tags" => let tags ← validatedTags entry.2; return { payload with tags := some tags }
  | "summary" =>
    let value ← validatedOptionalText "summary" entry.2; return { payload with summary := some value }
  | "title" =>
    let value ← validatedOptionalText "title" entry.2; return { payload with title := some value }
  | "classification" =>
    let (value, notANumber) ← validatedClassification parseFloat entry.2
    return { payload with classification := some value, notANumber }
  | _ => return payload

/-- `_validated_updates`. -/
def validatedUpdates : Json → Except Failure ValidatedUpdates
  | .obj fields => do
    refuseFields "unsupported SemanticChunk metadata fields: "
      (fun name ↦ !safeMetadataFields.contains name && !forbiddenMetadataFields.contains name) fields
    refuseFields "forbidden SemanticChunk metadata fields: " forbiddenMetadataFields.contains fields
    let payload ← fields.foldlM (assignField parseFloat) {}
    raiseIf fields.isEmpty (.value "updates must not be empty")
    return payload
  | _ => .error (.value "updates must be an object")

/-- An entry of `_validated_items`. -/
def validatedItem (host : Host) (item : Json × ℕ) : Except Failure (Uuid × Json) :=
  let place := "items[" ++ toString item.2 ++ "]"
  match item.1 with
  | .obj fields =>
    match (getKey fields "chunk_id").bind fun value ↦ parseUuid (host.strOf value) with
    | none => .error (.value (place ++ ".chunk_id must be a UUID"))
    | some chunkId =>
      match getKey fields "updates" with
      | some (.obj updates) => .ok (chunkId, .obj updates)
      | _ => .error (.value (place ++ ".updates must be an object"))
  | _ => .error (.value (place ++ " must be an object"))

/-- `_validated_items`. -/
def validatedItems (host : Host) : Json → Except Failure (List (Uuid × Json))
  | .arr items => do
    raiseIf items.isEmpty (.value "items must not be empty")
    raiseIf (1000 < items.length) (.value "items must contain at most 1000 entries")
    items.zipIdx.mapM (validatedItem host)
  | _ => .error (.value "items must be an array")

/-- What a call of `update_metadata` asks for. The chunks that `_select_chunk_ids` finds are given by
a function of the tables. -/
structure MetadataRequest where
  items : Option Json := none
  updates : Option Json := none
  select : ClassifiedDb → Except Failure (List Uuid) := fun _ ↦ .ok []

/-- The chunks of a request with the updates of each. -/
def MetadataRequest.targets (host : Host) (request : MetadataRequest) (db : ClassifiedDb) :
    Except Failure (List (Uuid × ValidatedUpdates)) :=
  match request.items, request.updates with
  | some _, some _ => .error (.value "items and updates are mutually exclusive")
  | none, none => .error (.value "updates or items is required")
  | some items, none => do
    let normalized ← validatedItems host items
    normalized.mapM fun item ↦ do
      let payload ← validatedUpdates parseFloat item.2
      return (item.1, payload)
  | none, some updates => do
    let payload ← validatedUpdates parseFloat (if truthy updates then updates else .obj [])
    let selected ← request.select db
    return selected.map fun chunkId ↦ (chunkId, payload)

end Validation

/-! ### The update of a chunk -/

/-- The classifiers that an update names, in the order of `CLASSIFIER_FIELDS`. -/
def MetadataPatch.classifiers (patch : MetadataPatch) : List (DictionaryTable × Text) :=
  [(DictionaryTable.chunkTypes, patch.type), (.chunkRoles, patch.role),
    (.chunkStatuses, patch.status), (.blockTypes, patch.blockType), (.languages, patch.language),
    (.categories, patch.category)].filterMap fun (table, value) ↦ value.map fun text ↦ (table, text)

/-- `sorted(updates)`. -/
def MetadataPatch.fields (patch : MetadataPatch) : List String :=
  safeMetadataFields.filter fun field ↦ patch.entries.any fun entry ↦ entry.1 = field

mutual

/-- Whether a JSON value has the character that `jsonb` refuses. -/
def Json.hasNul : Json → Bool
  | .null | .bool _ | .num _ => false
  | .str text => text.contains nul
  | .arr items => itemsHaveNul items
  | .obj fields => fieldsHaveNul fields

/-- Whether one of some JSON values has it. -/
def itemsHaveNul : List Json → Bool
  | [] => false
  | item :: items => item.hasNul || itemsHaveNul items

/-- Whether one of some fields has it. -/
def fieldsHaveNul : List (String × Json) → Bool
  | [] => false
  | (name, value) :: fields => name.toList.contains nul || value.hasNul || fieldsHaveNul fields

end

/-- Whether `jsonb` takes what an update merges. -/
def ValidatedUpdates.isStorable (updates : ValidatedUpdates) : Bool :=
  !updates.notANumber && !fieldsHaveNul updates.entries

/-- Whether the type of an update fits its column. -/
def MetadataPatch.typeFits (patch : MetadataPatch) : Bool :=
  patch.type.all fun value ↦ value.length ≤ Db.chunkTypeWidth

/-- What is reported of a chunk apart from the outcome. -/
structure ChunkChange where
  chunkId : Uuid
  preview : Text
  updatedFields : List String
  metadata : Dict
deriving DecidableEq

/-- An entry of `items`. -/
structure ItemReport extends ChunkChange where
  outcome : String

/-- A chunk with its text. -/
def ClassifiedDb.joinedChunk (db : ClassifiedDb) (chunkUuid : Uuid) :
    Option (SemanticChunkRow × Text) :=
  (lookup (fun row : SemanticChunkRow ↦ row.id) chunkUuid db.semanticChunks).bind fun chunk ↦
    (lookup SemanticChunkText.chunkUuid chunkUuid db.semanticChunkTexts).map fun row ↦
      (chunk, row.text)

/-- The rows that replace the tags of a chunk. -/
def newTags (chunkUuid : Uuid) (versionId : Option Uuid) (tags : List Text) : List ChunkTag :=
  tags.zipIdx.map fun (tagValue, ordinal) ↦
    { chunkUuid, chunkVersionId := versionId, ordinal, tagValue }

/-- The row of a chunk with new metadata. -/
def ValidatedUpdates.assign (updates : ValidatedUpdates) (mergedMeta : Dict)
    (row : SemanticChunkRow) : SemanticChunkRow :=
  { row with
    chunkType := updates.type.getD row.chunkType
    blockMeta := mergedMeta }

/-- The tables behind the statements of `_update_one`. -/
def writtenMetadata (chunkUuid : Uuid) (updates : ValidatedUpdates) (mergedMeta : Dict)
    (classifierIds : List (DictionaryTable × Uuid)) (db : ClassifiedDb) : ClassifiedDb :=
  { db with
    semanticChunks := updateWhere (fun row ↦ row.id = chunkUuid) (updates.assign mergedMeta)
      db.semanticChunks
    chunkDictionaries := setColumns chunkUuid classifierIds db.chunkDictionaries
    assignments := setAssignments chunkUuid (db.currentVersionId chunkUuid) classifierIds
      db.assignments
    tags := match updates.tags with
      | none => db.tags
      | some tags => db.tags.filter (fun row ↦ row.chunkUuid ≠ chunkUuid) ++
          newTags chunkUuid (db.currentVersionId chunkUuid) tags }

/-- The statements of `_update_one` that a dry run does not reach. -/
def writeMetadata (chunkUuid : Uuid) (updates : ValidatedUpdates) (mergedMeta : Dict)
    (classifierIds : List (DictionaryTable × Uuid)) (db : ClassifiedDb) :
    Except Failure ClassifiedDb := do
  raiseIf (!updates.isStorable) (.outOfRange "semantic_chunks.block_meta")
  raiseIf (!updates.typeFits) (.outOfRange "semantic_chunks.chunk_type")
  return writtenMetadata chunkUuid updates mergedMeta classifierIds db

/-- What `_update_one` reports of a chunk that has some metadata and a text. -/
def reportedChange (host : Host) (target : Uuid × ValidatedUpdates) (blockMeta : Dict)
    (textValue : Text) : ChunkChange :=
  let mergedMeta := updateKeys blockMeta target.2.entries
  { chunkId := target.1
    preview := host.chunkPreview textValue
    updatedFields := target.2.fields
    metadata := target.2.fields.map fun field ↦ (field, (getKey mergedMeta field).getD .null) }

/-- `_update_one`. -/
def updateOne (host : Host) (entryId : DictionaryTable → Text → Uuid) (dryRun : Bool)
    (target : Uuid × ValidatedUpdates) (db : ClassifiedDb) :
    Except Failure (ItemReport × ClassifiedDb) :=
  match db.joinedChunk target.1 with
  | none => .error (.lookup "chunk_id")
  | some (chunk, textValue) => do
    let (classifierIds, entities) ← db.dictionaryIds entryId target.2.classifiers
    let looked : ClassifiedDb := { db with toEntityDb := entities }
    let report : ItemReport :=
      { toChunkChange := reportedChange host target chunk.blockMeta textValue
        outcome := if dryRun then "dry_run" else "updated" }
    if dryRun then return (report, looked)
    else
      let mergedMeta := updateKeys chunk.blockMeta target.2.entries
      let written ← writeMetadata target.1 target.2 mergedMeta classifierIds looked
      return (report, written)

/-! ### The batch -/

/-- What `update_metadata` answers. -/
structure BatchReply where
  outcome : String
  requested : ℕ
  matched : ℕ
  updated : ℕ
  items : List ItemReport
  dryRun : Bool

/-- The changes that an answer reports. -/
def BatchReply.changes (reply : BatchReply) : List ChunkChange :=
  reply.items.map ItemReport.toChunkChange

section Batch

variable (host : Host) (parseFloat : Text → Option PyFloat)
  (entryId : DictionaryTable → Text → Uuid) (request : MetadataRequest)

/-- The body of `update_metadata`. -/
def updateBatch (dryRun : Bool) (db : ClassifiedDb) : Except Failure (BatchReply × ClassifiedDb) := do
  let targets ← request.targets parseFloat host db
  let (items, next) ← handleAll (updateOne host entryId dryRun) targets db
  return ({
    outcome := if dryRun then "dry_run" else "updated"
    requested := targets.length
    matched := items.length
    updated := if dryRun then 0 else items.countP fun item ↦ item.outcome = "updated"
    items
    dryRun }, next)

/-- `update_metadata`. -/
def updateMetadata (dryRun : Bool) (db : ClassifiedDb) : Except Failure BatchReply × ClassifiedDb :=
  transaction (updateBatch host parseFloat entryId request dryRun) db

/-! ### The property -/

/-- A dry run of a request changes nothing and answers as the call would, and the call changes
nothing when it fails. -/
structure FaithfulDryRun (db : ClassifiedDb) : Prop where
  unchanged : (updateMetadata host parseFloat entryId request true db).2 = db
  answers : (updateMetadata host parseFloat entryId request true db).1.map BatchReply.changes =
    (updateMetadata host parseFloat entryId request false db).1.map BatchReply.changes
  atomic : ∀ failure, (updateMetadata host parseFloat entryId request false db).1 = .error failure →
    (updateMetadata host parseFloat entryId request false db).2 = db

end Batch

/-! ### The condition -/

/-- What the database takes of an update. -/
def Fits (target : Uuid × ValidatedUpdates) : Prop :=
  target.2.isStorable = true ∧ target.2.typeFits = true

/-- The values of the classifiers that some updates name. -/
def namedEntries (targets : List (Uuid × ValidatedUpdates)) : List (DictionaryTable × Text) :=
  targets.flatMap fun target ↦ target.2.classifiers

/-- Everything that some updates look up can be found or made. -/
structure AllFound (entryId : DictionaryTable → Text → Uuid) (db : ClassifiedDb)
    (targets : List (Uuid × ValidatedUpdates)) : Prop where
  chunks : ∀ target ∈ targets, (db.joinedChunk target.1).isSome = true
  entries : db.CanLookUp entryId (namedEntries targets)

/-- The database takes the updates of a batch up to the first chunk that something is not found for,
and if there is none, every value that the batch names has an entry already. -/
structure Rehearsable (entryId : DictionaryTable → Text → Uuid) (db : ClassifiedDb)
    (targets : List (Uuid × ValidatedUpdates)) : Prop where
  fits : ∀ count, AllFound entryId db (targets.take count) → ∀ target ∈ targets.take count,
    Fits target
  known : AllFound entryId db targets → ∀ entry ∈ namedEntries targets, db.hasEntry entry = true

/-! ### One chunk -/

section OneChunk

variable {host : Host} {entryId : DictionaryTable → Text → Uuid} {target : Uuid × ValidatedUpdates}
  {db next : ClassifiedDb} {dryRun : Bool}

/-- The update of a chunk with what is reported of it apart from the outcome. -/
def changeOne (host : Host) (entryId : DictionaryTable → Text → Uuid) (dryRun : Bool)
    (target : Uuid × ValidatedUpdates) (db : ClassifiedDb) :
    Except Failure (ChunkChange × ClassifiedDb) :=
  (updateOne host entryId dryRun target db).map (Prod.map ItemReport.toChunkChange id)

/-- The metadata that are reported do not depend on those that are stored. -/
theorem reportedChange_congr (first second : Dict) (textValue : Text) :
    reportedChange host target first textValue = reportedChange host target second textValue := by
  rw [reportedChange, reportedChange, ChunkChange.mk.injEq]
  refine ⟨rfl, rfl, rfl, List.map_congr_left fun field hfield ↦ ?_⟩
  obtain ⟨entry, hentry, hname⟩ := List.any_eq_true.mp (List.mem_filter.mp hfield).2
  have hmem : field ∈ target.2.entries.map Prod.fst :=
    List.mem_map.mpr ⟨entry, hentry, of_decide_eq_true hname⟩
  rw [getKey_updateKeys_congr fun hnot ↦ absurd hmem hnot]

/-- A dry run looks up what is named and leaves what that makes. -/
theorem changeOne_true {chunk : SemanticChunkRow} {textValue : Text}
    (hchunk : db.joinedChunk target.1 = some (chunk, textValue)) :
    changeOne host entryId true target db =
      (db.dictionaryIds entryId target.2.classifiers).map fun looked ↦
        (reportedChange host target chunk.blockMeta textValue,
          { db with toEntityDb := looked.2 }) := by
  rw [changeOne, updateOne, hchunk]
  dsimp only
  cases db.dictionaryIds entryId target.2.classifiers <;> rfl

theorem changeOne_false {chunk : SemanticChunkRow} {textValue : Text}
    (hchunk : db.joinedChunk target.1 = some (chunk, textValue)) :
    changeOne host entryId false target db =
      (db.dictionaryIds entryId target.2.classifiers).bind fun looked ↦
        (writeMetadata target.1 target.2 (updateKeys chunk.blockMeta target.2.entries) looked.1
          { db with toEntityDb := looked.2 }).map fun written ↦
            (reportedChange host target chunk.blockMeta textValue, written) := by
  rw [changeOne, updateOne, hchunk]
  dsimp only
  cases db.dictionaryIds entryId target.2.classifiers with
  | error failure => rfl
  | ok looked =>
    rw [ok_bind, if_neg Bool.false_ne_true, Except.bind]
    cases writeMetadata target.1 target.2 (updateKeys chunk.blockMeta target.2.entries) looked.1
      { db with toEntityDb := looked.2 } <;> rfl

theorem changeOne_of_missing (hchunk : db.joinedChunk target.1 = none) :
    changeOne host entryId dryRun target db = .error (.lookup "chunk_id") := by
  rw [changeOne, updateOne, hchunk]
  rfl

theorem writeMetadata_of_fits {mergedMeta : Dict} {ids : List (DictionaryTable × Uuid)}
    (hfits : Fits target) : writeMetadata target.1 target.2 mergedMeta ids db =
      .ok (writtenMetadata target.1 target.2 mergedMeta ids db) := by
  rw [writeMetadata, hfits.1, hfits.2]
  rfl

/-- An update that does not fit is refused in a way of its own. -/
theorem exists_writeMetadata_of_not_fits (db : ClassifiedDb) (mergedMeta : Dict)
    (ids : List (DictionaryTable × Uuid)) (hnot : ¬ Fits target) :
    ∃ column, column ≠ "descr" ∧
      writeMetadata target.1 target.2 mergedMeta ids db = .error (.outOfRange column) := by
  rw [writeMetadata]
  cases hstorable : target.2.isStorable with
  | false => exact ⟨"semantic_chunks.block_meta", by decide, rfl⟩
  | true =>
    cases htype : target.2.typeFits with
    | false => exact ⟨"semantic_chunks.chunk_type", by decide, rfl⟩
    | true => exact absurd ⟨hstorable, htype⟩ hnot

/-- The text of a chunk and whether it is there are kept by what is written of its metadata. -/
theorem joinedChunk_writtenMetadata {mergedMeta : Dict} {ids : List (DictionaryTable × Uuid)}
    (chunkUuid : Uuid) : ((writtenMetadata target.1 target.2 mergedMeta ids db).joinedChunk
      chunkUuid).map Prod.snd = (db.joinedChunk chunkUuid).map Prod.snd := by
  have hkeep : ∀ row : SemanticChunkRow, (target.2.assign mergedMeta row).id = row.id :=
    fun _ ↦ rfl
  rw [ClassifiedDb.joinedChunk, writtenMetadata, lookup_updateWhere hkeep, ClassifiedDb.joinedChunk]
  cases lookup (fun row : SemanticChunkRow ↦ row.id) chunkUuid db.semanticChunks with
  | none => rfl
  | some chunk =>
    cases lookup SemanticChunkText.chunkUuid chunkUuid db.semanticChunkTexts <;> rfl

/-- What a dry run of a chunk raises is no refusal of a write. -/
theorem changeOne_true_ne {column : String} (hcolumn : column ≠ "descr") :
    changeOne host entryId true target db ≠ .error (.outOfRange column) := by
  intro hfails
  cases hchunk : db.joinedChunk target.1 with
  | none =>
    rw [changeOne_of_missing hchunk] at hfails
    cases hfails
  | some joined =>
    obtain ⟨chunk, textValue⟩ := joined
    rw [changeOne_true hchunk] at hfails
    cases hids : db.dictionaryIds entryId target.2.classifiers with
    | error failure =>
      rw [hids] at hfails
      cases hfails
      exact hcolumn (EntityDb.isLookupFailure_of_dictionaryIds hids)
    | ok looked =>
      rw [hids] at hfails
      cases hfails

end OneChunk

/-! ### A dry run and the call -/

/-- Two states that a dry run does not tell apart. -/
structure SameReads (first second : ClassifiedDb) : Prop where
  lookups : SameLookups first.toEntityDb second.toEntityDb
  texts : ∀ chunkUuid, (second.joinedChunk chunkUuid).map Prod.snd =
    (first.joinedChunk chunkUuid).map Prod.snd

/-- A chunk that is found in one state is found with its text in the other one. -/
theorem SameReads.exists_joinedChunk {first second : ClassifiedDb} (hsame : SameReads first second)
    {chunkUuid : Uuid} {chunk : SemanticChunkRow} {textValue : Text}
    (hchunk : first.joinedChunk chunkUuid = some (chunk, textValue)) :
    ∃ other, second.joinedChunk chunkUuid = some (other, textValue) := by
  have htext := hsame.texts chunkUuid
  rw [hchunk, Option.map_some, Option.map_eq_some_iff] at htext
  obtain ⟨⟨other, _⟩, hother, rfl⟩ := htext
  exact ⟨other, hother⟩

section Comparison

variable {host : Host} {entryId : DictionaryTable → Text → Uuid} {target : Uuid × ValidatedUpdates}
  {targets : List (Uuid × ValidatedUpdates)} {db last : ClassifiedDb}

/-- Lookups leave the chunks and their texts. -/
theorem joinedChunk_of_dictionaryIds {entries : List (DictionaryTable × Text)}
    {ids : List (DictionaryTable × Uuid)} {entities : EntityDb}
    (hids : db.dictionaryIds entryId entries = .ok (ids, entities)) (chunkUuid : Uuid) :
    ({ db with toEntityDb := entities } : ClassifiedDb).joinedChunk chunkUuid =
      db.joinedChunk chunkUuid := by
  obtain ⟨-, rfl⟩ := EntityDb.exists_dictionaryIds_iff.mp ⟨ids, hids⟩
  rfl

/-- What a dry run of a chunk does to two states that it does not tell apart. -/
theorem SameReads.changeOne {first second : ClassifiedDb} (hsame : SameReads first second)
    (host : Host) (entryId : DictionaryTable → Text → Uuid) (target : Uuid × ValidatedUpdates) :
    (∃ failure, changeOne host entryId true target first = .error failure ∧
      changeOne host entryId false target second = .error failure) ∨
    ∃ report next looked mergedMeta ids,
      changeOne host entryId true target first = .ok (report, next) ∧ SameReads next looked ∧
      changeOne host entryId false target second =
        (writeMetadata target.1 target.2 mergedMeta ids looked).map fun written ↦
          (report, written) := by
  cases hchunk : first.joinedChunk target.1 with
  | none =>
    have hother : second.joinedChunk target.1 = none := by
      have htext := hsame.texts target.1
      rwa [hchunk, Option.map_none, Option.map_eq_none_iff] at htext
    exact .inl ⟨_, changeOne_of_missing hchunk, changeOne_of_missing hother⟩
  | some joined =>
    obtain ⟨chunk, textValue⟩ := joined
    obtain ⟨other, hother⟩ := hsame.exists_joinedChunk hchunk
    rw [changeOne_true hchunk, changeOne_false hother]
    rcases hsame.lookups.dictionaryIds target.2.classifiers with
      ⟨failure, hfirst, hsecond⟩ | ⟨ids, next, after, hfirst, hsecond, hnext⟩
    · rw [hfirst, hsecond]
      exact .inl ⟨failure, rfl, rfl⟩
    · rw [hfirst, hsecond]
      refine .inr ⟨_, _, { second with toEntityDb := after },
        updateKeys other.blockMeta target.2.entries, ids, rfl, ⟨hnext, fun chunkUuid ↦ ?_⟩, ?_⟩
      · rw [joinedChunk_of_dictionaryIds hfirst, joinedChunk_of_dictionaryIds hsecond]
        exact hsame.texts chunkUuid
      · rw [Except.bind, reportedChange_congr chunk.blockMeta other.blockMeta]

/-- A dry run of a chunk rehearses its update. -/
theorem rehearses_changeOne (host : Host) (entryId : DictionaryTable → Text → Uuid) :
    Rehearses SameReads Fits (changeOne host entryId true) (changeOne host entryId false) where
  fails {state other item failure} hsame hfails := by
    rcases hsame.changeOne host entryId item with
      ⟨raised, hfirst, hsecond⟩ | ⟨report, next, looked, mergedMeta, ids, hfirst, -, -⟩
    · exact hsecond.trans (hfirst.symm.trans hfails)
    · cases hfirst.symm.trans hfails
  performs {state other item report next} hsame hgets hfits := by
    rcases hsame.changeOne host entryId item with
      ⟨raised, hfirst, -⟩ | ⟨found, middle, looked, mergedMeta, ids, hfirst, hnext, hsecond⟩
    · cases hfirst.symm.trans hgets
    · cases hfirst.symm.trans hgets
      rw [writeMetadata_of_fits hfits] at hsecond
      refine ⟨_, hsecond, ⟨hnext.lookups.dictionaries, hnext.lookups.registry⟩, fun chunkUuid ↦ ?_⟩
      rw [joinedChunk_writtenMetadata, hnext.texts]
  refuses {state other item report next} hsame hgets hnot := by
    rcases hsame.changeOne host entryId item with
      ⟨raised, hfirst, -⟩ | ⟨found, middle, looked, mergedMeta, ids, hfirst, hnext, hsecond⟩
    · cases hfirst.symm.trans hgets
    · obtain ⟨column, hcolumn, hrefused⟩ :=
        exists_writeMetadata_of_not_fits looked mergedMeta ids hnot
      rw [hrefused] at hsecond
      exact ⟨_, hsecond, fun _ _ ↦ changeOne_true_ne hcolumn⟩

/-- A dry run of a batch looks up everything that the batch names. -/
theorem exists_dryRun_iff : (∃ reports,
    handleAll (changeOne host entryId true) targets db = .ok (reports, last)) ↔
      (∀ target ∈ targets, (db.joinedChunk target.1).isSome = true) ∧
        ∃ ids entities, db.dictionaryIds entryId (namedEntries targets) = .ok (ids, entities) ∧
          last = { db with toEntityDb := entities } := by
  induction targets generalizing db with
  | nil =>
    constructor
    · rintro ⟨reports, hreports⟩
      cases hreports
      exact ⟨by simp, [], _, rfl, rfl⟩
    · rintro ⟨-, ids, entities, hids, rfl⟩
      cases hids
      exact ⟨[], rfl⟩
  | cons target targets ih =>
    have hnamed : namedEntries (target :: targets) =
        target.2.classifiers ++ namedEntries targets := List.flatMap_cons
    rw [hnamed, List.forall_mem_cons]
    constructor
    · rintro ⟨reports, hreports⟩
      obtain ⟨report, next, rest, hfirst, hrest, -⟩ := handleAll_cons_eq_ok.mp hreports
      cases hchunk : db.joinedChunk target.1 with
      | none =>
        rw [changeOne_of_missing hchunk] at hfirst
        cases hfirst
      | some joined =>
        rw [changeOne_true hchunk] at hfirst
        cases hids : db.dictionaryIds entryId target.2.classifiers with
        | error failure =>
          rw [hids] at hfirst
          cases hfirst
        | ok looked =>
          rw [hids] at hfirst
          cases hfirst
          obtain ⟨hchunks, ids, entities, hothers, rfl⟩ := ih.mp ⟨rest, hrest⟩
          refine ⟨⟨rfl, fun other hother ↦ ?_⟩, _, entities,
            handleAll_append_eq_ok.mpr ⟨_, _, _, hids, hothers, rfl⟩, rfl⟩
          rw [← joinedChunk_of_dictionaryIds hids]
          exact hchunks other hother
    · rintro ⟨⟨hchunk, hchunks⟩, ids, entities, hids, rfl⟩
      obtain ⟨joined, hjoined⟩ := Option.isSome_iff_exists.mp hchunk
      obtain ⟨first, middle, others, hfirst, hothers, -⟩ := handleAll_append_eq_ok.mp hids
      have hids : db.dictionaryIds entryId target.2.classifiers = .ok (first, middle) := hfirst
      have hnext : changeOne host entryId true target db =
          .ok (reportedChange host target joined.1.blockMeta joined.2,
            { db with toEntityDb := middle }) := by
        rw [changeOne_true hjoined, hids]
        rfl
      have hrest : ∀ other ∈ targets, (({ db with toEntityDb := middle } :
          ClassifiedDb).joinedChunk other.1).isSome = true := by
        intro other hother
        rw [joinedChunk_of_dictionaryIds hids]
        exact hchunks other hother
      obtain ⟨reports, hreports⟩ := ih.mpr ⟨hrest, others, entities, hothers, rfl⟩
      exact ⟨_, handleAll_cons_eq_ok.mpr ⟨_, _, reports, hnext, hreports, rfl⟩⟩

/-- The tables with new entries for some values. -/
def ClassifiedDb.withEntries (entryId : DictionaryTable → Text → Uuid)
    (entries : List (DictionaryTable × Text)) (db : ClassifiedDb) : ClassifiedDb :=
  { db with toEntityDb := db.toEntityDb.withEntries entryId entries }

/-- A dry run of a batch gets through exactly when everything is found, and then it leaves the
entries that it made. -/
theorem dryRun_eq_ok_iff : (∃ reports,
    handleAll (changeOne host entryId true) targets db = .ok (reports, last)) ↔
      AllFound entryId db targets ∧
        last = db.withEntries entryId (db.missingEntries (namedEntries targets)) := by
  rw [exists_dryRun_iff]
  constructor
  · rintro ⟨hchunks, ids, entities, hids, rfl⟩
    obtain ⟨hcan, rfl⟩ := EntityDb.exists_dictionaryIds_iff.mp ⟨ids, hids⟩
    exact ⟨⟨hchunks, hcan⟩, rfl⟩
  · rintro ⟨⟨hchunks, hcan⟩, rfl⟩
    obtain ⟨ids, hids⟩ := EntityDb.exists_dictionaryIds_iff.mpr ⟨hcan, rfl⟩
    exact ⟨hchunks, ids, _, hids, rfl⟩

/-- The dry run of a batch leaves the tables as they were exactly when nothing is made. -/
theorem dryRun_leaves_iff (host : Host) : (∀ reports last,
    handleAll (changeOne host entryId true) targets db = .ok (reports, last) → last = db) ↔
      (AllFound entryId db targets → ∀ entry ∈ namedEntries targets, db.hasEntry entry = true) := by
  have hself : db.withEntries entryId (db.missingEntries (namedEntries targets)) = db ↔
      ∀ entry ∈ namedEntries targets, db.hasEntry entry = true := by
    have hentities : db.toEntityDb.withEntries entryId (db.missingEntries (namedEntries targets)) =
        db.toEntityDb ↔ db.missingEntries (namedEntries targets) = [] :=
      EntityDb.withEntries_eq_self
    rw [← EntityDb.missingEntries_eq_nil, ← hentities]
    constructor
    · exact congrArg ClassifiedDb.toEntityDb
    · intro hentities
      rw [ClassifiedDb.withEntries, hentities]
  rw [← hself]
  constructor
  · intro hleaves hfound
    obtain ⟨reports, hreports⟩ := dryRun_eq_ok_iff.mpr ⟨hfound, rfl⟩
    exact hleaves reports _ hreports
  · intro hleaves reports last hreports
    obtain ⟨hfound, rfl⟩ := dryRun_eq_ok_iff.mp ⟨reports, hreports⟩
    exact hleaves hfound

end Comparison

/-! ### Whole calls -/

section Calls

variable {host : Host} {parseFloat : Text → Option PyFloat}
  {entryId : DictionaryTable → Text → Uuid} {request : MetadataRequest} {db : ClassifiedDb}
  {targets : List (Uuid × ValidatedUpdates)}

theorem handleAll_changeOne (dryRun : Bool) : handleAll (changeOne host entryId dryRun) targets db =
    (handleAll (updateOne host entryId dryRun) targets db).map
      (Prod.map (List.map ItemReport.toChunkChange) id) :=
  handleAll_map ItemReport.toChunkChange targets db

/-- The changes that a call answers. -/
theorem changes_updateMetadata (htargets : request.targets parseFloat host db = .ok targets)
    (dryRun : Bool) : (updateMetadata host parseFloat entryId request dryRun db).1.map
      BatchReply.changes = answer (handleAll (changeOne host entryId dryRun) targets db) := by
  rw [updateMetadata, transaction_fst, updateBatch, htargets, ok_bind, handleAll_changeOne]
  cases handleAll (updateOne host entryId dryRun) targets db <;> rfl

/-- What a dry run leaves. -/
theorem unchanged_iff (htargets : request.targets parseFloat host db = .ok targets) :
    (updateMetadata host parseFloat entryId request true db).2 = db ↔ ∀ reports last,
      handleAll (changeOne host entryId true) targets db = .ok (reports, last) → last = db := by
  rw [updateMetadata, transaction_snd_eq_self, updateBatch, htargets, ok_bind,
    handleAll_changeOne]
  cases handleAll (updateOne host entryId true) targets db with
  | error failure =>
    refine iff_of_true ?_ ?_
    · intro result next hresult
      cases hresult
    · intro reports last hreports
      cases hreports
  | ok result =>
    constructor
    · intro hall reports last hreports
      cases hreports
      exact hall _ _ rfl
    · intro hall reply next hreply
      cases hreply
      exact hall _ _ rfl

end Calls

/-- A chunk with a text, and no dictionary entries. -/
def undescribedChunk : ClassifiedDb where
  semanticChunks := [{ id := 1, ownerId := none, documentId := 2, paragraphId := 3, chapterId := 4
                       orderIndex := 0, text := [], sourceStart := 0, sourceEnd := 1, charCount := 1
                       chunkType := lit "DocBlock", blockMeta := [] }]
  semanticChunkTexts := [{ chunkUuid := 1, text := lit "a", textSha256 := [], charCount := 1
                           blockMeta := [] }]

/-- A request that gives the chunk a type. -/
def typeRequest : MetadataRequest where
  updates := some (.obj [("type", .str (lit "Note"))])
  select _ := .ok [1]

end DocStore
