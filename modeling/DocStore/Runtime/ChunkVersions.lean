import DocStore.Domain.Schema
import DocStore.Domain.Host
import DocStore.Foundation.Transition

/-!
# Versions of chunk texts

`ChunkTextVersionService`: a chunk text is changed by appending a version and activating it, an old
version is restored by appending a copy, and a version can be retired or deleted. Four tables say
what the current text is: one version is flagged as current, one pointer names it, and the text row
and the chunk row repeat what it says. `activate` writes all four.

The dictionary assignments, embeddings and statistics that an activation marks as stale are left
out; nothing here reads them.
-/

set_option autoImplicit false
set_option relaxedAutoImplicit false

namespace DocStore

open Foundation

/-! ### The service -/

/-- What comes with a call: `now()`, the random UUID of a new version, and the caller's notes. -/
structure VersionCall where
  now : Instant
  versionId : Uuid
  comment : Option Text := none
  actor : Option Text := none
  operationId : Option Uuid := none

/-- What a call answers. -/
structure VersionReply where
  chunkId : Uuid
  outcome : String
  version : Option SemanticChunkVersion := none
  removedVersionNo : Option ℕ := none
  currentVersionNo : Option ℕ := none

/-- `_version_number`. -/
def versionNumber (value : ℤ) : Except Failure ℕ := do
  raiseIf (value ≤ 0) (.value "version_no must be a positive integer")
  return value.toNat

/-- `_optional_version_number`. -/
def optionalVersionNumber (value : Option ℤ) (fieldName : String) : Except Failure (Option ℕ) := do
  raiseIf (value.any fun number ↦ number ≤ 0) (.value (fieldName ++ " must be a positive integer"))
  return value.map Int.toNat

/-- `VERSION_NOT_FOUND`. -/
def versionNotFound (message : String) (chunkUuid : Uuid) (field : String) (versionNo : Json) :
    Failure :=
  .version "VERSION_NOT_FOUND" message
    [("chunk_id", .str (uuidText chunkUuid)), (field, versionNo)]

/-- `LAST_VERSION_DELETE_REQUIRES_CHUNK_DELETE`. -/
def lastVersionDelete (chunkUuid : Uuid) (versionNo : ℕ) : Failure :=
  .version "LAST_VERSION_DELETE_REQUIRES_CHUNK_DELETE"
    "delete the chunk instead of deleting its last text version"
    [("chunk_id", .str (uuidText chunkUuid)), ("version_no", .num versionNo)]

namespace Db

variable (db : Db) (chunkUuid : Uuid)

/-- `_require_chunk`. -/
def requireChunk : Except Failure SemanticChunkRow :=
  match lookup (fun row : SemanticChunkRow ↦ row.id) chunkUuid db.semanticChunks with
  | some chunk => .ok chunk
  | none => .error (.lookup (String.ofList (uuidText chunkUuid)))

/-- `_version`. -/
def version (versionNo : ℕ) : Option SemanticChunkVersion :=
  db.semanticChunkVersions.find? fun row ↦ row.chunkUuid = chunkUuid && row.versionNo = versionNo

/-- `_version_by_id`. -/
def versionById (versionId : Uuid) : Option SemanticChunkVersion :=
  lookup SemanticChunkVersion.id versionId db.semanticChunkVersions

/-- `_current_version`. -/
def currentVersion : Option SemanticChunkVersion :=
  (lookup SemanticChunkCurrent.chunkUuid chunkUuid db.semanticChunkCurrent).bind fun row ↦
    db.versionById row.versionId

/-- `_current_version_no`. -/
def currentVersionNo : Option ℕ := (db.currentVersion chunkUuid).map SemanticChunkVersion.versionNo

/-- `_next_version_no`. -/
def nextVersionNo : ℕ :=
  ((db.semanticChunkVersions.filter fun row ↦ row.chunkUuid = chunkUuid).map
    SemanticChunkVersion.versionNo).foldl max 0 + 1

/-- `_assert_expected_current`. -/
def assertExpectedCurrent (expectedCurrentVersion : Option ℤ) : Except Failure Unit := do
  let expected ← optionalVersionNumber expectedCurrentVersion "expected_current_version"
  raiseIf (expected.isSome && db.currentVersionNo chunkUuid ≠ expected) (.version
    "CURRENT_VERSION_MISMATCH"
    "current semantic chunk text version does not match expected_current_version"
    [("chunk_id", .str (uuidText chunkUuid)),
      ("expected_current_version", .num (expected.getD 0)),
      ("actual_current_version", ((db.currentVersionNo chunkUuid).map fun number ↦
        Json.num number).getD .null)])

end Db

/-- The source version that the metadata of a chunk names. -/
def sourceVersionIdOf (host : Host) (blockMeta : Dict) : Option Text :=
  let named (key : String) : Option Json := (getKey blockMeta key).filter truthy
  ((named "source_version_id").or (named "sourceVersionId")).map fun
    | .str text => text
    | value => host.str value

/-- The width of the short text columns of a version. -/
def shortTextWidth : ℕ := 255

/-- `_insert_version`. The new version takes its metadata from the chunk row. -/
def insertChunkVersion (host : Host) (call : VersionCall) (chunk : SemanticChunkRow)
    (versionNo : ℕ) (value : Text) (operation : Text) (previousVersionId : Option Uuid)
    (restoredFromVersionId : Option Uuid) (db : Db) : Except Failure (SemanticChunkVersion × Db) := do
  let sourceVersionId := sourceVersionIdOf host chunk.blockMeta
  raiseIf (sourceVersionId.any fun text ↦ shortTextWidth < text.length)
    (.outOfRange "semantic_chunk_versions.source_version_id")
  raiseIf (call.actor.any fun text ↦ shortTextWidth < text.length)
    (.outOfRange "semantic_chunk_versions.actor")
  let row : SemanticChunkVersion :=
    { id := call.versionId
      chunkUuid := chunk.id
      logicalChunkId := chunk.id
      previousVersionId
      restoredFromVersionId
      versionNo
      text := value
      textSha256 := host.hexdigest value
      charCount := value.length
      sourceVersionId
      sourceStart := chunk.sourceStart
      sourceEnd := chunk.sourceEnd
      orderIndex := chunk.orderIndex
      isCurrent := false
      validFrom := call.now
      comment := call.comment
      actor := call.actor
      operation := some operation
      operationId := call.operationId
      blockMeta := chunk.blockMeta }
  let db ← db.insertVersion row
  return (row, db)

/-- A version that loses the flag. -/
def SemanticChunkVersion.retired (row : SemanticChunkVersion) (now : Instant) :
    SemanticChunkVersion :=
  { row with isCurrent := false, status := .retired, validTo := row.validTo.or (some now) }

/-- A version that gets the flag. -/
def SemanticChunkVersion.activated (row : SemanticChunkVersion) (call : VersionCall)
    (operation : Text) : SemanticChunkVersion :=
  { row with
    isCurrent := true
    status := .active
    deletedAt := none
    validTo := none
    comment := call.comment.or row.comment
    actor := call.actor.or row.actor
    operation := some operation }

/-- A version without its references to a deleted one. -/
def SemanticChunkVersion.cleared (row : SemanticChunkVersion) (versionId : Uuid) :
    SemanticChunkVersion :=
  { row with
    previousVersionId := row.previousVersionId.filter fun id ↦ id ≠ versionId
    restoredFromVersionId := row.restoredFromVersionId.filter fun id ↦ id ≠ versionId }

/-- The versions once one is the only current one of its logical chunk. -/
def flagCurrent (call : VersionCall) (row : SemanticChunkVersion) (operation : Text)
    (versions : List SemanticChunkVersion) : List SemanticChunkVersion :=
  updateWhere (fun old ↦ old.id = row.id) (fun old ↦ old.activated call operation)
    (updateWhere
      (fun old ↦ old.logicalChunkId = row.logicalChunkId && old.isCurrent && old.id ≠ row.id)
      (fun old ↦ old.retired call.now) versions)

/-- The pointer to a version. -/
def VersionCall.pointer (call : VersionCall) (chunkUuid versionId : Uuid) (operation : Text) :
    SemanticChunkCurrent where
  chunkUuid := chunkUuid
  versionId := versionId
  comment := call.comment
  actor := call.actor
  operation := some operation

/-- Copies a version into the text row of its chunk. -/
def projectText (chunkUuid : Uuid) (row : SemanticChunkVersion) (db : Db) : Db :=
  { db with
    semanticChunkTexts := updateWhere (fun old ↦ old.chunkUuid = chunkUuid)
      (fun old ↦ { old with
        text := row.text
        textSha256 := row.textSha256
        charCount := row.text.length
        blockMeta := row.blockMeta })
      db.semanticChunkTexts
    semanticChunks := updateWhere (fun old ↦ old.id = chunkUuid)
      (fun old ↦ { old with text := [], charCount := row.text.length }) db.semanticChunks }

/-- `_activate`. -/
def activate (call : VersionCall) (chunkUuid : Uuid) (row : SemanticChunkVersion) (operation : Text)
    (db : Db) : Except Failure Db := do
  raiseIf (call.actor.any fun text ↦ shortTextWidth < text.length)
    (.outOfRange "semantic_chunk_versions.actor")
  let flagged : Db :=
    { db with semanticChunkVersions := flagCurrent call row operation db.semanticChunkVersions }
  let db ← flagged.setCurrent (call.pointer chunkUuid row.id operation)
  return projectText chunkUuid row db

section Operations

variable (host : Host) (call : VersionCall) (chunkUuid : Uuid) (db : Db)

/-- `_append_and_activate`. -/
def appendAndActivate (textValue operation : Text) (expectedCurrentVersion : Option ℤ) :
    Except Failure (VersionReply × Db) := do
  let chunk ← db.requireChunk chunkUuid
  db.assertExpectedCurrent chunkUuid expectedCurrentVersion
  let current := db.currentVersion chunkUuid
  if current.any fun row ↦ row.text = textValue then
    return ({ chunkId := chunkUuid, outcome := "unchanged", version := current }, db)
  else
    let (row, inserted) ← insertChunkVersion host call chunk (db.nextVersionNo chunkUuid) textValue
      operation (current.map SemanticChunkVersion.id) none db
    let next ← activate call chunkUuid row operation inserted
    return ({ chunkId := chunkUuid, outcome := "appended", version := next.versionById row.id }, next)

/-- `append_version`. -/
def appendVersion (textValue : Text) (expectedCurrentVersion : Option ℤ) :
    Except Failure (VersionReply × Db) :=
  appendAndActivate host call chunkUuid db textValue (lit "append") expectedCurrentVersion

/-- `update_text`. -/
def updateText (textValue : Text) (expectedCurrentVersion : Option ℤ) :
    Except Failure (VersionReply × Db) :=
  appendAndActivate host call chunkUuid db textValue (lit "update") expectedCurrentVersion

/-- `restore_version`. -/
def restoreVersion (versionNo : ℤ) (expectedCurrentVersion : Option ℤ) :
    Except Failure (VersionReply × Db) := do
  let version ← versionNumber versionNo
  let chunk ← db.requireChunk chunkUuid
  match db.version chunkUuid version with
  | none => .error (versionNotFound "semantic chunk text version was not found" chunkUuid
      "version_no" (.num version))
  | some source =>
    db.assertExpectedCurrent chunkUuid expectedCurrentVersion
    let (row, inserted) ← insertChunkVersion host call chunk (db.nextVersionNo chunkUuid)
      source.text (lit "restore") none (some source.id) db
    let next ← activate call chunkUuid row (lit "restore") inserted
    return ({ chunkId := chunkUuid, outcome := "restored", version := next.versionById row.id }, next)

/-- `set_current`. -/
def setCurrentVersion (versionNo : ℤ) : Except Failure (VersionReply × Db) := do
  let version ← versionNumber versionNo
  let _ ← db.requireChunk chunkUuid
  match (db.version chunkUuid version).filter fun row ↦ row.deletedAt.isNone with
  | none => .error (versionNotFound "semantic chunk text version was not found" chunkUuid
      "version_no" (.num version))
  | some row =>
    let next ← activate call chunkUuid row (lit "set_current") db
    return ({ chunkId := chunkUuid, outcome := "set_current", version := next.versionById row.id },
      next)

/-- Takes the flag from a version for good. -/
def retireRow (versionId : Uuid) : Db :=
  { db with
    semanticChunkVersions := updateWhere (fun old ↦ old.id = versionId)
      (fun old ↦ { old.retired call.now with
        comment := call.comment.or old.comment
        actor := call.actor.or old.actor
        operation := some (lit "retire") })
      db.semanticChunkVersions }

/-- Activates the version that is to replace a current one that is retired. -/
def activateReplacement (versionNo : ℕ) (replacement : Option ℕ) : Except Failure Db :=
  match replacement with
  | none => .error (.version "CURRENT_VERSION_RETIRE_REQUIRES_REPLACEMENT"
      "retiring the current chunk version requires replacement_version_no"
      [("chunk_id", .str (uuidText chunkUuid)), ("version_no", .num versionNo)])
  | some number =>
    match (db.version chunkUuid number).filter fun row ↦
        row.deletedAt.isNone && number ≠ versionNo with
    | none => .error (versionNotFound "replacement semantic chunk text version was not found"
        chunkUuid "replacement_version_no" (.num number))
    | some row => activate call chunkUuid row (lit "retire") db

/-- Lets go of a version that is about to be retired. -/
def replaceCurrent (row : SemanticChunkVersion) (versionNo : ℕ) (replacement : Option ℕ) :
    Except Failure Db :=
  if row.isCurrent then activateReplacement call chunkUuid db versionNo replacement else .ok db

/-- `retire_version`. -/
def retireVersion (versionNo : ℤ) (replacementVersionNo : Option ℤ) :
    Except Failure (VersionReply × Db) := do
  let version ← versionNumber versionNo
  let replacement ← optionalVersionNumber replacementVersionNo "replacement_version_no"
  let _ ← db.requireChunk chunkUuid
  match (db.version chunkUuid version).filter fun row ↦ row.deletedAt.isNone with
  | none => .error (versionNotFound "semantic chunk text version was not found" chunkUuid
      "version_no" (.num version))
  | some row =>
    let activeCount := (db.semanticChunkVersions.filter fun old ↦
      old.chunkUuid = chunkUuid && old.deletedAt.isNone && old.status ≠ .deleted).length
    raiseIf (activeCount = 1) (lastVersionDelete chunkUuid version)
    let replaced ← replaceCurrent call chunkUuid db row version replacement
    raiseIf (call.actor.any fun text ↦ shortTextWidth < text.length)
      (.outOfRange "semantic_chunk_versions.actor")
    let next := retireRow call replaced row.id
    return (
      { chunkId := chunkUuid
        outcome := "retired"
        removedVersionNo := version
        currentVersionNo := if row.isCurrent then replacement else next.currentVersionNo chunkUuid },
      next)

/-- Removes a version. The references of other versions to it are cleared, and the foreign key of
the pointers cascades. -/
def deleteRow (row : SemanticChunkVersion) : Db :=
  { db with
    semanticChunkVersions := (deleteWhere (fun old ↦
        old.chunkUuid = row.chunkUuid && old.versionNo = row.versionNo)
        db.semanticChunkVersions).map fun old ↦ old.cleared row.id
    semanticChunkCurrent := deleteWhere (fun pointer ↦ pointer.versionId = row.id)
      db.semanticChunkCurrent }

/-- `ORDER BY version_no DESC LIMIT 1` over the versions of a chunk that are not deleted. -/
def latestVersion : Option SemanticChunkVersion :=
  ((db.semanticChunkVersions.filter fun row ↦
    row.chunkUuid = chunkUuid && row.deletedAt.isNone).insertionSort fun first second ↦
      second.versionNo ≤ first.versionNo).head?

/-- Activates the latest version when the pointer of the chunk still names a deleted one. -/
def reactivateLatest (versionId : Uuid) : Except Failure Db :=
  let currentId := (lookup SemanticChunkCurrent.chunkUuid chunkUuid db.semanticChunkCurrent).map
    SemanticChunkCurrent.versionId
  if currentId = some versionId then
    match latestVersion chunkUuid db with
    | none => .error (.lookup "No row was found when one was required")
    | some replacement =>
      activate { now := call.now, versionId := call.versionId } chunkUuid replacement
        (lit "delete") db
  else .ok db

/-- `delete_version`. -/
def deleteVersion (versionNo : ℤ) : Except Failure (VersionReply × Db) := do
  let version ← versionNumber versionNo
  let _ ← db.requireChunk chunkUuid
  match db.version chunkUuid version with
  | none => .error (versionNotFound "semantic chunk text version was not found" chunkUuid
      "version_no" (.num version))
  | some row =>
    let count := (db.semanticChunkVersions.filter fun old ↦ old.chunkUuid = chunkUuid).length
    raiseIf (count = 1) (lastVersionDelete chunkUuid version)
    let next ← reactivateLatest call chunkUuid (deleteRow db row) row.id
    return (
      { chunkId := chunkUuid
        outcome := "deleted"
        removedVersionNo := version
        currentVersionNo := next.currentVersionNo chunkUuid },
      next)

end Operations

/-- The operations of the service. -/
inductive VersionOperation where
  | appendVersion (textValue : Text) (expectedCurrentVersion : Option ℤ)
  | updateText (textValue : Text) (expectedCurrentVersion : Option ℤ)
  | restoreVersion (versionNo : ℤ) (expectedCurrentVersion : Option ℤ)
  | setCurrent (versionNo : ℤ)
  | retireVersion (versionNo : ℤ) (replacementVersionNo : Option ℤ)
  | deleteVersion (versionNo : ℤ)

/-- A call of an operation on a chunk. -/
structure VersionAction where
  chunkUuid : Uuid
  call : VersionCall
  operation : VersionOperation

/-- What an operation does. -/
def VersionAction.apply (host : Host) (action : VersionAction) (db : Db) :
    Except Failure (VersionReply × Db) :=
  match action.operation with
  | .appendVersion textValue expected =>
    appendVersion host action.call action.chunkUuid db textValue expected
  | .updateText textValue expected =>
    updateText host action.call action.chunkUuid db textValue expected
  | .restoreVersion versionNo expected =>
    restoreVersion host action.call action.chunkUuid db versionNo expected
  | .setCurrent versionNo => setCurrentVersion action.call action.chunkUuid db versionNo
  | .retireVersion versionNo replacement =>
    retireVersion action.call action.chunkUuid db versionNo replacement
  | .deleteVersion versionNo => deleteVersion action.call action.chunkUuid db versionNo

/-- A successful operation as a step of the tables. -/
def versionStep (host : Host) (db : Db) (action : VersionAction) : Option Db :=
  (toOption (action.apply host db)).map Prod.snd

end DocStore
