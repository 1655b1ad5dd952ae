import DocStore.Runtime.ClassifierAgreement
import DocStore.Runtime.Invalidation

/-!
# Rows of a version

The rows of ten tables belong to a chunk and name the version of its text that they were computed
from: the six assignments, the metrics, the feedback, the tokens and the tags; and so do its
embeddings. Two writers make another version of a chunk the current one. The version service moves
all six assignments along and deletes or deactivates the rest (`DerivedDb.applyVersion`).
`update_entity` knows the status and the category only (`DerivedDb.updateChunk`), so that the rows
of a chunk follow its current version exactly when it has no assignment of the other four
classifiers (`followsCurrent_iff`).
-/

set_option autoImplicit false
set_option relaxedAutoImplicit false

namespace DocStore

open Foundation

/-! ### Tables -/

/-- A row of `semantic_chunk_metrics`, `semantic_chunk_feedback` or `semantic_chunk_tokens`. What it
says about the text does not matter here. -/
structure DerivedRow where
  chunkUuid : Uuid
  chunkVersionId : Option Uuid := none

/-- The tables of the classifiers and of the embeddings with the other rows of a version. -/
structure DerivedDb (ν : Type) extends ClassifiedDb, VectorDb ν where
  metrics : List DerivedRow := []
  feedback : List DerivedRow := []
  tokens : List DerivedRow := []

namespace DerivedDb

variable {ν : Type}

/-- A state with other tables of the publication and other embeddings. -/
def withVectors (store : DerivedDb ν) (vectors : VectorDb ν) : DerivedDb ν :=
  { store with
    toClassifiedDb := store.toClassifiedDb.withTables vectors.toDb
    embeddings := vectors.embeddings
    documentsToRevectorize := vectors.documentsToRevectorize
    filesToRevectorize := vectors.filesToRevectorize
    filesToRechunk := vectors.filesToRechunk }

/-- `ON DELETE SET NULL` of the foreign keys to a version that is deleted, if any is. -/
def clearVersion (deleted : Option Uuid) (store : DerivedDb ν) : DerivedDb ν :=
  let cleared (named : Option Uuid) : Option Uuid := named.filter fun id ↦ deleted ≠ some id
  let clear (rows : List DerivedRow) : List DerivedRow :=
    rows.map fun row ↦ { row with chunkVersionId := cleared row.chunkVersionId }
  { store with
    assignments := store.assignments.map fun row ↦
      { row with chunkVersionId := cleared row.chunkVersionId }
    tags := store.tags.map fun row ↦ { row with chunkVersionId := cleared row.chunkVersionId }
    embeddings := store.embeddings.map fun row ↦
      { row with chunkVersionId := cleared row.chunkVersionId }
    metrics := clear store.metrics
    feedback := clear store.feedback
    tokens := clear store.tokens }

/-- `DELETE FROM … WHERE chunk_uuid = :chunk_uuid` for the feedback, the metrics, the tokens and the
tags. -/
def deleteDerived (chunkUuid : Uuid) (store : DerivedDb ν) : DerivedDb ν :=
  let kept (rows : List DerivedRow) : List DerivedRow :=
    deleteWhere (fun row ↦ row.chunkUuid = chunkUuid) rows
  { store with
    feedback := kept store.feedback
    metrics := kept store.metrics
    tokens := kept store.tokens
    tags := deleteWhere (fun row ↦ row.chunkUuid = chunkUuid) store.tags }

end DerivedDb

/-! ### The version service -/

/-- `_VERSION_DEPENDENT_ASSIGNMENTS`. -/
def versionDependentAssignments : List DictionaryTable :=
  [.chunkTypes, .chunkRoles, .chunkStatuses, .blockTypes, .languages, .categories]

/-- The version that a call deletes. -/
def VersionAction.deleted (action : VersionAction) (db : Db) : Option Uuid :=
  match action.operation with
  | .deleteVersion versionNo =>
    (db.version action.chunkUuid versionNo.toNat).map SemanticChunkVersion.id
  | _ => none

/-- The version that a call which succeeds hands to `_activate`. -/
def VersionAction.activated (action : VersionAction) (db : Db) : Option Uuid :=
  match action.operation with
  | .appendVersion textValue _ | .updateText textValue _ =>
    if (db.currentVersion action.chunkUuid).any fun row ↦ row.text = textValue then none
    else some action.call.versionId
  | .restoreVersion _ _ => some action.call.versionId
  | .setCurrent versionNo =>
    (db.version action.chunkUuid versionNo.toNat).map SemanticChunkVersion.id
  | .retireVersion versionNo replacement =>
    if (db.version action.chunkUuid versionNo.toNat).any SemanticChunkVersion.isCurrent then
      replacement.bind fun number ↦
        (db.version action.chunkUuid number.toNat).map SemanticChunkVersion.id
    else none
  | .deleteVersion versionNo =>
    (db.version action.chunkUuid versionNo.toNat).bind fun row ↦
      if (deleteRow db row).pointedVersion action.chunkUuid = some row.id then
        (latestVersion action.chunkUuid (deleteRow db row)).map SemanticChunkVersion.id
      else none

namespace DerivedDb

variable {ν : Type}

/-- What `_activate` and `_invalidate_derived_rows` do to the rows of a version, apart from the
embeddings. -/
def followVersion (chunkUuid versionId : Uuid) (store : DerivedDb ν) : DerivedDb ν :=
  deleteDerived chunkUuid { store with
    assignments := updateWhere
      (fun row ↦ versionDependentAssignments.contains row.table && row.chunkUuid = chunkUuid)
      (fun row ↦ { row with chunkVersionId := some versionId }) store.assignments }

/-- A call of the version service. -/
def applyVersion (host : Host) (action : VersionAction) (store : DerivedDb ν) :
    Except Failure (DerivedDb ν) := do
  let cleared := store.clearVersion (action.deleted store.toDb)
  let vectors ← action.applyTo host cleared.toVectorDb
  let next := cleared.withVectors vectors
  return match action.activated store.toDb with
    | some versionId => next.followVersion action.chunkUuid versionId
    | none => next

/-! ### Updates of a chunk -/

/-- `update_entity` of a chunk, with what `_replace_semantic_chunk_text` does to the rows of a
version. -/
def updateChunk (host : Host) (entryId : DictionaryTable → Text → Uuid) (call : TextCall)
    (chunkUuid : Uuid) (values : TextValues) (store : DerivedDb ν) :
    Except Failure (DerivedDb ν) := do
  let classified ← store.toClassifiedDb.updateChunk host entryId call chunkUuid values
  let next : DerivedDb ν := { store with toClassifiedDb := classified }
  return if values.replacesText chunkUuid store.toDb then
      deleteDerived chunkUuid { next with
        embeddings := deleteWhere (fun row ↦ row.chunkUuid = some chunkUuid) next.embeddings }
    else next

end DerivedDb

/-- The operations that may make another version of a chunk the current one. The second one comes
with the `uuid4()` of the dictionary entries that are not there yet. -/
inductive VersionWriter where
  | service (action : VersionAction)
  | updateChunk (entryId : DictionaryTable → Text → Uuid) (call : TextCall) (chunkUuid : Uuid)
      (values : TextValues)

/-- What an operation leaves when it succeeds. -/
def VersionWriter.apply {ν : Type} (host : Host) (writer : VersionWriter) (store : DerivedDb ν) :
    Except Failure (DerivedDb ν) :=
  match writer with
  | .service action => store.applyVersion host action
  | .updateChunk entryId call chunkUuid values =>
    store.updateChunk host entryId call chunkUuid values

/-! ### The property and the condition -/

/-- Every row of a chunk that belongs to a version names the one that the pointer of the chunk
names. Of the embeddings, only the active ones are meant. -/
structure FollowsCurrent {ν : Type} (store : DerivedDb ν) (chunkUuid : Uuid) : Prop where
  assignments : ∀ row ∈ store.assignments, row.chunkUuid = chunkUuid →
    row.chunkVersionId = store.pointedVersion chunkUuid
  metrics : ∀ row ∈ store.metrics, row.chunkUuid = chunkUuid →
    row.chunkVersionId = store.pointedVersion chunkUuid
  feedback : ∀ row ∈ store.feedback, row.chunkUuid = chunkUuid →
    row.chunkVersionId = store.pointedVersion chunkUuid
  tokens : ∀ row ∈ store.tokens, row.chunkUuid = chunkUuid →
    row.chunkVersionId = store.pointedVersion chunkUuid
  tags : ∀ row ∈ store.tags, row.chunkUuid = chunkUuid →
    row.chunkVersionId = store.pointedVersion chunkUuid
  embeddings : ∀ row ∈ store.embeddings, row.active = true →
    row.entity = (.semanticChunk, chunkUuid) →
      row.chunkVersionId = store.pointedVersion chunkUuid

/-- The writer moves all assignments of a chunk along: it is the version service, or the chunk has
assignments only of the classifiers that a new text resets. -/
def VersionWriter.MovesAssignments {ν : Type} (writer : VersionWriter) (store : DerivedDb ν)
    (chunkUuid : Uuid) : Prop :=
  match writer with
  | .service _ => True
  | .updateChunk _ _ _ _ => ∀ row ∈ store.assignments, row.chunkUuid = chunkUuid →
      row.table.isReset = true

/-- What the keys promise about versions and the rows that name them, and what the writers of the
embeddings promise: an embedding names a chunk exactly when it stands for that chunk. -/
structure DerivedDb.Sound {ν : Type} (host : Host) (store : DerivedDb ν) : Prop where
  versioned : store.Versioned host
  references : ∀ row ∈ store.assignments, ∀ versionId ∈ row.chunkVersionId,
    ∃ version ∈ store.semanticChunkVersions, version.id = versionId
  entities : ∀ row ∈ store.embeddings, ∀ chunkUuid,
    row.chunkUuid = some chunkUuid ↔ row.entity = (.semanticChunk, chunkUuid)

/-! ### Pointers -/

section Pointers

variable {host : Host} {db middle next : Db} {chunkUuid other versionId : Uuid}

theorem pointedVersion_congr (hsame : next.semanticChunkCurrent = db.semanticChunkCurrent)
    (other : Uuid) : next.pointedVersion other = db.pointedVersion other := by
  rw [Db.pointedVersion, hsame, Db.pointedVersion]

/-- An upsert of a pointer moves it. -/
theorem map_versionId_lookup_upsert {pointer : SemanticChunkCurrent}
    {onConflict : SemanticChunkCurrent → SemanticChunkCurrent}
    (hkeep : ∀ old, old.chunkUuid = pointer.chunkUuid →
      (onConflict old).chunkUuid = pointer.chunkUuid)
    (hnames : ∀ old, (onConflict old).versionId = pointer.versionId)
    (pointers : List SemanticChunkCurrent) (other : Uuid) :
    (lookup SemanticChunkCurrent.chunkUuid other
        (upsert SemanticChunkCurrent.chunkUuid pointer onConflict pointers)).map
          SemanticChunkCurrent.versionId =
      if other = pointer.chunkUuid then some pointer.versionId
      else (lookup SemanticChunkCurrent.chunkUuid other pointers).map
        SemanticChunkCurrent.versionId := by
  rw [lookup_upsert hkeep]
  split
  · cases lookup SemanticChunkCurrent.chunkUuid other pointers with
    | none => rfl
    | some old => exact congrArg some (hnames old)
  · rfl

/-- An activation moves the pointer of its chunk. -/
theorem pointedVersion_of_activate {call : VersionCall} {row : SemanticChunkVersion}
    {operation : Text} (hactivate : activate call chunkUuid row operation db = .ok next)
    (other : Uuid) : next.pointedVersion other =
      if other = chunkUuid then some row.id else db.pointedVersion other := by
  rw [activate_eq_ok hactivate]
  exact map_versionId_lookup_upsert (fun _ _ ↦ rfl) (fun _ ↦ rfl) db.semanticChunkCurrent other

/-- A version that a chunk points to only after a call is the one that the call activates. -/
def PointsOnlyTo (db next : Db) (chunkUuid : Uuid) (activates : Bool) (activated : Option Uuid) :
    Prop :=
  ∀ other versionId, next.pointedVersion other = some versionId →
    db.pointedVersion other = some versionId ∨
      other = chunkUuid ∧ activates = true ∧ activated = some versionId

theorem PointsOnlyTo.of_same {activates : Bool} {activated : Option Uuid}
    (hsame : next.semanticChunkCurrent = db.semanticChunkCurrent) :
    PointsOnlyTo db next chunkUuid activates activated :=
  fun other _ hpointed ↦ .inl (pointedVersion_congr hsame other ▸ hpointed)

theorem PointsOnlyTo.of_activate {call : VersionCall} {row : SemanticChunkVersion}
    {operation : Text} (hsame : middle.semanticChunkCurrent = db.semanticChunkCurrent)
    (hactivate : activate call chunkUuid row operation middle = .ok next) :
    PointsOnlyTo db next chunkUuid true (some row.id) := by
  intro other versionId hpointed
  rw [pointedVersion_of_activate hactivate, pointedVersion_congr hsame] at hpointed
  split at hpointed
  next hown => exact .inr ⟨hown, rfl, hpointed⟩
  · exact .inl hpointed

/-- Deleting a version moves no pointer. -/
theorem PointsOnlyTo.of_deleteRow {target : SemanticChunkVersion} {activates : Bool}
    {activated : Option Uuid} (hpointers : (db.semanticChunkCurrent.map fun row ↦ row.chunkUuid).Nodup) :
    PointsOnlyTo db (deleteRow db target) chunkUuid activates activated := by
  intro other versionId hpointed
  obtain ⟨pointer, hfound, hnamed⟩ := Option.map_eq_some_iff.mp hpointed
  obtain ⟨hmem, hown⟩ := mem_of_lookup hfound
  have hbefore := (lookup_eq_some hpointers).mpr ⟨(mem_deleteWhere.mp hmem).1, hown⟩
  exact .inl (Option.map_eq_some_iff.mpr ⟨pointer, hbefore, hnamed⟩)

section Service

variable {action : VersionAction} {reply : VersionReply}

/-- An inserted version has the UUID that came with the call, and no pointer moves. -/
theorem inserted_of_insertChunkVersion {call : VersionCall} {chunk : SemanticChunkRow}
    {versionNo : ℕ} {value operation : Text} {previous restored : Option Uuid}
    {row : SemanticChunkVersion}
    (hinsert : insertChunkVersion host call chunk versionNo value operation previous restored db =
      .ok (row, next)) :
    row.id = call.versionId ∧ next.semanticChunkCurrent = db.semanticChunkCurrent := by
  obtain ⟨-, hinsert⟩ := raiseIf_bind_eq_ok.mp hinsert
  obtain ⟨-, hinsert⟩ := raiseIf_bind_eq_ok.mp hinsert
  obtain ⟨inserted, hversion, hinsert⟩ := bind_eq_ok.mp hinsert
  obtain ⟨-, rfl⟩ := Db.insertVersion_eq_ok.mp hversion
  cases hinsert
  exact ⟨rfl, rfl⟩

theorem pointsOnlyTo_of_appendAndActivate {textValue operation : Text} {expected : Option ℤ}
    (happly : appendAndActivate host action.call action.chunkUuid db textValue operation expected =
      .ok (reply, next)) :
    PointsOnlyTo db next action.chunkUuid (reply.outcome = "appended")
      (if (db.currentVersion action.chunkUuid).any fun row ↦ row.text = textValue then none
        else some action.call.versionId) := by
  obtain ⟨chunk, -, happly⟩ := bind_eq_ok.mp happly
  obtain ⟨-, -, happly⟩ := bind_eq_ok.mp happly
  dsimp only at happly
  split at happly
  · cases happly
    exact .of_same rfl
  next hother =>
    obtain ⟨⟨row, inserted⟩, hinsert, happly⟩ := bind_eq_ok.mp happly
    obtain ⟨activated, hactivate, happly⟩ := bind_eq_ok.mp happly
    cases happly
    obtain ⟨hid, hsame⟩ := inserted_of_insertChunkVersion hinsert
    rw [if_neg hother, ← hid]
    exact .of_activate hsame hactivate

theorem pointsOnlyTo_of_restoreVersion {number : ℤ} {expected : Option ℤ}
    (happly : restoreVersion host action.call action.chunkUuid db number expected =
      .ok (reply, next)) :
    PointsOnlyTo db next action.chunkUuid true (some action.call.versionId) := by
  obtain ⟨wanted, -, happly⟩ := bind_eq_ok.mp happly
  obtain ⟨chunk, -, happly⟩ := bind_eq_ok.mp happly
  split at happly
  · cases happly
  · obtain ⟨-, -, happly⟩ := bind_eq_ok.mp happly
    obtain ⟨⟨row, inserted⟩, hinsert, happly⟩ := bind_eq_ok.mp happly
    obtain ⟨activated, hactivate, happly⟩ := bind_eq_ok.mp happly
    cases happly
    obtain ⟨hid, hsame⟩ := inserted_of_insertChunkVersion hinsert
    rw [← hid]
    exact .of_activate hsame hactivate

theorem pointsOnlyTo_of_setCurrentVersion {number : ℤ}
    (happly : setCurrentVersion action.call action.chunkUuid db number = .ok (reply, next)) :
    PointsOnlyTo db next action.chunkUuid true
      ((db.version action.chunkUuid number.toNat).map SemanticChunkVersion.id) := by
  obtain ⟨wanted, hwanted, happly⟩ := bind_eq_ok.mp happly
  obtain ⟨-, hwanted⟩ := raiseIf_bind_eq_ok.mp hwanted
  cases hwanted
  obtain ⟨chunk, -, happly⟩ := bind_eq_ok.mp happly
  split at happly
  · cases happly
  next row hfound =>
    obtain ⟨hversion, -⟩ := Option.filter_eq_some_iff.mp hfound
    obtain ⟨activated, hactivate, happly⟩ := bind_eq_ok.mp happly
    cases happly
    rw [hversion, Option.map_some]
    exact .of_activate rfl hactivate

theorem pointsOnlyTo_of_activateReplacement {number : ℕ} {replacement : Option ℕ}
    (hactivate : activateReplacement action.call action.chunkUuid db number replacement =
      .ok next) :
    PointsOnlyTo db next action.chunkUuid true (replacement.bind fun number ↦
      (db.version action.chunkUuid number).map SemanticChunkVersion.id) := by
  unfold activateReplacement at hactivate
  split at hactivate
  · cases hactivate
  next wanted =>
    split at hactivate
    · cases hactivate
    next row hfound =>
      obtain ⟨hversion, -⟩ := Option.filter_eq_some_iff.mp hfound
      rw [Option.bind_some, hversion, Option.map_some]
      exact .of_activate rfl hactivate

theorem pointsOnlyTo_of_retireVersion {number : ℤ} {replacement : Option ℤ}
    (happly : retireVersion action.call action.chunkUuid db number replacement =
      .ok (reply, next)) :
    PointsOnlyTo db next action.chunkUuid
      ((db.version action.chunkUuid number.toNat).any SemanticChunkVersion.isCurrent)
      (if (db.version action.chunkUuid number.toNat).any SemanticChunkVersion.isCurrent then
        replacement.bind fun number ↦
          (db.version action.chunkUuid number.toNat).map SemanticChunkVersion.id
      else none) := by
  obtain ⟨wanted, hwanted, happly⟩ := bind_eq_ok.mp happly
  obtain ⟨-, hwanted⟩ := raiseIf_bind_eq_ok.mp hwanted
  cases hwanted
  obtain ⟨replacing, hreplacing, happly⟩ := bind_eq_ok.mp happly
  obtain ⟨-, hreplacing⟩ := raiseIf_bind_eq_ok.mp hreplacing
  cases hreplacing
  obtain ⟨chunk, -, happly⟩ := bind_eq_ok.mp happly
  split at happly
  · cases happly
  next row hfound =>
    obtain ⟨hversion, -⟩ := Option.filter_eq_some_iff.mp hfound
    obtain ⟨-, happly⟩ := raiseIf_bind_eq_ok.mp happly
    obtain ⟨replaced, hreplace, happly⟩ := bind_eq_ok.mp happly
    obtain ⟨-, happly⟩ := raiseIf_bind_eq_ok.mp happly
    cases happly
    rw [hversion, Option.any_some]
    unfold replaceCurrent at hreplace
    split at hreplace
    next hcurrent =>
      rw [hcurrent, if_pos rfl]
      have hpoints := pointsOnlyTo_of_activateReplacement hreplace
      rw [Option.bind_map] at hpoints
      exact hpoints
    next =>
      cases hreplace
      exact .of_same rfl

theorem pointsOnlyTo_of_deleteVersion {number : ℤ} {activates : Bool} {activated : Option Uuid}
    (hpointers : (db.semanticChunkCurrent.map fun row ↦ row.chunkUuid).Nodup)
    (happly : deleteVersion action.call action.chunkUuid db number = .ok (reply, next)) :
    PointsOnlyTo db next action.chunkUuid activates activated := by
  obtain ⟨wanted, -, happly⟩ := bind_eq_ok.mp happly
  obtain ⟨chunk, -, happly⟩ := bind_eq_ok.mp happly
  split at happly
  · cases happly
  next row hversion =>
    obtain ⟨-, happly⟩ := raiseIf_bind_eq_ok.mp happly
    obtain ⟨reactivated, hreactivate, happly⟩ := bind_eq_ok.mp happly
    rw [reactivateLatest_deleteRow] at hreactivate
    cases hreactivate
    cases happly
    exact .of_deleteRow hpointers

/-- **A version that a call makes current is the one that it activates.** -/
theorem pointsOnlyTo_of_apply (hdb : db.Versioned host)
    (happly : action.apply host db = .ok (reply, next)) :
    PointsOnlyTo db next action.chunkUuid (action.activates db reply) (action.activated db) := by
  obtain ⟨chunkUuid, call, operation⟩ := action
  cases operation with
  | appendVersion => exact pointsOnlyTo_of_appendAndActivate happly
  | updateText => exact pointsOnlyTo_of_appendAndActivate happly
  | restoreVersion => exact pointsOnlyTo_of_restoreVersion happly
  | setCurrent => exact pointsOnlyTo_of_setCurrentVersion happly
  | retireVersion => exact pointsOnlyTo_of_retireVersion happly
  | deleteVersion => exact pointsOnlyTo_of_deleteVersion hdb.pointers happly

end Service

/-! ### Updates of a chunk -/

variable {call : TextCall} {values : TextValues}

/-- What an update of a chunk does to the pointers: none moves unless the text is replaced, and then
the one of the chunk moves to a new version. -/
theorem pointedVersion_of_updateChunkValues
    (hupdate : updateChunkValues host call chunkUuid values db = .ok next) :
    (values.replacesText chunkUuid db = false ∧
      ∀ other, next.pointedVersion other = db.pointedVersion other) ∨
    (values.replacesText chunkUuid db = true ∧
      (∀ version ∈ db.semanticChunkVersions, version.id ≠ call.versionId) ∧
      ∀ other, next.pointedVersion other =
        if other = chunkUuid then some call.versionId else db.pointedVersion other) := by
  obtain ⟨-, hupdate⟩ := raiseIf_bind_eq_ok.mp hupdate
  obtain ⟨-, -, hupdate⟩ := bind_eq_ok.mp hupdate
  obtain ⟨-, hupdate⟩ := raiseIf_bind_eq_ok.mp hupdate
  obtain ⟨-, -, hupdate⟩ := bind_eq_ok.mp hupdate
  rw [TextValues.replacesText]
  dsimp only at hupdate
  split at hupdate
  next hnone =>
    cases hupdate
    rw [hnone]
    exact .inl ⟨rfl, fun _ ↦ rfl⟩
  next textValue hvalue =>
    rw [hvalue, Option.any_some]
    obtain ⟨chunk, -, hupdate⟩ := bind_eq_ok.mp hupdate
    split at hupdate
    next hsame =>
      have hstored : db.chunkText chunkUuid = some textValue := hsame
      cases hupdate
      exact .inl ⟨by simp [hstored], fun _ ↦ rfl⟩
    next hother =>
      have hstored : db.chunkText chunkUuid ≠ some textValue := hother
      obtain ⟨inserted, hinsert, hupdate⟩ := bind_eq_ok.mp hupdate
      obtain ⟨hfits, rfl⟩ := Db.insertVersion_eq_ok.mp hinsert
      obtain ⟨pointing, hpoint, hupdate⟩ := bind_eq_ok.mp hupdate
      obtain ⟨-, hpoint⟩ := raiseIf_bind_eq_ok.mp hpoint
      obtain ⟨-, hpoint⟩ := raiseIf_bind_eq_ok.mp hpoint
      cases hpoint
      cases hupdate
      refine .inr ⟨by simpa using hstored, hfits.id, fun other ↦ ?_⟩
      exact @map_versionId_lookup_upsert { chunkUuid, versionId := call.versionId }
        (fun pointer ↦ { pointer with versionId := call.versionId }) (fun _ hkey ↦ hkey)
        (fun _ ↦ rfl) db.semanticChunkCurrent other

end Pointers

/-! ### What the writers leave -/

section Rows

variable {ν : Type} {host : Host} {store next : DerivedDb ν} {chunkUuid versionId : Uuid}

theorem DictionaryTable.isReset_eq_true {table : DictionaryTable} :
    table.isReset = true ↔ table ∈ resetEntries.map Prod.fst := by
  cases table <;> decide

theorem mem_setAssignments_of_not {version : Option Uuid} {ids : List (DictionaryTable × Uuid)}
    {assignments : List ChunkAssignment} {row : ChunkAssignment} (hmem : row ∈ assignments)
    (hother : row.table ∉ ids.map Prod.fst) :
    row ∈ setAssignments chunkUuid version ids assignments := by
  refine mem_upsertAll_of_not hmem fun replacing hreplacing hkey ↦ hother ?_
  obtain ⟨⟨table, dictionaryId⟩, hid, rfl⟩ := List.mem_map.mp hreplacing
  exact List.mem_map.mpr ⟨_, hid, (congrArg Prod.snd hkey).symm⟩

/-- An assignment of the chunk has the version that is set, or it is of another classifier. -/
theorem mem_setAssignments {version : Option Uuid} {ids : List (DictionaryTable × Uuid)}
    {assignments : List ChunkAssignment} {row : ChunkAssignment}
    (hmem : row ∈ setAssignments chunkUuid version ids assignments)
    (hchunk : row.chunkUuid = chunkUuid) :
    row.chunkVersionId = version ∨ row ∈ assignments ∧ row.table ∉ ids.map Prod.fst := by
  rcases mem_or_of_mem_upsertAll hmem with hnew | ⟨hold, hothers⟩
  · obtain ⟨id, -, rfl⟩ := List.mem_map.mp hnew
    exact .inl rfl
  · refine .inr ⟨hold, fun htable ↦ ?_⟩
    obtain ⟨⟨table, dictionaryId⟩, hid, rfl⟩ := List.mem_map.mp htable
    exact hothers _ (List.mem_map_of_mem hid) (Prod.ext hchunk rfl)

theorem not_mem_deleteWhere {rows : List DerivedRow} {row : DerivedRow}
    (hmem : row ∈ deleteWhere (fun row ↦ row.chunkUuid = chunkUuid) rows) :
    row.chunkUuid ≠ chunkUuid := by
  simpa using (mem_deleteWhere.mp hmem).2

/-- What is left of the rows that are deleted with a version follows any version. -/
theorem followsCurrent_deleteDerived
    (hassignments : ∀ row ∈ store.assignments, row.chunkUuid = chunkUuid →
      row.chunkVersionId = store.pointedVersion chunkUuid)
    (hembeddings : ∀ row ∈ store.embeddings, row.active = true →
      row.entity ≠ (.semanticChunk, chunkUuid)) :
    FollowsCurrent (store.deleteDerived chunkUuid) chunkUuid where
  assignments := hassignments
  metrics _ hrow hchunk := absurd hchunk (not_mem_deleteWhere hrow)
  feedback _ hrow hchunk := absurd hchunk (not_mem_deleteWhere hrow)
  tokens _ hrow hchunk := absurd hchunk (not_mem_deleteWhere hrow)
  tags row hrow hchunk := absurd hchunk (by simpa using (mem_deleteWhere.mp hrow).2)
  embeddings row hrow hactive hentity := absurd hentity (hembeddings row hrow hactive)

/-- The list of the version service names all assignments. -/
theorem mem_versionDependentAssignments (table : DictionaryTable) :
    table ∈ versionDependentAssignments := by
  cases table <;> decide

/-- What a call of the version service does to the rows of a version. -/
theorem exists_of_applyVersion {action : VersionAction}
    (happly : store.applyVersion host action = .ok next) : ∃ (moved : DerivedDb ν) (reply : _),
      action.apply host store.toDb = .ok (reply, moved.toDb) ∧
      (action.activates store.toDb reply = true → ∀ row ∈ moved.embeddings, row.active = true →
        row.entity ≠ (.semanticChunk, action.chunkUuid)) ∧
      next = match action.activated store.toDb with
        | some versionId => moved.followVersion action.chunkUuid versionId
        | none => moved := by
  obtain ⟨vectors, hvectors, hnext⟩ := bind_eq_ok.mp happly
  obtain ⟨⟨reply, db⟩, hservice, hvectors⟩ := bind_eq_ok.mp hvectors
  cases hnext
  refine ⟨_, reply, ?_, fun hactivates ↦ ?_, rfl⟩
  · cases hvectors
    dsimp only
    split <;> exact hservice
  · have hcleared : action.activates (store.clearVersion (action.deleted store.toDb)).toDb reply =
        true := hactivates
    simp only [hcleared, if_true] at hvectors
    cases hvectors
    intro row hrow hactive hentity
    refine (invalidated_invalidateDerivedRows action.chunkUuid _).embeddings row hrow hactive ?_
    exact hentity ▸ List.mem_cons_self

/-- After a call of the version service that makes another version current, everything follows. -/
theorem followsCurrent_of_applyVersion {action : VersionAction} (hstore : store.Sound host)
    (happly : store.applyVersion host action = .ok next)
    (hpointed : next.pointedVersion chunkUuid = some versionId)
    (hother : store.pointedVersion chunkUuid ≠ some versionId) : FollowsCurrent next chunkUuid := by
  obtain ⟨moved, reply, hservice, hembeddings, rfl⟩ := exists_of_applyVersion happly
  have hmoved : moved.pointedVersion chunkUuid = some versionId := by
    rw [← hpointed]
    split <;> rfl
  rcases pointsOnlyTo_of_apply hstore.versioned hservice chunkUuid versionId hmoved with
    hold | ⟨rfl, hactivates, hactivated⟩
  · exact absurd hold hother
  · rw [hactivated]
    refine followsCurrent_deleteDerived (fun row hrow hchunk ↦ ?_) (hembeddings hactivates)
    obtain ⟨old, -, rfl⟩ := mem_updateWhere.mp hrow
    refine Eq.trans ?_ hmoved.symm
    have hselected : (versionDependentAssignments.contains old.table &&
        decide (old.chunkUuid = action.chunkUuid)) = true := by
      have hown : old.chunkUuid = action.chunkUuid := by
        rw [← hchunk]
        split <;> rfl
      simp [mem_versionDependentAssignments, hown]
    rw [if_pos hselected]

/-- After an update of a chunk that makes another version current, everything follows exactly when
the chunk has no other assignments than those that are reset. -/
theorem followsCurrent_updateChunk_iff {entryId : DictionaryTable → Text → Uuid} {call : TextCall}
    {updated : Uuid} {values : TextValues} (hstore : store.Sound host)
    (happly : store.updateChunk host entryId call updated values = .ok next)
    (hpointed : next.pointedVersion chunkUuid = some versionId)
    (hother : store.pointedVersion chunkUuid ≠ some versionId) :
    FollowsCurrent next chunkUuid ↔
      ∀ row ∈ store.assignments, row.chunkUuid = chunkUuid → row.table.isReset = true := by
  obtain ⟨classified, hclassified, hnext⟩ := bind_eq_ok.mp happly
  obtain ⟨tables, htables, hclassified⟩ := bind_eq_ok.mp hclassified
  rcases pointedVersion_of_updateChunkValues htables with
    ⟨hkept, hsame⟩ | ⟨hreplaced, hfresh, hpoints⟩
  · simp only [hkept] at hclassified hnext
    cases hclassified
    cases hnext
    exact absurd ((hsame chunkUuid).symm.trans hpointed) hother
  · simp only [hreplaced, if_true] at hclassified hnext
    obtain ⟨⟨ids, entities⟩, hids, hreset⟩ := bind_eq_ok.mp hclassified
    cases hreset
    cases hnext
    obtain ⟨-, rfl⟩ := EntityDb.exists_dictionaryIds_iff.mp ⟨ids, hids⟩
    have hlisted := (EntityDb.lookedUp_of_dictionaryIds hids).tables
    have hmoved : tables.pointedVersion chunkUuid = some versionId := hpointed
    rw [hpoints] at hmoved
    split at hmoved
    next hown =>
      subst hown
      obtain rfl := Option.some.inj hmoved
      constructor
      · intro hfollows row hrow hchunk
        by_contra hreset
        rw [DictionaryTable.isReset_eq_true, ← hlisted] at hreset
        have hversion := hfollows.assignments row (mem_setAssignments_of_not hrow hreset) hchunk
        obtain ⟨version, hmem, hid⟩ := hstore.references row hrow call.versionId
          (hversion.trans hpointed)
        exact hfresh version hmem hid
      · intro hresets
        refine followsCurrent_deleteDerived (fun row hrow hchunk ↦ ?_)
          fun row hrow _ hentity ↦ ?_
        · rcases mem_setAssignments hrow hchunk with hversion | ⟨hold, hother⟩
          · exact hversion.trans hpointed.symm
          · rw [hlisted, ← DictionaryTable.isReset_eq_true] at hother
            exact absurd (hresets row hold hchunk) hother
        · obtain ⟨hold, hleft⟩ := mem_deleteWhere.mp hrow
          rw [(hstore.entities row hold chunkUuid).mpr hentity] at hleft
          simp at hleft
    · exact absurd hmoved hother

/-- **Which writers let everything follow.** For every operation that succeeds and makes another
version of a chunk the current one: afterwards every row of the chunk that belongs to a version names
the current one, if and only if the operation is one of the version service or the chunk had
assignments only of the classifiers that a new text resets. -/
theorem followsCurrent_iff {writer : VersionWriter} (hstore : store.Sound host)
    (happly : writer.apply host store = .ok next)
    (hpointed : next.pointedVersion chunkUuid = some versionId)
    (hother : store.pointedVersion chunkUuid ≠ some versionId) :
    FollowsCurrent next chunkUuid ↔ writer.MovesAssignments store chunkUuid := by
  cases writer with
  | service action =>
    exact iff_of_true (followsCurrent_of_applyVersion hstore happly hpointed hother) trivial
  | updateChunk entryId call updated values =>
    exact followsCurrent_updateChunk_iff hstore happly hpointed hother

end Rows

/-! ### The chunk with its rows -/

/-- The chunk with an assignment of its type and of its status, a row of each other table and an
embedding. -/
def derivedChunk : DerivedDb ℕ where
  toDb := seededChunk
  assignments :=
    [{ chunkUuid := 1, table := .chunkTypes, dictionaryId := 21, chunkVersionId := some 11 },
      { chunkUuid := 1, table := .chunkStatuses, dictionaryId := 22, chunkVersionId := some 11 }]
  tags := [{ chunkUuid := 1, chunkVersionId := some 11, ordinal := 0, tagValue := lit "t" }]
  embeddings := embeddedChunk.embeddings
  metrics := [{ chunkUuid := 1, chunkVersionId := some 11 }]
  feedback := [{ chunkUuid := 1, chunkVersionId := some 11 }]
  tokens := [{ chunkUuid := 1, chunkVersionId := some 11 }]

theorem sound_derivedChunk : derivedChunk.Sound sampleHost where
  versioned := versioned_seededChunk
  references := by simp [derivedChunk, seededChunk]
  entities := by simp [derivedChunk, embeddedChunk, EmbeddingRow.entity, eq_comm]

/-- A new text by way of the version service. -/
def serviceWriter : VersionWriter :=
  .service { chunkUuid := 1, call := { now := 1, versionId := 12 }
             operation := .appendVersion (lit "b") none }

/-- The same text by way of `update_entity`. -/
def updateWriter : VersionWriter :=
  .updateChunk (fun table _ ↦ if table = .chunkStatuses then 31 else 32) { now := 1, versionId := 12 } 1
    { text := some (lit "b") }

/-- What an operation on the chunk leaves. -/
def afterWriter (writer : VersionWriter) : DerivedDb ℕ :=
  (toOption (writer.apply sampleHost derivedChunk)).getD derivedChunk

/-- After a call of the version service everything follows. -/
theorem followsCurrent_serviceWriter :
    (afterWriter serviceWriter).pointedVersion 1 = some 12 ∧
      FollowsCurrent (afterWriter serviceWriter) 1 := by
  have happly : serviceWriter.apply sampleHost derivedChunk = .ok (afterWriter serviceWriter) := by
    rw [afterWriter]
    exact eq_ok_of_succeeds (by decide +kernel)
  have hpointed : (afterWriter serviceWriter).pointedVersion 1 = some 12 := by decide +kernel
  exact ⟨hpointed,
    (followsCurrent_iff sound_derivedChunk happly hpointed (by decide +kernel)).mpr trivial⟩

/-- After the update of the text the type is assigned to the version before. -/
theorem not_followsCurrent_updateWriter :
    succeeds (updateWriter.apply sampleHost derivedChunk) = true ∧
      (afterWriter updateWriter).pointedVersion 1 = some 12 ∧
      ¬FollowsCurrent (afterWriter updateWriter) 1 := by
  refine ⟨by decide +kernel, by decide +kernel, fun hfollows ↦ ?_⟩
  have hstale : ¬∀ row ∈ (afterWriter updateWriter).assignments, row.chunkUuid = 1 →
      row.chunkVersionId = (afterWriter updateWriter).pointedVersion 1 := by
    decide +kernel
  exact hstale hfollows.assignments

end DocStore
