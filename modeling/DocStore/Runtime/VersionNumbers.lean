import DocStore.Foundation.Numbering
import DocStore.Runtime.CurrentVersion

/-!
# One text per version number

The number of a new version is one more than the largest number that is still there. As long as the
version with the largest number is not deleted, the numbers of a chunk only grow, so that a number
which was seen once keeps naming the same version and the same text (`SeenVersions.step`). A caller
that passes the number of the current version as the expected one is then told whether the text is
still the one it read.
-/

set_option autoImplicit false
set_option relaxedAutoImplicit false

namespace DocStore

open Foundation

/-! ### What a number names -/

/-- What is fixed about a version when it is inserted. -/
structure VersionIdentity where
  id : Uuid
  chunkUuid : Uuid
  versionNo : ℕ
  text : Text
deriving DecidableEq

/-- What is fixed about a version. -/
def SemanticChunkVersion.identity (row : SemanticChunkVersion) : VersionIdentity where
  id := row.id
  chunkUuid := row.chunkUuid
  versionNo := row.versionNo
  text := row.text

/-- What is fixed about the versions that are there. -/
def Db.identities (db : Db) : List VersionIdentity :=
  db.semanticChunkVersions.map SemanticChunkVersion.identity

/-- An operation is a deletion of the version with the largest number of a chunk. -/
def deletesLatest (chunkUuid : Uuid) (db : Db) (action : VersionAction) : Bool :=
  match action.operation with
  | .deleteVersion versionNo =>
    action.chunkUuid = chunkUuid && db.nextVersionNo chunkUuid = versionNo.toNat + 1
  | _ => false

/-- The expected current version number that an operation carries. -/
def VersionOperation.expectedCurrentVersion : VersionOperation → Option ℤ
  | .appendVersion _ expected => expected
  | .updateText _ expected => expected
  | .restoreVersion _ expected => expected
  | _ => none

section Numbers

variable {host : Host} {db next earlier later : Db} {chunkUuid : Uuid} {action : VersionAction}

theorem mem_identities {row : SemanticChunkVersion} (hrow : row ∈ db.semanticChunkVersions) :
    row.identity ∈ db.identities :=
  List.mem_map_of_mem hrow

theorem nextVersionNo_eq (db : Db) (chunkUuid : Uuid) :
    db.nextVersionNo chunkUuid = nextNumber
      ((db.identities.filter fun row ↦ row.chunkUuid = chunkUuid).map VersionIdentity.versionNo) := by
  rw [Db.identities, List.filter_map, List.map_map]
  rfl

theorem map_identity_flagCurrent (call : VersionCall) (row : SemanticChunkVersion)
    (operation : Text) (versions : List SemanticChunkVersion) :
    (flagCurrent call row operation versions).map SemanticChunkVersion.identity =
      versions.map SemanticChunkVersion.identity := by
  rw [flagCurrent]
  refine (map_updateWhere ?_ _).trans (map_updateWhere ?_ _)
  · exact fun _ ↦ rfl
  · exact fun _ ↦ rfl

/-- Activation fixes nothing anew. -/
theorem identities_of_activate {call : VersionCall} {row : SemanticChunkVersion} {operation : Text}
    (hactivate : activate call chunkUuid row operation db = .ok next) :
    next.identities = db.identities := by
  obtain rfl := activate_eq_ok hactivate
  exact map_identity_flagCurrent call row operation db.semanticChunkVersions

theorem identities_retireRow (call : VersionCall) (db : Db) (versionId : Uuid) :
    (retireRow call db versionId).identities = db.identities := by
  rw [Db.identities, Db.identities, retireRow]
  refine map_updateWhere ?_ _
  exact fun _ ↦ rfl

/-- What an operation does to the numbers. -/
theorem VersionEffect.identities (heffect : VersionEffect host db action next) :
    next.identities = db.identities ∨
      (∃ new : VersionIdentity, new.chunkUuid = action.chunkUuid ∧
        new.versionNo = db.nextVersionNo action.chunkUuid ∧
        next.identities = db.identities ++ [new]) ∨
      ∃ number, action.operation = .deleteVersion number ∧
        next.identities = db.identities.filter fun row ↦
          !(row.chunkUuid = action.chunkUuid && row.versionNo = number.toNat) := by
  cases heffect with
  | unchanged => exact Or.inl rfl
  | @appended row _ _ _ hinsert hactivate =>
    refine Or.inr (Or.inl ⟨row.identity, hinsert.ownChunk, hinsert.number, ?_⟩)
    rw [identities_of_activate hactivate, hinsert.added, Db.identities, List.map_append]
    rfl
  | activated hrow hchunk hactivate => exact Or.inl (identities_of_activate hactivate)
  | retired hrow hnot => exact Or.inl (identities_retireRow _ _ _)
  | replaced hrow hchunk hreplacement hown hne hactivate =>
    exact Or.inl ((identities_retireRow _ _ _).trans (identities_of_activate hactivate))
  | @deleted target number hoperation htarget hchunk hnumber =>
    refine Or.inr (Or.inr ⟨number, hoperation, ?_⟩)
    rw [Db.identities, deleteRow, List.map_map, Db.identities, List.filter_map, hchunk, hnumber]
    rfl

/-- What was seen of the versions of a chunk still holds: the next number has not gone back, and a
number below the next one of that time names what it named then. -/
structure SeenVersions (earlier later : Db) (chunkUuid : Uuid) : Prop where
  grows : earlier.nextVersionNo chunkUuid ≤ later.nextVersionNo chunkUuid
  same : ∀ row ∈ later.identities, row.chunkUuid = chunkUuid →
    row.versionNo < earlier.nextVersionNo chunkUuid → row ∈ earlier.identities

theorem SeenVersions.refl (db : Db) (chunkUuid : Uuid) : SeenVersions db db chunkUuid :=
  ⟨le_rfl, fun _ hrow _ _ ↦ hrow⟩

/-- The next number does not go back unless the largest number is deleted. -/
theorem VersionEffect.nextVersionNo_le (heffect : VersionEffect host db action next)
    (hkeep : deletesLatest chunkUuid db action = false) :
    db.nextVersionNo chunkUuid ≤ next.nextVersionNo chunkUuid := by
  rcases heffect.identities with hsame | ⟨new, -, -, hadded⟩ | ⟨number, hoperation, hdeleted⟩
  · rw [nextVersionNo_eq, nextVersionNo_eq, hsame]
  · rw [nextVersionNo_eq, nextVersionNo_eq, hadded]
    refine nextNumber_mono fun number hmem _ ↦ ?_
    rw [List.filter_append, List.map_append]
    exact List.mem_append_left _ hmem
  · rw [nextVersionNo_eq, nextVersionNo_eq]
    refine nextNumber_mono fun largest hmem hlargest ↦ ?_
    obtain ⟨row, hrow, rfl⟩ := List.mem_map.mp hmem
    obtain ⟨hrow, hchunk⟩ := List.mem_filter.mp hrow
    refine List.mem_map_of_mem (List.mem_filter.mpr ⟨?_, hchunk⟩)
    rw [hdeleted, List.mem_filter]
    refine ⟨hrow, ?_⟩
    rw [← nextVersionNo_eq] at hlargest
    have hchunk : row.chunkUuid = chunkUuid := of_decide_eq_true hchunk
    simp only [deletesLatest, hoperation, hlargest, Bool.and_eq_false_imp, decide_eq_true_eq,
      decide_eq_false_iff_not] at hkeep
    simp only [Bool.not_eq_true', Bool.and_eq_false_imp, decide_eq_true_eq, decide_eq_false_iff_not]
    intro hown hnumber
    exact hkeep (hown.symm.trans hchunk) (by rw [hnumber])

/-- **What one operation keeps of what was seen.** -/
theorem SeenVersions.step (hseen : SeenVersions earlier db chunkUuid)
    (heffect : VersionEffect host db action next)
    (hkeep : deletesLatest chunkUuid db action = false) : SeenVersions earlier next chunkUuid := by
  refine ⟨hseen.grows.trans (heffect.nextVersionNo_le hkeep), fun row hrow hchunk hnumber ↦ ?_⟩
  rcases heffect.identities with hsame | ⟨new, hown, hnew, hadded⟩ | ⟨number, -, hdeleted⟩
  · exact hseen.same row (hsame ▸ hrow) hchunk hnumber
  · rw [hadded] at hrow
    rcases List.mem_append.mp hrow with hold | hlast
    · exact hseen.same row hold hchunk hnumber
    · obtain rfl := List.mem_singleton.mp hlast
      rw [← hown, hchunk] at hnew
      exact absurd hseen.grows (by omega)
  · rw [hdeleted] at hrow
    exact hseen.same row (List.mem_of_mem_filter hrow) hchunk hnumber

/-- A run that does not delete the largest number. -/
theorem seenVersions_of_steps (hearlier : earlier.Versioned host)
    (hrun : Steps (versionStep host) (fun db action ↦ deletesLatest chunkUuid db action = false)
      earlier later) : later.Versioned host ∧ SeenVersions earlier later chunkUuid :=
  hrun.invariant (motive := fun db ↦ db.Versioned host ∧ SeenVersions earlier db chunkUuid)
    ⟨hearlier, .refl earlier chunkUuid⟩ fun _ _ _ ⟨hdb, hseen⟩ hallowed hstep ↦
      have heffect := versionEffect_of_versionStep hdb hstep
      ⟨heffect.versioned hdb, hseen.step heffect hallowed⟩

/-- A number that is seen twice names the same version. -/
theorem SeenVersions.identity_eq (hseen : SeenVersions earlier later chunkUuid)
    (hearlier : earlier.Versioned host) {first second : SemanticChunkVersion}
    (hfirst : first ∈ earlier.semanticChunkVersions) (hown : first.chunkUuid = chunkUuid)
    (hsecond : second ∈ later.semanticChunkVersions) (hchunk : second.chunkUuid = chunkUuid)
    (hnumber : second.versionNo = first.versionNo) : second.identity = first.identity := by
  have hlt : second.identity.versionNo < earlier.nextVersionNo chunkUuid := by
    rw [nextVersionNo_eq]
    refine lt_nextNumber (List.mem_map.mpr ⟨first.identity, List.mem_filter.mpr ⟨?_, ?_⟩, ?_⟩)
    · exact mem_identities hfirst
    · exact decide_eq_true hown
    · exact hnumber.symm
  obtain ⟨old, hold, hsame⟩ :=
    List.mem_map.mp (hseen.same second.identity (mem_identities hsecond) hchunk hlt)
  have hid : old.chunkUuid = second.chunkUuid := congrArg VersionIdentity.chunkUuid hsame
  have hno : old.versionNo = second.versionNo := congrArg VersionIdentity.versionNo hsame
  obtain rfl : old = first := List.inj_on_of_nodup_map hearlier.numbers hold hfirst
    (Prod.ext (hid.trans (hchunk.trans hown.symm)) (hno.trans hnumber))
  exact hsame.symm

/-! ### The expected version -/

theorem Db.Versioned.mem_of_currentVersion (hdb : db.Versioned host) {version : SemanticChunkVersion}
    (hcurrent : db.currentVersion chunkUuid = some version) :
    version ∈ db.semanticChunkVersions ∧ version.chunkUuid = chunkUuid := by
  obtain ⟨pointer, hpointer, hversion⟩ := Option.bind_eq_some_iff.mp hcurrent
  obtain ⟨hmem, hchunk⟩ := mem_of_lookup hpointer
  obtain ⟨row, hrow, hnamed, hown⟩ := hdb.named pointer hmem
  obtain ⟨hfound, hid⟩ := mem_of_lookup hversion
  obtain rfl := List.inj_on_of_nodup_map hdb.ids hfound hrow (hid.trans hnamed.symm)
  exact ⟨hrow, hown.trans hchunk⟩

theorem assertExpectedCurrent_eq_ok {number : ℤ} {result : Unit}
    (hassert : db.assertExpectedCurrent chunkUuid (some number) = .ok result) :
    db.currentVersionNo chunkUuid = some number.toNat := by
  obtain ⟨expected, hexpected, hassert⟩ := bind_eq_ok.mp hassert
  obtain ⟨-, hexpected⟩ := raiseIf_bind_eq_ok.mp hexpected
  cases hexpected
  simpa using raiseIf_eq_ok.mp hassert

/-- An operation that carries an expected version succeeds on that version only. -/
theorem currentVersionNo_of_apply {number : ℤ} {reply : VersionReply}
    (hexpected : action.operation.expectedCurrentVersion = some number)
    (happly : action.apply host db = .ok (reply, next)) :
    db.currentVersionNo action.chunkUuid = some number.toNat := by
  have happend : ∀ {textValue operation : Text}, appendAndActivate host action.call
      action.chunkUuid db textValue operation (some number) = .ok (reply, next) →
      db.currentVersionNo action.chunkUuid = some number.toNat := by
    intro textValue operation happly
    obtain ⟨chunk, -, happly⟩ := bind_eq_ok.mp happly
    obtain ⟨_, hassert, -⟩ := bind_eq_ok.mp happly
    exact assertExpectedCurrent_eq_ok hassert
  obtain ⟨chunkUuid, call, operation⟩ := action
  cases operation with
  | appendVersion textValue expected =>
    cases hexpected
    exact happend happly
  | updateText textValue expected =>
    cases hexpected
    exact happend happly
  | restoreVersion versionNo expected =>
    cases hexpected
    obtain ⟨wanted, -, happly⟩ := bind_eq_ok.mp happly
    obtain ⟨chunk, -, happly⟩ := bind_eq_ok.mp happly
    split at happly
    · cases happly
    · obtain ⟨_, hassert, -⟩ := bind_eq_ok.mp happly
      exact assertExpectedCurrent_eq_ok hassert
  | setCurrent versionNo => cases hexpected
  | retireVersion versionNo replacement => cases hexpected
  | deleteVersion versionNo => cases hexpected

/-- **A version number names one text.** In every run of operations, on any chunks, that never
deletes the version with the largest number of a chunk, a number that the chunk shows at two moments
names the same version with the same text, and an operation which carries the number of the version
that was current at the earlier moment succeeds at the later one only if that version and its text
are still current. -/
theorem version_number_names_one_text {initial : Db} (hinitial : initial.Versioned host)
    (hbefore : Steps (versionStep host)
      (fun db action ↦ deletesLatest chunkUuid db action = false) initial earlier)
    (hafter : Steps (versionStep host)
      (fun db action ↦ deletesLatest chunkUuid db action = false) earlier later) :
    (∀ first ∈ earlier.semanticChunkVersions, first.chunkUuid = chunkUuid →
      ∀ second ∈ later.semanticChunkVersions, second.chunkUuid = chunkUuid →
        second.versionNo = first.versionNo → second.id = first.id ∧ second.text = first.text) ∧
    ∀ (read : SemanticChunkVersion) (action : VersionAction) (reply : VersionReply) (next : Db),
      earlier.currentVersion chunkUuid = some read →
      action.chunkUuid = chunkUuid →
      action.operation.expectedCurrentVersion = some (read.versionNo : ℤ) →
      action.apply host later = .ok (reply, next) →
      ∃ current, later.currentVersion chunkUuid = some current ∧ current.id = read.id ∧
        current.text = read.text := by
  obtain ⟨hearlier, -⟩ := seenVersions_of_steps hinitial hbefore
  obtain ⟨hlater, hseen⟩ := seenVersions_of_steps hearlier hafter
  constructor
  · intro first hfirst hown second hsecond hchunk hnumber
    have hsame := hseen.identity_eq hearlier hfirst hown hsecond hchunk hnumber
    exact ⟨congrArg VersionIdentity.id hsame, congrArg VersionIdentity.text hsame⟩
  · rintro read action reply next hread rfl hexpected happly
    have hnumber := currentVersionNo_of_apply hexpected happly
    rw [Int.toNat_natCast] at hnumber
    obtain ⟨current, hcurrent, hcurrentNo⟩ := Option.map_eq_some_iff.mp hnumber
    obtain ⟨hreadMem, hreadOwn⟩ := hearlier.mem_of_currentVersion hread
    obtain ⟨hcurrentMem, hcurrentOwn⟩ := hlater.mem_of_currentVersion hcurrent
    have hsame := hseen.identity_eq hearlier hreadMem hreadOwn hcurrentMem hcurrentOwn hcurrentNo
    exact ⟨current, hcurrent, congrArg VersionIdentity.id hsame,
      congrArg VersionIdentity.text hsame⟩

end Numbers

/-- A new text, the deletion of the numbered version, and another text. -/
def appendAroundDelete (versionNo : ℤ) : List VersionAction :=
  appendThenDelete versionNo ++
    [{ chunkUuid := 1, call := { now := 3, versionId := 14 }
       operation := .appendVersion (lit "c") none }]

/-- A caller expects the second version. -/
def expectSecond : VersionAction where
  chunkUuid := 1
  call := { now := 4, versionId := 15 }
  operation := .updateText (lit "d") (some 2)

/-- The small chunk after its second text. -/
def secondAppended : Db :=
  (replay (guarded (versionStep sampleHost) fun db action ↦ deletesLatest 1 db action = false)
    seededChunk ((appendAroundDelete 1).take 1)).getD seededChunk

/-- And after its first version is deleted and a third one appended. -/
def thirdAppended : Db :=
  (replay (guarded (versionStep sampleHost) fun db action ↦ deletesLatest 1 db action = false)
    secondAppended ((appendAroundDelete 1).drop 1)).getD secondAppended

/-- The second version is still there after the deletion of the first one, and names its text. -/
theorem version_number_names_one_text_seededChunk :
    ∃ first ∈ secondAppended.semanticChunkVersions, ∃ second ∈ thirdAppended.semanticChunkVersions,
      first.versionNo = 2 ∧ second.versionNo = 2 ∧ second.id = first.id ∧
        second.text = first.text := by
  obtain ⟨first, hfirst, hfirstOwn, hfirstNo⟩ : ∃ first ∈ secondAppended.semanticChunkVersions,
      first.chunkUuid = 1 ∧ first.versionNo = 2 := by decide +kernel
  obtain ⟨second, hsecond, hsecondOwn, hsecondNo⟩ : ∃ second ∈ thirdAppended.semanticChunkVersions,
      second.chunkUuid = 1 ∧ second.versionNo = 2 := by decide +kernel
  have hbefore : Steps (versionStep sampleHost) (fun db action ↦ deletesLatest 1 db action = false)
      seededChunk secondAppended := steps_of_replay (by decide +kernel)
  have hafter : Steps (versionStep sampleHost) (fun db action ↦ deletesLatest 1 db action = false)
      secondAppended thirdAppended := steps_of_replay (by decide +kernel)
  have hnames := (version_number_names_one_text versioned_seededChunk hbefore hafter).1
  exact ⟨first, hfirst, second, hsecond, hfirstNo, hsecondNo, hnames first hfirst hfirstOwn second
    hsecond hsecondOwn (hsecondNo.trans hfirstNo.symm)⟩

/-- The small chunk after the second version is deleted and another text is appended. -/
def secondReissued : Db :=
  (replay (guarded (versionStep sampleHost) fun _ _ ↦ True) secondAppended
    ((appendAroundDelete 2).drop 1)).getD secondAppended

/-- The condition is needed: once the second version is deleted, the next text gets its number, and
a caller that read the second version does not learn that the text is another one. -/
theorem exists_reissued_number :
    ∃ earlier later : Db, seededChunk.Versioned sampleHost ∧
      Steps (versionStep sampleHost) (fun _ _ ↦ True) seededChunk earlier ∧
      Steps (versionStep sampleHost) (fun _ _ ↦ True) earlier later ∧
      (earlier.currentVersion 1).map (fun row ↦ (row.versionNo, row.text)) = some (2, lit "b") ∧
      (later.currentVersion 1).map (fun row ↦ (row.versionNo, row.text)) = some (2, lit "c") ∧
      succeeds (expectSecond.apply sampleHost later) = true :=
  ⟨secondAppended, secondReissued, versioned_seededChunk,
    (steps_of_replay (by decide +kernel)).mono fun _ _ _ ↦ trivial,
    steps_of_replay (by decide +kernel), by decide +kernel, by decide +kernel, by decide +kernel⟩

end DocStore
