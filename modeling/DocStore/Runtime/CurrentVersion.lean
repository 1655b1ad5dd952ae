import DocStore.Runtime.ChunkVersions

/-!
# One current version

`ProjectsVersion` is the agreement of the tables about the current text of a chunk: exactly one
version is flagged, the only pointer names it, and the text row repeats its text, digest and length.
Activation establishes it from any state with sound keys (`projectsVersion_of_activate`), whatever
the tables said before, so that every operation which ends with an activation does.

The deletion of the version that the pointer names does not get that far: the pointer goes with the
version, so the service does not notice that it deleted the current one
(`not_projected_of_deleteRow`). Every run without such a deletion keeps the agreement.
-/

set_option autoImplicit false
set_option relaxedAutoImplicit false

namespace DocStore

open Foundation

/-! ### The agreement -/

/-- What the keys and the writers promise about versions, pointers and texts. -/
structure Db.Versioned (host : Host) (db : Db) : Prop where
  ids : (db.semanticChunkVersions.map SemanticChunkVersion.id).Nodup
  numbers : (db.semanticChunkVersions.map fun row ↦ (row.chunkUuid, row.versionNo)).Nodup
  logical : ∀ row ∈ db.semanticChunkVersions, row.logicalChunkId = row.chunkUuid
  digests : ∀ row ∈ db.semanticChunkVersions, row.textSha256 = host.hexdigest row.text
  pointers : (db.semanticChunkCurrent.map SemanticChunkCurrent.chunkUuid).Nodup
  named : ∀ pointer ∈ db.semanticChunkCurrent, ∃ row ∈ db.semanticChunkVersions,
    row.id = pointer.versionId ∧ row.chunkUuid = pointer.chunkUuid

/-- The current versions of a chunk. -/
def Db.currentVersions (db : Db) (chunkUuid : Uuid) : List SemanticChunkVersion :=
  db.semanticChunkVersions.filter fun row ↦ row.chunkUuid = chunkUuid && row.isCurrent

/-- The pointers of a chunk. -/
def Db.currentPointers (db : Db) (chunkUuid : Uuid) : List SemanticChunkCurrent :=
  db.semanticChunkCurrent.filter fun row ↦ row.chunkUuid = chunkUuid

/-- The text rows of a chunk. -/
def Db.textRows (db : Db) (chunkUuid : Uuid) : List SemanticChunkText :=
  db.semanticChunkTexts.filter fun row ↦ row.chunkUuid = chunkUuid

/-- A text row that repeats a version. -/
structure RepeatsVersion (host : Host) (text : SemanticChunkText) (version : SemanticChunkVersion) :
    Prop where
  sameText : text.text = version.text
  textSha256 : text.textSha256 = version.textSha256
  digest : version.textSha256 = host.hexdigest version.text
  charCount : text.charCount = version.text.length

/-- The tables agree that a version is the current one of a chunk. -/
structure ProjectsVersion (host : Host) (db : Db) (chunkUuid : Uuid)
    (version : SemanticChunkVersion) : Prop where
  flagged : db.currentVersions chunkUuid = [version]
  pointed : ∃ pointer, db.currentPointers chunkUuid = [pointer] ∧ pointer.versionId = version.id
  repeated : ∃ text, db.textRows chunkUuid = [text] ∧ RepeatsVersion host text version

/-- The tables agree about the current version of a chunk. -/
def Projected (host : Host) (db : Db) (chunkUuid : Uuid) : Prop :=
  ∃ version, ProjectsVersion host db chunkUuid version

/-- An operation is a deletion of the version that the pointer of a chunk names. -/
def deletesCurrent (chunkUuid : Uuid) (db : Db) (action : VersionAction) : Bool :=
  match action.operation with
  | .deleteVersion versionNo =>
    action.chunkUuid = chunkUuid && db.currentVersionNo chunkUuid = some versionNo.toNat
  | _ => false

section Operations

variable {host : Host} {db next : Db} {chunkUuid other : Uuid} {version : SemanticChunkVersion}

/-- A step that leaves what the tables say about a chunk alone. -/
structure SameProjection (db next : Db) (chunkUuid : Uuid) : Prop where
  versions : next.currentVersions chunkUuid = db.currentVersions chunkUuid
  pointers : next.currentPointers chunkUuid = db.currentPointers chunkUuid
  texts : next.textRows chunkUuid = db.textRows chunkUuid

theorem ProjectsVersion.congr (hproject : ProjectsVersion host db chunkUuid version)
    (hsame : SameProjection db next chunkUuid) : ProjectsVersion host next chunkUuid version :=
  ⟨hsame.versions ▸ hproject.flagged, hsame.pointers ▸ hproject.pointed,
    hsame.texts ▸ hproject.repeated⟩

theorem ProjectsVersion.mem (hproject : ProjectsVersion host db chunkUuid version) :
    version ∈ db.semanticChunkVersions ∧ version.chunkUuid = chunkUuid ∧
      version.isCurrent = true := by
  have hmem : version ∈ db.currentVersions chunkUuid := by simp [hproject.flagged]
  simpa [Db.currentVersions] using hmem

/-- What is read as the current version is the one that the tables agree about. -/
theorem ProjectsVersion.currentVersion (hproject : ProjectsVersion host db chunkUuid version)
    (hdb : db.Versioned host) : db.currentVersion chunkUuid = some version := by
  obtain ⟨pointer, hpointer, hnamed⟩ := hproject.pointed
  have hmem : pointer ∈ db.currentPointers chunkUuid := by simp [hpointer]
  obtain ⟨hmem, hchunk⟩ := List.mem_filter.mp hmem
  have hfound := (lookup_eq_some hdb.pointers).mpr ⟨hmem, of_decide_eq_true hchunk⟩
  rw [Db.currentVersion, hfound, Option.bind_some, Db.versionById]
  exact (lookup_eq_some hdb.ids).mpr ⟨hproject.mem.1, hnamed.symm⟩

theorem Db.version_eq_some (hdb : db.Versioned host) {versionNo : ℕ} :
    db.version chunkUuid versionNo = some version ↔
      version ∈ db.semanticChunkVersions ∧ version.chunkUuid = chunkUuid ∧
        version.versionNo = versionNo := by
  have hlookup : lookup _ (chunkUuid, versionNo) db.semanticChunkVersions = some version ↔ _ :=
    lookup_eq_some hdb.numbers
  simpa [Db.version, lookup] using hlookup

/-! ### Activation -/

variable {call : VersionCall} {row : SemanticChunkVersion} {operation : Text}

/-- What a successful activation leaves. -/
theorem activate_eq_ok (hactivate : activate call chunkUuid row operation db = .ok next) :
    next = projectText chunkUuid row { db with
      semanticChunkVersions := flagCurrent call row operation db.semanticChunkVersions
      semanticChunkCurrent := upsert SemanticChunkCurrent.chunkUuid
        (call.pointer chunkUuid row.id operation)
        (fun _ ↦ call.pointer chunkUuid row.id operation) db.semanticChunkCurrent } := by
  obtain ⟨-, hactivate⟩ := raiseIf_bind_eq_ok.mp hactivate
  obtain ⟨pointed, hpointed, hnext⟩ := bind_eq_ok.mp hactivate
  obtain ⟨-, rfl⟩ := Db.setCurrent_eq_ok.mp hpointed
  cases hnext
  rfl

/-- What flagging does to a version. -/
theorem flagCurrent_eq_map (versions : List SemanticChunkVersion) :
    flagCurrent call row operation versions = versions.map fun old ↦
      if old.id = row.id then old.activated call operation
      else if old.logicalChunkId = row.logicalChunkId ∧ old.isCurrent = true then
        old.retired call.now
      else old := by
  rw [flagCurrent, updateWhere, updateWhere, List.map_map]
  refine List.map_congr_left fun old _ ↦ ?_
  have hretired : (old.retired call.now).id = old.id := rfl
  by_cases hid : old.id = row.id
  · simp [hid]
  · by_cases hcurrent : old.logicalChunkId = row.logicalChunkId ∧ old.isCurrent = true <;>
      simp [hid, hcurrent, hretired]

/-- Flagging keeps which versions there are. -/
theorem exists_mem_flagCurrent {versions : List SemanticChunkVersion} {old : SemanticChunkVersion}
    (hold : old ∈ versions) : ∃ new ∈ flagCurrent call row operation versions,
      new.id = old.id ∧ new.chunkUuid = old.chunkUuid := by
  rw [flagCurrent_eq_map]
  refine ⟨_, List.mem_map_of_mem hold, ?_⟩
  by_cases hid : old.id = row.id
  · simp [hid, SemanticChunkVersion.activated]
  · by_cases hcurrent : old.logicalChunkId = row.logicalChunkId ∧ old.isCurrent = true <;>
      simp [hid, hcurrent, SemanticChunkVersion.retired]

theorem Db.Versioned.activate (hdb : db.Versioned host) (hrow : row ∈ db.semanticChunkVersions)
    (hchunk : row.chunkUuid = chunkUuid)
    (hactivate : activate call chunkUuid row operation db = .ok next) : next.Versioned host := by
  obtain rfl := activate_eq_ok hactivate
  refine ⟨?_, ?_, ?_, ?_, ?_, fun pointer hpointer ↦ ?_⟩
  · exact nodup_map_updateWhere (fun _ ↦ rfl) (nodup_map_updateWhere (fun _ ↦ rfl) hdb.ids)
  · exact nodup_map_updateWhere (fun _ ↦ rfl) (nodup_map_updateWhere (fun _ ↦ rfl) hdb.numbers)
  · exact forall_mem_updateWhere (fun _ hrow ↦ hrow)
      (forall_mem_updateWhere (fun _ hrow ↦ hrow) hdb.logical)
  · exact forall_mem_updateWhere (fun _ hrow ↦ hrow)
      (forall_mem_updateWhere (fun _ hrow ↦ hrow) hdb.digests)
  · exact nodup_map_upsert (fun _ _ ↦ rfl) hdb.pointers
  · rcases mem_upsert hpointer with rfl | hpointer
    · obtain ⟨new, hnew, hid, hown⟩ := exists_mem_flagCurrent hrow
      exact ⟨new, hnew, hid, hown.trans hchunk⟩
    · obtain ⟨old, hold, hnamed, hown⟩ := hdb.named pointer hpointer
      obtain ⟨new, hnew, hid, hsame⟩ := exists_mem_flagCurrent hold
      exact ⟨new, hnew, hid.trans hnamed, hsame.trans hown⟩

/-- **Activation establishes the agreement**, whatever the tables said about the chunk before. -/
theorem projectsVersion_of_activate (hdb : db.Versioned host)
    (hrow : row ∈ db.semanticChunkVersions) (hchunk : row.chunkUuid = chunkUuid)
    {text : SemanticChunkText} (htext : db.textRows chunkUuid = [text])
    (hactivate : activate call chunkUuid row operation db = .ok next) :
    ProjectsVersion host next chunkUuid (row.activated call operation) := by
  have hnext := hdb.activate hrow hchunk hactivate
  obtain rfl := activate_eq_ok hactivate
  refine ⟨?_, ⟨call.pointer chunkUuid row.id operation, ?_, rfl⟩, ?_⟩
  · refine filter_eq_singleton hnext.ids ?_ fun other hother ↦ ?_
    · exact flagCurrent_eq_map db.semanticChunkVersions ▸ List.mem_map.mpr ⟨row, hrow, by simp⟩
    · rw [projectText, flagCurrent_eq_map] at hother
      obtain ⟨old, hold, rfl⟩ := List.mem_map.mp hother
      by_cases hid : old.id = row.id
      · obtain rfl := List.inj_on_of_nodup_map hdb.ids hold hrow hid
        simp [SemanticChunkVersion.activated, hchunk]
      · have hlogical : old.chunkUuid = chunkUuid ↔ old.logicalChunkId = row.logicalChunkId := by
          rw [hdb.logical old hold, hdb.logical row hrow, hchunk]
        by_cases hcurrent : old.logicalChunkId = row.logicalChunkId ∧ old.isCurrent = true
        · simp [hid, hcurrent, SemanticChunkVersion.retired, SemanticChunkVersion.activated]
        · simp [hid, hcurrent, hlogical, SemanticChunkVersion.activated]
  · exact filter_key_eq_singleton hnext.pointers (mem_upsert_self _ _)
  · have htextChunk : text.chunkUuid = chunkUuid := by
      have hmem : text ∈ db.textRows chunkUuid := by simp [htext]
      exact of_decide_eq_true (List.mem_filter.mp hmem).2
    refine ⟨{ text with
      text := row.text
      textSha256 := row.textSha256
      charCount := row.text.length
      blockMeta := row.blockMeta }, ?_, ⟨rfl, rfl, hdb.digests row hrow, rfl⟩⟩
    have hfilter := @filter_updateWhere _ (fun old ↦ old.chunkUuid = chunkUuid)
      (fun old ↦ old.chunkUuid = chunkUuid) (fun old : SemanticChunkText ↦ { old with
        text := row.text
        textSha256 := row.textSha256
        charCount := row.text.length
        blockMeta := row.blockMeta }) (fun _ ↦ rfl) db.semanticChunkTexts
    rw [show db.semanticChunkTexts.filter _ = [text] from htext] at hfilter
    refine hfilter.trans ?_
    simp [updateWhere, htextChunk]

/-- Activation leaves what the tables say about the other chunks alone. -/
theorem sameProjection_of_activate (hdb : db.Versioned host)
    (hrow : row ∈ db.semanticChunkVersions) (hchunk : row.chunkUuid = chunkUuid)
    (hactivate : activate call chunkUuid row operation db = .ok next) (hne : other ≠ chunkUuid) :
    SameProjection db next other := by
  obtain rfl := activate_eq_ok hactivate
  refine ⟨?_, filter_upsert_of_ne hne (fun _ _ ↦ rfl) _, ?_⟩
  · rw [Db.currentVersions, projectText, flagCurrent_eq_map]
    refine filter_map_eq fun old hold ↦ ?_
    by_cases hid : old.id = row.id
    · obtain rfl := List.inj_on_of_nodup_map hdb.ids hold hrow hid
      simp [SemanticChunkVersion.activated, hchunk, hne.symm]
    · by_cases hcurrent : old.logicalChunkId = row.logicalChunkId ∧ old.isCurrent = true
      · have holdChunk : old.chunkUuid = chunkUuid := by
          rw [← hchunk, ← hdb.logical old hold, ← hdb.logical row hrow, hcurrent.1]
        simp [hid, hcurrent, SemanticChunkVersion.retired, holdChunk, hne.symm]
      · simp [hid, hcurrent]
  · refine filter_updateWhere_of_not fun old _ hselected ↦ ?_
    have hold : old.chunkUuid = chunkUuid := of_decide_eq_true hselected
    simp [hold, hne.symm]

/-! ### Operations that end with an activation -/

/-- A step that establishes the agreement for one chunk and does not touch it for the others. -/
structure Settles (host : Host) (db next : Db) (chunkUuid : Uuid) : Prop where
  versioned : next.Versioned host
  projected : ∀ text, db.textRows chunkUuid = [text] → Projected host next chunkUuid
  others : ∀ other, other ≠ chunkUuid → SameProjection db next other

theorem settles_of_activate (hdb : db.Versioned host) (hrow : row ∈ db.semanticChunkVersions)
    (hchunk : row.chunkUuid = chunkUuid)
    (hactivate : activate call chunkUuid row operation db = .ok next) :
    Settles host db next chunkUuid where
  versioned := hdb.activate hrow hchunk hactivate
  projected _ htext := ⟨_, projectsVersion_of_activate hdb hrow hchunk htext hactivate⟩
  others _ hne := sameProjection_of_activate hdb hrow hchunk hactivate hne

/-- What an insertion adds. -/
structure InsertsVersion (host : Host) (chunkUuid : Uuid) (versionNo : ℕ) (db next : Db)
    (row : SemanticChunkVersion) : Prop where
  ownChunk : row.chunkUuid = chunkUuid
  logical : row.logicalChunkId = chunkUuid
  number : row.versionNo = versionNo
  digest : row.textSha256 = host.hexdigest row.text
  notCurrent : row.isCurrent = false
  fits : db.VersionFits row
  added : next = { db with semanticChunkVersions := db.semanticChunkVersions ++ [row] }

theorem insertsVersion_of_eq_ok {chunk : SemanticChunkRow} {versionNo : ℕ} {value : Text}
    {previous restored : Option Uuid}
    (hinsert : insertChunkVersion host call chunk versionNo value operation previous restored db =
      .ok (row, next)) : InsertsVersion host chunk.id versionNo db next row := by
  obtain ⟨-, hinsert⟩ := raiseIf_bind_eq_ok.mp hinsert
  obtain ⟨-, hinsert⟩ := raiseIf_bind_eq_ok.mp hinsert
  obtain ⟨inserted, hinserted, hnext⟩ := bind_eq_ok.mp hinsert
  obtain ⟨hfits, rfl⟩ := Db.insertVersion_eq_ok.mp hinserted
  cases hnext
  exact ⟨rfl, rfl, rfl, rfl, rfl, hfits, rfl⟩

variable {versionNo : ℕ}

theorem InsertsVersion.versioned (hinsert : InsertsVersion host chunkUuid versionNo db next row)
    (hdb : db.Versioned host) : next.Versioned host := by
  obtain rfl := hinsert.added
  refine ⟨nodup_map_append_singleton hdb.ids hinsert.fits.id,
    nodup_map_append_singleton hdb.numbers fun old hold heq ↦ ?_,
    List.forall_mem_append.mpr ⟨hdb.logical, List.forall_mem_singleton.mpr ?_⟩,
    List.forall_mem_append.mpr ⟨hdb.digests, List.forall_mem_singleton.mpr hinsert.digest⟩,
    hdb.pointers, fun pointer hpointer ↦ (hdb.named pointer hpointer).imp fun _ hold ↦
      hold.imp_left (List.mem_append_left _)⟩
  · obtain ⟨hchunk, hnumber⟩ := Prod.mk.inj heq
    exact hinsert.fits.chunkVersion old hold hchunk hnumber
  · rw [hinsert.logical, hinsert.ownChunk]

theorem InsertsVersion.mem (hinsert : InsertsVersion host chunkUuid versionNo db next row) :
    row ∈ next.semanticChunkVersions := by
  rw [hinsert.added]
  exact List.mem_append_right _ (List.mem_singleton_self row)

/-- An inserted version is not current yet. -/
theorem InsertsVersion.sameProjection
    (hinsert : InsertsVersion host chunkUuid versionNo db next row) (other : Uuid) :
    SameProjection db next other := by
  obtain rfl := hinsert.added
  refine ⟨?_, rfl, rfl⟩
  simp [Db.currentVersions, List.filter_append, hinsert.notCurrent]

theorem SameProjection.trans {middle : Db} (hfirst : SameProjection db middle chunkUuid)
    (hsecond : SameProjection middle next chunkUuid) : SameProjection db next chunkUuid :=
  ⟨hsecond.versions.trans hfirst.versions, hsecond.pointers.trans hfirst.pointers,
    hsecond.texts.trans hfirst.texts⟩

/-- A version that is inserted and activated. -/
theorem settles_of_insert {inserted : Db}
    (hinsert : InsertsVersion host chunkUuid versionNo db inserted row) (hdb : db.Versioned host)
    (hactivate : activate call chunkUuid row operation inserted = .ok next) :
    Settles host db next chunkUuid := by
  have hsettles := settles_of_activate (hinsert.versioned hdb) hinsert.mem hinsert.ownChunk hactivate
  exact ⟨hsettles.versioned,
    fun text htext ↦ hsettles.projected text ((hinsert.sameProjection chunkUuid).texts.trans htext),
    fun other hne ↦ (hinsert.sameProjection other).trans (hsettles.others other hne)⟩

/-! ### Retiring and deleting -/

theorem Db.Versioned.retireRow (hdb : db.Versioned host) (versionId : Uuid) :
    (retireRow call db versionId).Versioned host where
  ids := nodup_map_updateWhere (fun _ ↦ rfl) hdb.ids
  numbers := nodup_map_updateWhere (fun _ ↦ rfl) hdb.numbers
  logical := forall_mem_updateWhere (fun _ hrow ↦ hrow) hdb.logical
  digests := forall_mem_updateWhere (fun _ hrow ↦ hrow) hdb.digests
  pointers := hdb.pointers
  named pointer hpointer := by
    obtain ⟨old, hold, hnamed, hown⟩ := hdb.named pointer hpointer
    refine ⟨_, mem_updateWhere.mpr ⟨old, hold, rfl⟩, ?_⟩
    split
    · exact ⟨hnamed, hown⟩
    · exact ⟨hnamed, hown⟩

/-- Retiring a version leaves the agreement about another one alone. -/
theorem ProjectsVersion.retireRow (hproject : ProjectsVersion host db chunkUuid version)
    {versionId : Uuid} (hne : version.id ≠ versionId) :
    ProjectsVersion host (retireRow call db versionId) chunkUuid version := by
  refine hproject.congr ⟨filter_updateWhere_of_not fun old hold hselected ↦ ?_, rfl, rfl⟩
  refine ⟨Bool.eq_false_iff.mpr fun hcurrent ↦ hne ?_, by simp [SemanticChunkVersion.retired]⟩
  have hmem : old ∈ db.currentVersions chunkUuid := List.mem_filter.mpr ⟨hold, hcurrent⟩
  rw [hproject.flagged, List.mem_singleton] at hmem
  exact hmem ▸ of_decide_eq_true hselected

variable {target : SemanticChunkVersion}

theorem mem_deleteRow {row : SemanticChunkVersion} :
    row ∈ (deleteRow db target).semanticChunkVersions ↔
      ∃ old ∈ db.semanticChunkVersions,
        ¬(old.chunkUuid = target.chunkUuid ∧ old.versionNo = target.versionNo) ∧
          row = old.cleared target.id := by
  simp only [deleteRow, List.mem_map, mem_deleteWhere, Bool.and_eq_false_imp, decide_eq_true_eq,
    decide_eq_false_iff_not, not_and, and_assoc, eq_comm (b := row)]

theorem Db.Versioned.deleteRow (hdb : db.Versioned host)
    (htarget : target ∈ db.semanticChunkVersions) : (deleteRow db target).Versioned host := by
  have hkeep : ∀ {β : Type} (read : SemanticChunkVersion → β),
      (∀ old : SemanticChunkVersion, read (old.cleared target.id) = read old) →
      (db.semanticChunkVersions.map read).Nodup →
      ((DocStore.deleteRow db target).semanticChunkVersions.map read).Nodup := by
    intro β read hread hnodup
    rw [DocStore.deleteRow, List.map_map, show read ∘ _ = read from funext hread]
    exact nodup_map_deleteWhere hnodup
  refine ⟨hkeep _ (fun _ ↦ rfl) hdb.ids, hkeep _ (fun _ ↦ rfl) hdb.numbers, fun row hrow ↦ ?_,
    fun row hrow ↦ ?_, nodup_map_deleteWhere hdb.pointers, fun pointer hpointer ↦ ?_⟩
  · obtain ⟨old, hold, -, rfl⟩ := mem_deleteRow.mp hrow
    exact hdb.logical old hold
  · obtain ⟨old, hold, -, rfl⟩ := mem_deleteRow.mp hrow
    exact hdb.digests old hold
  · obtain ⟨hpointer, hkept⟩ := mem_deleteWhere.mp hpointer
    obtain ⟨old, hold, hnamed, hown⟩ := hdb.named pointer hpointer
    refine ⟨_, mem_deleteRow.mpr ⟨old, hold, fun ⟨hchunk, hnumber⟩ ↦ ?_, rfl⟩, hnamed, hown⟩
    obtain rfl := List.inj_on_of_nodup_map hdb.numbers hold htarget (Prod.ext hchunk hnumber)
    simp [hnamed] at hkept

/-- Deleting a version leaves the agreement about another one alone. -/
theorem ProjectsVersion.deleteRow (hproject : ProjectsVersion host db chunkUuid version)
    (hdb : db.Versioned host) (htarget : target ∈ db.semanticChunkVersions)
    (hne : version.id ≠ target.id) :
    ProjectsVersion host (deleteRow db target) chunkUuid (version.cleared target.id) := by
  have hother : ¬(version.chunkUuid = target.chunkUuid ∧ version.versionNo = target.versionNo) :=
    fun ⟨hchunk, hnumber⟩ ↦ hne (congrArg SemanticChunkVersion.id
      (List.inj_on_of_nodup_map hdb.numbers hproject.mem.1 htarget (Prod.ext hchunk hnumber)))
  refine ⟨?_, ?_, ?_⟩
  · refine filter_eq_singleton (hdb.deleteRow htarget).ids
      (mem_deleteRow.mpr ⟨version, hproject.mem.1, hother, rfl⟩) fun row hrow ↦ ?_
    obtain ⟨old, hold, -, rfl⟩ := mem_deleteRow.mp hrow
    have hcurrent : (old.chunkUuid = chunkUuid && old.isCurrent) = true ↔ old = version := by
      have hmem : old ∈ db.currentVersions chunkUuid ↔ old = version := by
        rw [hproject.flagged, List.mem_singleton]
      simpa [Db.currentVersions, hold] using hmem
    exact hcurrent.trans
      ⟨fun heq ↦ heq ▸ rfl, fun hid ↦ List.inj_on_of_nodup_map hdb.ids hold hproject.mem.1 hid⟩
  · obtain ⟨pointer, hpointer, hnamed⟩ := hproject.pointed
    refine ⟨pointer, ?_, hnamed⟩
    have hkept : (pointer.versionId = target.id) = False := by simp [hnamed, hne]
    calc (DocStore.deleteRow db target).currentPointers chunkUuid
        = (db.currentPointers chunkUuid).filter fun row ↦ !decide (row.versionId = target.id) := by
          exact List.filter_comm _ _ db.semanticChunkCurrent
      _ = [pointer] := by simp [hpointer, hkept]
  · obtain ⟨text, htext, hrepeats⟩ := hproject.repeated
    exact ⟨text, htext, hrepeats.sameText, hrepeats.textSha256, hrepeats.digest, hrepeats.charCount⟩

/-- After a deletion no pointer names the deleted version, so the service has nothing to replace. -/
theorem reactivateLatest_deleteRow :
    reactivateLatest call chunkUuid (deleteRow db target) target.id =
      .ok (deleteRow db target) := by
  refine if_neg fun hcurrent ↦ ?_
  obtain ⟨pointer, hfound, hnamed⟩ := Option.map_eq_some_iff.mp hcurrent
  have hkept := (mem_deleteWhere.mp (mem_of_lookup hfound).1).2
  simp [hnamed] at hkept

/-- **Deleting the current version ends the agreement**: no version is current afterwards and no
pointer is left. -/
theorem not_projected_of_deleteRow
    (hproject : ProjectsVersion host db chunkUuid version) :
    (deleteRow db version).currentPointers chunkUuid = [] ∧
      ¬Projected host (deleteRow db version) chunkUuid := by
  obtain ⟨pointer, hpointer, hnamed⟩ := hproject.pointed
  have hnone : (DocStore.deleteRow db version).currentPointers chunkUuid = [] := by
    refine List.filter_eq_nil_iff.mpr fun row hrow hchunk ↦ ?_
    obtain ⟨hold, hkept⟩ := mem_deleteWhere.mp hrow
    have hmem : row ∈ db.currentPointers chunkUuid := List.mem_filter.mpr ⟨hold, hchunk⟩
    rw [hpointer, List.mem_singleton] at hmem
    simp [hmem, hnamed] at hkept
  refine ⟨hnone, fun ⟨_, hlater⟩ ↦ ?_⟩
  obtain ⟨later, hpointers, -⟩ := hlater.pointed
  rw [hnone] at hpointers
  cases hpointers

/-! ### What a step can do -/

/-- What an operation that succeeds does to the tables. -/
inductive VersionEffect (host : Host) (db : Db) (action : VersionAction) : Db → Prop
  | unchanged : VersionEffect host db action db
  | appended {row : SemanticChunkVersion} {inserted next : Db} {operation : Text}
      (hinsert : InsertsVersion host action.chunkUuid (db.nextVersionNo action.chunkUuid) db
        inserted row)
      (hactivate : activate action.call action.chunkUuid row operation inserted = .ok next) :
      VersionEffect host db action next
  | activated {row : SemanticChunkVersion} {next : Db} {operation : Text}
      (hrow : row ∈ db.semanticChunkVersions) (hchunk : row.chunkUuid = action.chunkUuid)
      (hactivate : activate action.call action.chunkUuid row operation db = .ok next) :
      VersionEffect host db action next
  | retired {row : SemanticChunkVersion} (hrow : row ∈ db.semanticChunkVersions)
      (hnot : row.isCurrent = false) : VersionEffect host db action (retireRow action.call db row.id)
  | replaced {row replacement : SemanticChunkVersion} {middle : Db}
      (hrow : row ∈ db.semanticChunkVersions) (hchunk : row.chunkUuid = action.chunkUuid)
      (hreplacement : replacement ∈ db.semanticChunkVersions)
      (hown : replacement.chunkUuid = action.chunkUuid)
      (hne : replacement.versionNo ≠ row.versionNo)
      (hactivate : activate action.call action.chunkUuid replacement (lit "retire") db = .ok middle) :
      VersionEffect host db action (retireRow action.call middle row.id)
  | deleted {target : SemanticChunkVersion} {number : ℤ}
      (hoperation : action.operation = .deleteVersion number)
      (htarget : target ∈ db.semanticChunkVersions) (hchunk : target.chunkUuid = action.chunkUuid)
      (hnumber : target.versionNo = number.toNat) : VersionEffect host db action (deleteRow db target)

theorem requireChunk_eq_ok {chunk : SemanticChunkRow}
    (hchunk : db.requireChunk chunkUuid = .ok chunk) : chunk.id = chunkUuid := by
  unfold Db.requireChunk at hchunk
  split at hchunk
  next found hfound =>
    cases hchunk
    exact (mem_of_lookup hfound).2
  next => cases hchunk

variable {action : VersionAction} {reply : VersionReply}

theorem versionEffect_of_appendAndActivate {textValue : Text} {expected : Option ℤ}
    (happly : appendAndActivate host action.call action.chunkUuid db textValue operation expected =
      .ok (reply, next)) : VersionEffect host db action next := by
  obtain ⟨chunk, hchunk, happly⟩ := bind_eq_ok.mp happly
  obtain ⟨-, -, happly⟩ := bind_eq_ok.mp happly
  dsimp only at happly
  split at happly
  · cases happly
    exact .unchanged
  · obtain ⟨⟨row, inserted⟩, hinsert, happly⟩ := bind_eq_ok.mp happly
    obtain ⟨activated, hactivate, happly⟩ := bind_eq_ok.mp happly
    cases happly
    have hinserted := insertsVersion_of_eq_ok hinsert
    rw [requireChunk_eq_ok hchunk] at hinserted
    exact .appended hinserted hactivate

theorem versionEffect_of_restoreVersion {number : ℤ} {expected : Option ℤ}
    (happly : restoreVersion host action.call action.chunkUuid db number expected =
      .ok (reply, next)) : VersionEffect host db action next := by
  obtain ⟨wanted, -, happly⟩ := bind_eq_ok.mp happly
  obtain ⟨chunk, hchunk, happly⟩ := bind_eq_ok.mp happly
  split at happly
  · cases happly
  · obtain ⟨-, -, happly⟩ := bind_eq_ok.mp happly
    obtain ⟨⟨row, inserted⟩, hinsert, happly⟩ := bind_eq_ok.mp happly
    obtain ⟨activated, hactivate, happly⟩ := bind_eq_ok.mp happly
    cases happly
    have hinserted := insertsVersion_of_eq_ok hinsert
    rw [requireChunk_eq_ok hchunk] at hinserted
    exact .appended hinserted hactivate

theorem versionEffect_of_setCurrentVersion {number : ℤ} (hdb : db.Versioned host)
    (happly : setCurrentVersion action.call action.chunkUuid db number = .ok (reply, next)) :
    VersionEffect host db action next := by
  obtain ⟨wanted, -, happly⟩ := bind_eq_ok.mp happly
  obtain ⟨chunk, -, happly⟩ := bind_eq_ok.mp happly
  split at happly
  · cases happly
  next row hfound =>
    obtain ⟨hversion, -⟩ := Option.filter_eq_some_iff.mp hfound
    obtain ⟨hrow, hchunk, -⟩ := (Db.version_eq_some hdb).mp hversion
    obtain ⟨activated, hactivate, happly⟩ := bind_eq_ok.mp happly
    cases happly
    exact .activated hrow hchunk hactivate

theorem activateReplacement_eq_ok {number : ℕ} {replacement : Option ℕ} (hdb : db.Versioned host)
    (hactivate : activateReplacement call chunkUuid db number replacement = .ok next) :
    ∃ row ∈ db.semanticChunkVersions, row.chunkUuid = chunkUuid ∧ row.versionNo ≠ number ∧
      activate call chunkUuid row (lit "retire") db = .ok next := by
  unfold activateReplacement at hactivate
  split at hactivate
  · cases hactivate
  next wanted =>
    split at hactivate
    · cases hactivate
    next row hfound =>
      obtain ⟨hversion, hcondition⟩ := Option.filter_eq_some_iff.mp hfound
      obtain ⟨hrow, hchunk, hnumber⟩ := (Db.version_eq_some hdb).mp hversion
      refine ⟨row, hrow, hchunk, ?_, hactivate⟩
      simp only [Bool.and_eq_true, decide_eq_true_eq] at hcondition
      exact hnumber ▸ hcondition.2

theorem versionEffect_of_retireVersion {number : ℤ} {replacement : Option ℤ}
    (hdb : db.Versioned host)
    (happly : retireVersion action.call action.chunkUuid db number replacement =
      .ok (reply, next)) : VersionEffect host db action next := by
  obtain ⟨wanted, -, happly⟩ := bind_eq_ok.mp happly
  obtain ⟨replacing, -, happly⟩ := bind_eq_ok.mp happly
  obtain ⟨chunk, -, happly⟩ := bind_eq_ok.mp happly
  split at happly
  · cases happly
  next row hfound =>
    obtain ⟨hversion, -⟩ := Option.filter_eq_some_iff.mp hfound
    obtain ⟨hrow, hchunk, hnumber⟩ := (Db.version_eq_some hdb).mp hversion
    obtain ⟨-, happly⟩ := raiseIf_bind_eq_ok.mp happly
    obtain ⟨replaced, hreplace, happly⟩ := bind_eq_ok.mp happly
    obtain ⟨-, happly⟩ := raiseIf_bind_eq_ok.mp happly
    cases happly
    unfold replaceCurrent at hreplace
    split at hreplace
    · obtain ⟨replacement, hmem, hown, hne, hactivate⟩ := activateReplacement_eq_ok hdb hreplace
      exact .replaced hrow hchunk hmem hown (hnumber ▸ hne) hactivate
    next hnot =>
      cases hreplace
      exact .retired hrow (Bool.eq_false_iff.mpr hnot)

theorem versionEffect_of_deleteVersion {number : ℤ} (hdb : db.Versioned host)
    (hoperation : action.operation = .deleteVersion number)
    (happly : deleteVersion action.call action.chunkUuid db number = .ok (reply, next)) :
    VersionEffect host db action next := by
  obtain ⟨wanted, hwanted, happly⟩ := bind_eq_ok.mp happly
  obtain ⟨-, hwanted⟩ := raiseIf_bind_eq_ok.mp hwanted
  obtain ⟨chunk, -, happly⟩ := bind_eq_ok.mp happly
  split at happly
  · cases happly
  next target hversion =>
    obtain ⟨htarget, hchunk, hnumber⟩ := (Db.version_eq_some hdb).mp hversion
    obtain ⟨-, happly⟩ := raiseIf_bind_eq_ok.mp happly
    rw [reactivateLatest_deleteRow] at happly
    cases happly
    cases hwanted
    exact .deleted hoperation htarget hchunk hnumber

/-- **What a step can do**, guards included. -/
theorem versionEffect_of_versionStep (hdb : db.Versioned host)
    (hstep : versionStep host db action = some next) : VersionEffect host db action next := by
  obtain ⟨⟨reply, _⟩, happly, rfl⟩ := Option.map_eq_some_iff.mp hstep
  replace happly := toOption_eq_some.mp happly
  unfold VersionAction.apply at happly
  split at happly
  · exact versionEffect_of_appendAndActivate happly
  · exact versionEffect_of_appendAndActivate happly
  · exact versionEffect_of_restoreVersion happly
  · exact versionEffect_of_setCurrentVersion hdb happly
  · exact versionEffect_of_retireVersion hdb happly
  next number hoperation => exact versionEffect_of_deleteVersion hdb hoperation happly

/-! ### Runs -/

theorem VersionEffect.versioned (heffect : VersionEffect host db action next)
    (hdb : db.Versioned host) : next.Versioned host := by
  cases heffect with
  | unchanged => exact hdb
  | appended hinsert hactivate =>
    exact (hinsert.versioned hdb).activate hinsert.mem hinsert.ownChunk hactivate
  | activated hrow hchunk hactivate => exact hdb.activate hrow hchunk hactivate
  | retired hrow hnot => exact hdb.retireRow _
  | replaced hrow hchunk hreplacement hown hne hactivate =>
    exact (hdb.activate hreplacement hown hactivate).retireRow _
  | deleted hoperation htarget hchunk hnumber => exact hdb.deleteRow htarget

/-- A settled chunk is projected, and the others stay as they were. -/
theorem Settles.keeps (hsettles : Settles host db next chunkUuid)
    (hprojected : Projected host db other) : Projected host next other := by
  obtain ⟨version, hproject⟩ := hprojected
  by_cases hother : other = chunkUuid
  · subst hother
    obtain ⟨text, htext, -⟩ := hproject.repeated
    exact hsettles.projected text htext
  · exact ⟨version, hproject.congr (hsettles.others other hother)⟩

/-- **What one operation keeps**: the tables agree about a chunk as they did unless the operation
deletes the version that the pointer of the chunk names. -/
theorem VersionEffect.projected (heffect : VersionEffect host db action next)
    (hdb : db.Versioned host) (hkeep : deletesCurrent other db action = false)
    (hprojected : Projected host db other) : Projected host next other := by
  obtain ⟨version, hproject⟩ := hprojected
  have hsame : ∀ {row : SemanticChunkVersion}, row ∈ db.semanticChunkVersions →
      version.id = row.id → version = row := fun hrow hid ↦
    List.inj_on_of_nodup_map hdb.ids hproject.mem.1 hrow hid
  cases heffect with
  | unchanged => exact ⟨version, hproject⟩
  | appended hinsert hactivate =>
    exact (settles_of_insert hinsert hdb hactivate).keeps ⟨version, hproject⟩
  | activated hrow hchunk hactivate =>
    exact (settles_of_activate hdb hrow hchunk hactivate).keeps ⟨version, hproject⟩
  | retired hrow hnot =>
    refine ⟨version, hproject.retireRow fun hid ↦ ?_⟩
    rw [← hsame hrow hid, hproject.mem.2.2] at hnot
    cases hnot
  | replaced hrow hchunk hreplacement hown hne hactivate =>
    by_cases hother : other = action.chunkUuid
    · subst hother
      obtain ⟨text, htext, -⟩ := hproject.repeated
      refine ⟨_, (projectsVersion_of_activate hdb hreplacement hown htext hactivate).retireRow ?_⟩
      exact fun hid ↦ hne (congrArg SemanticChunkVersion.versionNo
        (List.inj_on_of_nodup_map hdb.ids hreplacement hrow hid))
    · refine ⟨version, (hproject.congr (sameProjection_of_activate hdb hreplacement hown hactivate
        hother)).retireRow fun hid ↦ hother ?_⟩
      exact hproject.mem.2.1.symm.trans (hsame hrow hid ▸ hchunk)
  | deleted hoperation htarget hchunk hnumber =>
    refine ⟨_, hproject.deleteRow hdb htarget fun hid ↦ ?_⟩
    obtain rfl := hsame htarget hid
    have hcurrent : db.currentVersionNo other = some version.versionNo := by
      rw [Db.currentVersionNo, hproject.currentVersion hdb, Option.map_some]
    have hown : action.chunkUuid = other := hchunk.symm.trans hproject.mem.2.1
    simp [deletesCurrent, hoperation, hown, hcurrent, hnumber] at hkeep

/-- **The current version over whole runs.** In every run of operations, on any chunks, that never
deletes the version which the pointer of a chunk names, the tables agree about the current version of
the chunk in every state reached. -/
theorem projected_of_operations {initial final : Db} (hinitial : initial.Versioned host)
    {chunkUuid : Uuid} (hprojected : Projected host initial chunkUuid)
    (hrun : Steps (versionStep host)
      (fun db action ↦ deletesCurrent chunkUuid db action = false) initial final) :
    Projected host final chunkUuid := by
  have hboth : final.Versioned host ∧ Projected host final chunkUuid :=
    hrun.invariant (motive := fun db ↦ db.Versioned host ∧ Projected host db chunkUuid)
      ⟨hinitial, hprojected⟩ fun _ _ _ ⟨hdb, hproject⟩ hallowed hstep ↦
        have heffect := versionEffect_of_versionStep hdb hstep
        ⟨heffect.versioned hdb, heffect.projected hdb hallowed hproject⟩
  exact hboth.2

end Operations

/-- The tables with one chunk and its first version. -/
def seededChunk : Db where
  entityUuidRegistry := [(.semanticChunks, 1)]
  semanticChunks :=
    [{ id := 1, ownerId := none, documentId := 2, paragraphId := 3, chapterId := 4, orderIndex := 0
       text := [], sourceStart := 0, sourceEnd := 1, charCount := 1, chunkType := lit "DocBlock"
       blockMeta := [] }]
  semanticChunkTexts :=
    [{ chunkUuid := 1, text := lit "a", textSha256 := sampleHost.hexdigest (lit "a"), charCount := 1
       blockMeta := [] }]
  semanticChunkVersions :=
    [{ id := 11, chunkUuid := 1, logicalChunkId := 1, versionNo := 1, text := lit "a"
       textSha256 := sampleHost.hexdigest (lit "a"), charCount := 1, sourceStart := 0, sourceEnd := 1
       orderIndex := 0, isCurrent := true, validFrom := 0, operation := some (lit "ingest")
       blockMeta := [] }]
  semanticChunkCurrent := [{ chunkUuid := 1, versionId := 11 }]

theorem versioned_seededChunk : seededChunk.Versioned sampleHost where
  ids := by decide
  numbers := by decide
  logical := by simp [seededChunk]
  digests := by simp [seededChunk]
  pointers := by decide
  named := by simp [seededChunk]

theorem projected_seededChunk : Projected sampleHost seededChunk 1 :=
  ⟨_, ⟨rfl, ⟨_, rfl, rfl⟩, ⟨_, rfl, ⟨rfl, rfl, rfl, rfl⟩⟩⟩⟩

/-- A new text, and then the deletion of the numbered version. -/
def appendThenDelete (versionNo : ℤ) : List VersionAction :=
  [{ chunkUuid := 1, call := { now := 1, versionId := 12 }
     operation := .appendVersion (lit "b") none },
    { chunkUuid := 1, call := { now := 2, versionId := 13 }
      operation := .deleteVersion versionNo }]

/-- The old version is deleted, and the tables agree about the new one. -/
theorem projected_of_append_then_delete_old :
    Projected sampleHost
      ((replay (guarded (versionStep sampleHost) fun db action ↦ deletesCurrent 1 db action = false)
        seededChunk (appendThenDelete 1)).getD seededChunk) 1 :=
  projected_of_operations versioned_seededChunk projected_seededChunk
    (steps_of_replay (by decide +kernel))

/-- The new version is deleted instead. -/
def currentDeleted : Db :=
  (replay (guarded (versionStep sampleHost) fun _ _ ↦ True) seededChunk
    (appendThenDelete 2)).getD seededChunk

/-- The condition is needed: when the new version is deleted, no version is current, no pointer is
left, and the text row keeps the deleted text. -/
theorem exists_unprojected_chunk :
    ∃ initial final : Db, initial.Versioned sampleHost ∧ Projected sampleHost initial 1 ∧
      Steps (versionStep sampleHost) (fun _ _ ↦ True) initial final ∧
        ¬Projected sampleHost final 1 := by
  refine ⟨seededChunk, currentDeleted, versioned_seededChunk, projected_seededChunk,
    steps_of_replay (by decide +kernel), fun ⟨version, hproject⟩ ↦ ?_⟩
  have hnone : (currentDeleted.currentVersions 1).length = 0 := by decide +kernel
  rw [hproject.flagged] at hnone
  cases hnone

end DocStore
