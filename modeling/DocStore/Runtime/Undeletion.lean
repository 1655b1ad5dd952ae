import DocStore.Runtime.EntityLifecycle
import DocStore.Foundation.Transition

/-!
# Undeletion

Both deletion operations set the deletion columns of a closure that does not depend on these
columns, so an undeletion after a deletion of the same entities works on the same rows
(`closure_map_rewritten`). It does not know which of them were deleted before:
`records_undelete_softDelete` says that all rows of the closure end up live and all others as they
were. The columns are what they were exactly when the whole closure was live.
-/

set_option autoImplicit false
set_option relaxedAutoImplicit false

namespace DocStore

open Foundation

/-! ### Rewritten records -/

/-- A record with its common columns rewritten. -/
def EntityRecord.rewritten (rewrite : EntityTable → EntityRow → EntityRow) (row : EntityRecord) :
    EntityRecord :=
  { row with toEntityRow := rewrite row.table row.toEntityRow }

/-- A rewriting that keeps what addresses a row and what owns it. -/
structure KeepsOwnership (rewrite : EntityTable → EntityRow → EntityRow) : Prop where
  id : ∀ table row, (rewrite table row).id = row.id
  ownerId : ∀ table row, (rewrite table row).ownerId = row.ownerId

variable {host : Host} {rewrite : EntityTable → EntityRow → EntityRow}

theorem records_mapRows (db : EntityDb) :
    (db.mapRows rewrite).records host =
      (db.records host).map (EntityRecord.rewritten rewrite) := by
  simp only [EntityDb.records, EntityDb.mapRows, List.map_append, List.map_map]
  rfl

theorem KeepsOwnership.ref_rewritten (hkeeps : KeepsOwnership rewrite) (row : EntityRecord) :
    (row.rewritten rewrite).ref = row.ref := by
  show (row.table, (rewrite row.table row.toEntityRow).id) = (row.table, row.id)
  rw [hkeeps.id]

theorem KeepsOwnership.inProject_rewritten (hkeeps : KeepsOwnership rewrite)
    (row project : EntityRecord) :
    (row.rewritten rewrite).inProject (project.rewritten rewrite) = row.inProject project := by
  simp only [EntityRecord.inProject, EntityRecord.rewritten, hkeeps.id]
  rfl

/-- The dependencies between rows stay the same. -/
theorem KeepsOwnership.dependsOn_map (hkeeps : KeepsOwnership rewrite)
    (records : List EntityRecord) (parent : EntityRef) (row : EntityRecord) :
    dependsOn (records.map (EntityRecord.rewritten rewrite)) parent (row.rewritten rewrite) =
      dependsOn records parent row := by
  have howner : (row.rewritten rewrite).ownerId = row.ownerId := hkeeps.ownerId row.table _
  have hrefers : (row.rewritten rewrite).refersTo parent = row.refersTo parent := by
    obtain ⟨table, id⟩ := parent
    cases table <;> rfl
  have hproject : ((fun project : EntityRecord ↦
      project.ref = parent && (row.rewritten rewrite).inProject project) ∘
        EntityRecord.rewritten rewrite) =
      fun project ↦ project.ref = parent && row.inProject project := by
    funext project
    simp only [Function.comp_apply, hkeeps.ref_rewritten, hkeeps.inProject_rewritten]
  simp only [dependsOn, howner, hrefers, List.any_map, hproject]

theorem KeepsOwnership.childRefs_map (hkeeps : KeepsOwnership rewrite)
    (records : List EntityRecord) :
    childRefs (records.map (EntityRecord.rewritten rewrite)) = childRefs records := by
  funext parent
  have hsame : (dependsOn (records.map (EntityRecord.rewritten rewrite)) parent ∘
      EntityRecord.rewritten rewrite) = dependsOn records parent := by
    funext row
    exact hkeeps.dependsOn_map records parent row
  rw [childRefs, childRefs, List.filter_map, hsame, List.map_map]
  exact List.map_congr_left fun row _ ↦ hkeeps.ref_rewritten row

/-- **The closure does not depend on the deletion columns.** -/
theorem KeepsOwnership.closure_map (hkeeps : KeepsOwnership rewrite)
    (records : List EntityRecord) (roots : List EntityRef) :
    closure (records.map (EntityRecord.rewritten rewrite)) roots = closure records roots := by
  rw [closure, closure, hkeeps.childRefs_map, List.length_map]

theorem KeepsOwnership.rootsFor_map (hkeeps : KeepsOwnership rewrite)
    (records : List EntityRecord) (table : EntityTable) (ids : List Uuid) :
    rootsFor (records.map (EntityRecord.rewritten rewrite)) table ids =
      rootsFor records table ids := by
  have hsame : ((fun row : EntityRecord ↦ decide (row.table = .projects) && decide (row.id ∈ ids)) ∘
      EntityRecord.rewritten rewrite) =
      fun row ↦ decide (row.table = .projects) && decide (row.id ∈ ids) := by
    funext row
    simp only [Function.comp_apply, EntityRecord.rewritten, hkeeps.id]
    rfl
  unfold rootsFor
  split
  · rw [List.filter_map, hsame, List.map_map]
    exact List.map_congr_left fun row _ ↦ hkeeps.ref_rewritten row
  · rfl

/-! ### What hangs below some entities -/

/-- **The closure holds exactly what can be reached from the roots** by ownership, foreign keys and
project names. -/
theorem mem_closure_iff {records : List EntityRecord} {roots : List EntityRef} {ref : EntityRef} :
    ref ∈ closure records roots ↔ ∃ root ∈ roots, Reaches (childRefs records) root ref := by
  have hcandidates : ∀ parent, ∀ child ∈ childRefs records parent,
      child ∈ records.map EntityRecord.ref := by
    intro parent child hchild
    obtain ⟨row, hrow, rfl⟩ := List.mem_map.mp hchild
    exact List.mem_map_of_mem (List.mem_of_mem_filter hrow)
  rw [closure, ← mem_saturate_iff hcandidates, List.length_map]

/-! ### Deletion and undeletion -/

/-- The rewriting of `_set_deleted`. -/
def markedRow (now : Instant) (refs : List EntityRef) (deleted : Bool) (table : EntityTable)
    (row : EntityRow) : EntityRow :=
  if (table, row.id) ∈ refs then { row with toLifecycle := .marked now deleted } else row

theorem keepsOwnership_markedRow (now : Instant) (refs : List EntityRef) (deleted : Bool) :
    KeepsOwnership (markedRow now refs deleted) := by
  constructor
  all_goals
    intro table row
    unfold markedRow
    split <;> rfl

/-- What a deletion or an undeletion leaves. -/
theorem records_markDeleted (now : Instant) (table : EntityTable) (ids : List Uuid)
    (deleted : Bool) (db : EntityDb) :
    (db.markDeleted host now table ids deleted).records host =
      (db.records host).map (EntityRecord.rewritten (markedRow now
        (closure (db.records host) (rootsFor (db.records host) table ids)) deleted)) :=
  records_mapRows db

/-- A record without deletion marks, if its row is among some entries. -/
def EntityRecord.revived (refs : List EntityRef) (row : EntityRecord) : EntityRecord :=
  if row.ref ∈ refs then { row with toLifecycle := {} } else row

/-- An undeletion after a deletion works on the same rows, and leaves them all live. -/
theorem records_undelete_softDelete (now later : Instant) (table : EntityTable) (ids : List Uuid)
    (db : EntityDb) :
    ((db.softDelete host now table ids).undelete host later table ids).records host =
      (db.records host).map (EntityRecord.revived
        (closure (db.records host) (rootsFor (db.records host) table ids))) := by
  set refs := closure (db.records host) (rootsFor (db.records host) table ids) with hrefs
  have hdeleted := keepsOwnership_markedRow now refs true
  rw [EntityDb.undelete, records_markDeleted, EntityDb.softDelete, records_markDeleted, ← hrefs,
    hdeleted.rootsFor_map, hdeleted.closure_map, ← hrefs, List.map_map]
  refine List.map_congr_left fun row _ ↦ ?_
  by_cases hmem : (row.table, row.id) ∈ refs
  · simp [EntityRecord.rewritten, markedRow, EntityRecord.revived, EntityRecord.ref, hmem,
      Lifecycle.marked]
  · simp [EntityRecord.rewritten, markedRow, EntityRecord.revived, EntityRecord.ref, hmem]

/-- A row hangs below some entities: ownership, foreign keys and project names lead to it. -/
def EntityDb.Below (host : Host) (db : EntityDb) (table : EntityTable) (ids : List Uuid)
    (row : EntityRecord) : Prop :=
  ∃ root ∈ rootsFor (db.records host) table ids, Reaches (childRefs (db.records host)) root row.ref

/-- **An undeletion after a deletion** of the same entities makes every row below them live and
leaves the others as they were. It restores the deletion columns exactly when every row below the
entities was live before. -/
theorem undelete_after_softDelete (host : Host) (now later : Instant) (table : EntityTable)
    (ids : List Uuid) (db : EntityDb) :
    List.Forall₂ (fun before after ↦
        (db.Below host table ids before → after = { before with toLifecycle := {} }) ∧
          (¬db.Below host table ids before → after = before))
      (db.records host)
      (((db.softDelete host now table ids).undelete host later table ids).records host) ∧
    ((((db.softDelete host now table ids).undelete host later table ids).records host).map
        (fun row ↦ row.toLifecycle) = (db.records host).map (fun row ↦ row.toLifecycle) ↔
      ∀ row ∈ db.records host, db.Below host table ids row → row.toLifecycle = {}) := by
  rw [records_undelete_softDelete]
  have hbelow : ∀ row : EntityRecord, row.ref ∈ closure (db.records host)
      (rootsFor (db.records host) table ids) ↔ db.Below host table ids row :=
    fun row ↦ mem_closure_iff
  constructor
  · rw [List.forall₂_map_right_iff, List.forall₂_same]
    intro row _
    rw [← hbelow]
    exact ⟨fun hmem ↦ if_pos hmem, fun hmem ↦ if_neg hmem⟩
  · rw [List.map_map, List.map_inj_left]
    refine forall₂_congr fun row _ ↦ ?_
    rw [← hbelow, Function.comp_apply, EntityRecord.revived]
    split
    next hmem => exact ⟨fun hsame _ ↦ hsame.symm, fun hlive ↦ (hlive hmem).symm⟩
    next hmem => exact ⟨fun _ habsurd ↦ absurd habsurd hmem, fun _ ↦ rfl⟩

/-- A project. -/
def sampleProject : ProjectRow where
  id := 1
  ownerId := none
  name := lit "p"

/-- A document of the project. -/
def projectDocument : DocumentRow where
  id := 2
  ownerId := some 1
  sourceUploadId := 2
  sourceVersion := 1
  sourcePath := none
  sourceName := none
  sourceHash := none
  blockMeta := []

/-- The document is deleted on its own. -/
def deletedInProject : List EntityAction :=
  [.create (.project sampleProject), .create (.document projectDocument),
    .softDelete 3 .documents [2]]

/-- The tables with the deleted document. -/
def deletedDocument : EntityDb :=
  (replay (guarded (entityStep sampleHost) fun _ _ ↦ True) {} deletedInProject).getD {}

/-- The document comes back when its project is deleted and undeleted. -/
theorem exists_revived_document :
    ∃ db : EntityDb, Steps (entityStep sampleHost) (fun _ _ ↦ True) {} db ∧
      (db.records sampleHost).map (fun row ↦ (row.id, row.isDeleted)) = [(1, false), (2, true)] ∧
      (((db.softDelete sampleHost 4 .projects [1]).undelete sampleHost 5 .projects [1]).records
        sampleHost).map (fun row ↦ (row.id, row.isDeleted)) = [(1, false), (2, false)] :=
  ⟨deletedDocument, steps_of_replay (by decide +kernel), by decide +kernel, by decide +kernel⟩

end DocStore
