import DocStore.Domain.Metadata
import DocStore.Domain.TextOrder
import DocStore.Foundation.Ranking
import DocStore.Foundation.Schedule
import Mathlib.Logic.Relation

/-!
# Migrations

The migrations are visited by file name. One that is not applied is run after its direct
dependencies, which are run out of turn where they come later; what these depend on in turn is not
looked at. Every migration that is not applied is run once and recorded, and the order is right
exactly when the names fit: whatever is run, at its place in the order of the names, depends only on
what is applied or has its place in front of it (`runsInOrder_iff`). A chain of three migrations
whose names run against it does not fit (`not_runsInOrder_chain`).
-/

set_option autoImplicit false
set_option relaxedAutoImplicit false

namespace DocStore

open Foundation

/-! ### Modules and the database -/

/-- A module of the migrations, with the name of its file. A revision that is missing, empty or not a
string is `none`. -/
structure Migration where
  fileName : Text
  revision : Option Text
  downRevision : List Text

/-- The database: the rows of `alembic_version`, and everything that upgrades change. -/
structure MigratedDb (σ : Type) where
  versions : List Text
  contents : σ

/-- What the runner raises. -/
inductive MigrationError where
  | noMigrations
  | noRevision (fileName : Text)
  | missingDependencies (revision : Text) (missing : List Text)
  | keyError (revision : Text)

/-- `_revision`. -/
def Migration.revisionOf (module : Migration) : Except MigrationError Text :=
  match module.revision with
  | some revision => .ok revision
  | none => .error (.noRevision module.fileName)

/-- The state of the runner: the database, the set `applied` and the list `applied_now`. -/
structure MigrationRun (σ : Type) where
  database : MigratedDb σ
  applied : List Text
  appliedNow : List Text

variable {σ : Type}

/-- `INSERT INTO alembic_version … ON CONFLICT (version_num) DO NOTHING`. -/
def recordRevision (versions : List Text) (revision : Text) : List Text :=
  if revision ∈ versions then versions else versions ++ [revision]

/-! ### Running -/

section Running

variable (upgrade : Migration → σ → σ)

/-- `_run_upgrade`, and what is noted about it. -/
def runUpgrade (run : MigrationRun σ) (module : Migration) (revision : Text) : MigrationRun σ where
  database :=
    { versions := recordRevision run.database.versions revision
      contents := upgrade module run.database.contents }
  applied := run.applied ++ [revision]
  appliedNow := run.appliedNow ++ [revision]

/-- A dependency is run when it is not applied. -/
def runDependency (byRevision : List (Text × Migration)) (run : MigrationRun σ) (dependency : Text) :
    Except MigrationError (MigrationRun σ) :=
  if dependency ∈ run.applied then .ok run
  else
    match getKey byRevision dependency with
    | some module => .ok (runUpgrade upgrade run module dependency)
    | none => .error (.keyError dependency)

/-- A turn of the loop over the modules. -/
def visitModule (byRevision : List (Text × Migration)) (run : MigrationRun σ) (module : Migration) :
    Except MigrationError (MigrationRun σ) := do
  let revision ← module.revisionOf
  if revision ∈ run.applied then return run
  let missing := module.downRevision.filter fun dependency ↦
    dependency ∉ run.applied && (getKey byRevision dependency).isNone
  raiseIf (!missing.isEmpty) (.missingDependencies revision missing)
  let run ← module.downRevision.foldlM (runDependency upgrade byRevision) run
  return runUpgrade upgrade run module revision

/-- `apply_migrations` on the modules of a directory. The upgrades are those that succeed: one that
raises rolls the whole transaction back. -/
def applyMigrations (modules : List Migration) (database : MigratedDb σ) :
    Except MigrationError (List Text × MigratedDb σ) := do
  let modules := ranked (fun module : Migration ↦ TextKey.mk module.fileName) modules
  raiseIf modules.isEmpty .noMigrations
  let byRevision ← modules.mapM fun module ↦ do
    let revision ← module.revisionOf
    return (revision, module)
  let run ← modules.foldlM (visitModule upgrade (updateKeys [] byRevision))
    { database, applied := database.versions, appliedNow := [] }
  return (run.appliedNow, run.database)

end Running

/-! ### The property -/

/-- A revision depends on another directly. -/
def DependsOn (modules : List Migration) (revision dependency : Text) : Prop :=
  ∃ module ∈ modules, module.revision = some revision ∧ dependency ∈ module.downRevision

/-- A set of modules that can be migrated: every module has a revision of its own, what it depends on
is there, and nothing depends on itself. -/
structure WellFormed (modules : List Migration) : Prop where
  nonempty : modules ≠ []
  named : ∀ module ∈ modules, module.revision ≠ none
  distinct : (modules.map Migration.revision).Nodup
  complete : ∀ module ∈ modules, ∀ dependency ∈ module.downRevision,
    some dependency ∈ modules.map Migration.revision
  acyclic : ∀ revision, ¬Relation.TransGen (DependsOn modules) revision revision

/-- The module of a revision. -/
def moduleOf (modules : List Migration) (revision : Text) : Option Migration :=
  modules.find? fun module ↦ module.revision = some revision

/-- The effect of the upgrades of some revisions, one after the other. -/
def runUpgrades (upgrade : Migration → σ → σ) (modules : List Migration) (revisions : List Text)
    (contents : σ) : σ :=
  revisions.foldl (fun contents revision ↦
    ((moduleOf modules revision).map fun module ↦ upgrade module contents).getD contents) contents

/-- Migrations that run once and after what they need.
- `ran`: the upgrades of the returned revisions were run, in this order, and no others;
- `once`: these are the revisions that were not applied, each of them once;
- `ordered`: whatever a revision depends on, directly or not, was applied or run before it;
- `recorded`: the returned revisions are recorded. -/
structure RunsInOrder (upgrade : Migration → σ → σ) (modules : List Migration)
    (before : MigratedDb σ) (run : List Text) (after : MigratedDb σ) : Prop where
  ran : after.contents = runUpgrades upgrade modules run before.contents
  once : run.Nodup ∧ ∀ revision, revision ∈ run ↔
    some revision ∈ modules.map Migration.revision ∧ revision ∉ before.versions
  ordered : ∀ earlier revision later, run = earlier ++ revision :: later →
    ∀ needed, Relation.TransGen (DependsOn modules) revision needed →
      needed ∈ before.versions ++ earlier
  recorded : after.versions = before.versions ++ run

/-! ### The condition -/

/-- The revisions that have their places at a module: its direct dependencies and its own. -/
def Migration.tasks (module : Migration) : List Text :=
  module.downRevision ++ module.revision.toList

/-- The modules that are not applied, by file name. -/
def unapplied (modules : List Migration) (versions : List Text) : List Migration :=
  (ranked (fun module : Migration ↦ TextKey.mk module.fileName) modules).filter fun module ↦
    module.revision.all fun revision ↦ revision ∉ versions

/-- The names of the files fit the dependencies: going through the modules that are not applied by
file name, and at each through its direct dependencies and itself, every revision that comes up for
the first time depends, directly or not, only on what is applied or came up before it. -/
def NamesFit (modules : List Migration) (versions : List Text) : Prop :=
  ∀ front revision back,
    (unapplied modules versions).flatMap Migration.tasks = front ++ revision :: back →
    revision ∉ versions ++ front → ∀ needed,
      Relation.TransGen (DependsOn modules) revision needed → needed ∈ versions ++ front

/-! ### What a run does -/

/-- The state after some revisions were run. -/
def MigrationRun.after (upgrade : Migration → σ → σ) (modules : List Migration)
    (run : MigrationRun σ) (revisions : List Text) : MigrationRun σ where
  database :=
    { versions := run.database.versions ++ revisions
      contents := runUpgrades upgrade modules revisions run.database.contents }
  applied := run.applied ++ revisions
  appliedNow := run.appliedNow ++ revisions

/-- What a turn of the loop runs. -/
def newlyRun (applied : List Text) (module : Migration) : List Text :=
  if module.revision.any fun revision ↦ revision ∈ applied then [] else fresh applied module.tasks

/-- What the loop runs. -/
def allRun : List Text → List Migration → List Text
  | _, [] => []
  | applied, module :: modules =>
    newlyRun applied module ++ allRun (applied ++ newlyRun applied module) modules

section Simulation

variable {upgrade : Migration → σ → σ} {modules : List Migration}
  {byRevision : List (Text × Migration)} {run : MigrationRun σ}

theorem MigrationRun.after_nil : run.after upgrade modules [] = run := by
  simp [MigrationRun.after, runUpgrades]

theorem MigrationRun.after_append (first second : List Text) :
    (run.after upgrade modules first).after upgrade modules second =
      run.after upgrade modules (first ++ second) := by
  simp [MigrationRun.after, runUpgrades, List.append_assoc]

/-- One upgrade. -/
theorem runUpgrade_eq {module : Migration} {revision : Text}
    (hversions : run.database.versions = run.applied) (hnew : revision ∉ run.applied)
    (hmodule : moduleOf modules revision = some module) :
    runUpgrade upgrade run module revision = run.after upgrade modules [revision] := by
  have hrecorded : recordRevision run.database.versions revision =
      run.database.versions ++ [revision] := if_neg (hversions ▸ hnew)
  rw [runUpgrade, hrecorded, MigrationRun.after, runUpgrades, List.foldl_cons, List.foldl_nil,
    hmodule]
  rfl

/-- The dependencies that are not applied are run, in their order. -/
theorem foldlM_runDependency {dependencies : List Text}
    (hversions : run.database.versions = run.applied)
    (hlookup : ∀ revision, getKey byRevision revision = moduleOf modules revision)
    (hcomplete : ∀ dependency ∈ dependencies, (moduleOf modules dependency).isSome) :
    dependencies.foldlM (runDependency upgrade byRevision) run =
      .ok (run.after upgrade modules (fresh run.applied dependencies)) := by
  induction dependencies generalizing run with
  | nil => exact congrArg Except.ok MigrationRun.after_nil.symm
  | cons dependency dependencies ih =>
    obtain ⟨hfirst, hrest⟩ := List.forall_mem_cons.mp hcomplete
    rw [List.foldlM_cons, runDependency]
    by_cases hdone : dependency ∈ run.applied
    · rw [if_pos hdone, fresh_cons_of_mem hdone]
      exact ih hversions hrest
    · obtain ⟨module, hmodule⟩ := Option.isSome_iff_exists.mp hfirst
      rw [if_neg hdone, hlookup, hmodule, fresh_cons_of_not_mem hdone]
      dsimp only
      rw [runUpgrade_eq hversions hdone hmodule]
      refine (ih (congrArg (· ++ [dependency]) hversions) hrest).trans ?_
      rw [MigrationRun.after_append]
      rfl

/-- A turn of the loop. -/
theorem visitModule_eq {module : Migration} {revision : Text}
    (hversions : run.database.versions = run.applied)
    (hlookup : ∀ revision, getKey byRevision revision = moduleOf modules revision)
    (hcomplete : ∀ dependency ∈ module.downRevision, (moduleOf modules dependency).isSome)
    (hrevision : module.revision = some revision)
    (hmodule : moduleOf modules revision = some module)
    (hother : revision ∉ module.downRevision) :
    visitModule upgrade byRevision run module =
      .ok (run.after upgrade modules (newlyRun run.applied module)) := by
  have hname : module.revisionOf = .ok revision := by
    rw [Migration.revisionOf, hrevision]
  rw [visitModule, hname, newlyRun, hrevision]
  by_cases hdone : revision ∈ run.applied
  · have hskip : (some revision).any (fun revision ↦ decide (revision ∈ run.applied)) = true := by
      simpa using hdone
    rw [if_pos hskip, MigrationRun.after_nil]
    simp [bind, Except.bind, pure, Except.pure, hdone]
  · have hvisit : (some revision).any (fun revision ↦ decide (revision ∈ run.applied)) = false := by
      simpa using hdone
    have hmissing : (module.downRevision.filter fun dependency ↦
        dependency ∉ run.applied && (getKey byRevision dependency).isNone) = [] := by
      rw [List.filter_eq_nil_iff]
      intro dependency hdependency
      obtain ⟨other, hsome⟩ := Option.isSome_iff_exists.mp (hcomplete dependency hdependency)
      simp [hlookup, hsome]
    have htasks : fresh run.applied module.tasks =
        fresh run.applied module.downRevision ++ [revision] := by
      rw [Migration.tasks, hrevision, fresh_append]
      refine congrArg _ (fresh_cons_of_not_mem fun hmem ↦ ?_)
      rcases List.mem_append.mp hmem with hmem | hmem
      · exact hdone hmem
      · exact hother (mem_fresh.mp hmem).1
    have hlast : revision ∉
        (run.after upgrade modules (fresh run.applied module.downRevision)).applied := by
      intro hmem
      rcases List.mem_append.mp hmem with hmem | hmem
      · exact hdone hmem
      · exact hother (mem_fresh.mp hmem).1
    rw [hvisit, htasks]
    simp only [bind, Except.bind, hdone, if_false, hmissing, raiseIf, List.isEmpty_nil, Bool.not_true,
      Bool.false_eq_true, foldlM_runDependency hversions hlookup hcomplete, pure, Except.pure]
    rw [runUpgrade_eq (congrArg (· ++ _) hversions) hlast hmodule, MigrationRun.after_append]

/-- The loop. -/
theorem foldlM_visitModule {visited : List Migration}
    (hversions : run.database.versions = run.applied)
    (hlookup : ∀ revision, getKey byRevision revision = moduleOf modules revision)
    (hvisited : ∀ module ∈ visited, ∃ revision, module.revision = some revision ∧
      moduleOf modules revision = some module ∧ revision ∉ module.downRevision ∧
      ∀ dependency ∈ module.downRevision, (moduleOf modules dependency).isSome) :
    visited.foldlM (visitModule upgrade byRevision) run =
      .ok (run.after upgrade modules (allRun run.applied visited)) := by
  induction visited generalizing run with
  | nil => exact congrArg Except.ok MigrationRun.after_nil.symm
  | cons module visited ih =>
    obtain ⟨⟨revision, hrevision, hmodule, hother, hcomplete⟩, hrest⟩ :=
      List.forall_mem_cons.mp hvisited
    rw [List.foldlM_cons, visitModule_eq hversions hlookup hcomplete hrevision hmodule hother]
    refine (ih (congrArg (· ++ newlyRun run.applied module) hversions) hrest).trans ?_
    rw [MigrationRun.after_append]
    rfl

end Simulation

/-! ### Well formed modules -/

section Modules

variable {modules : List Migration}

theorem moduleOf_eq_some (hdistinct : (modules.map Migration.revision).Nodup) {module : Migration}
    (hmem : module ∈ modules) {revision : Text} (hrevision : module.revision = some revision) :
    moduleOf modules revision = some module := by
  cases hfound : moduleOf modules revision with
  | none =>
    have hnone := List.find?_eq_none.mp hfound module hmem
    exact absurd hrevision (by simpa using hnone)
  | some other =>
    have hother : other.revision = some revision := by simpa using List.find?_some hfound
    exact congrArg some (List.inj_on_of_nodup_map hdistinct (List.mem_of_find?_eq_some hfound) hmem
      (hother.trans hrevision.symm))

theorem moduleOf_eq_none_iff {revision : Text} :
    moduleOf modules revision = none ↔ some revision ∉ modules.map Migration.revision := by
  rw [moduleOf, List.find?_eq_none, List.mem_map]
  push Not
  simp

/-- The dict of the modules. -/
theorem getKey_byRevision (hdistinct : (modules.map Migration.revision).Nodup)
    {sorted : List Migration} (hsorted : sorted.Perm modules) {entries : List (Text × Migration)}
    (hentries : entries.map (fun entry ↦ (some entry.1, entry.2)) =
      sorted.map fun module ↦ (module.revision, module)) (revision : Text) :
    getKey (updateKeys [] entries) revision = moduleOf modules revision := by
  have hmem : ∀ entry : Text × Migration, entry ∈ entries ↔
      entry.2 ∈ modules ∧ entry.2.revision = some entry.1 := by
    intro entry
    have hinj : Function.Injective fun entry : Text × Migration ↦ (some entry.1, entry.2) := by
      intro first second hsame
      obtain ⟨hfirst, hsecond⟩ := Prod.mk.inj hsame
      exact Prod.ext (Option.some.inj hfirst) hsecond
    rw [← List.mem_map_of_injective hinj, hentries, List.mem_map, ← hsorted.mem_iff]
    constructor
    · rintro ⟨module, hmodule, hsame⟩
      obtain ⟨hrevision, rfl⟩ := Prod.mk.inj hsame
      exact ⟨hmodule, hrevision⟩
    · rintro ⟨hmodule, hrevision⟩
      exact ⟨entry.2, hmodule, Prod.ext hrevision rfl⟩
  have hvalues : ∀ first ∈ entries, ∀ second ∈ entries, first.1 = second.1 → first = second := by
    intro first hfirst second hsecond hsame
    obtain ⟨hmodule, hrevision⟩ := (hmem first).mp hfirst
    obtain ⟨hmodule', hrevision'⟩ := (hmem second).mp hsecond
    refine Prod.ext hsame (List.inj_on_of_nodup_map hdistinct hmodule hmodule' ?_)
    rw [hrevision, hrevision', hsame]
  have hempty : (([] : List (Text × Migration)).map Prod.fst).Nodup := List.nodup_nil
  refine Option.ext fun module ↦ ?_
  rw [getKey_eq_some (nodup_updateKeys hempty entries), mem_updateKeys_nil hvalues, hmem]
  constructor
  · rintro ⟨hmodule, hrevision⟩
    exact moduleOf_eq_some hdistinct hmodule hrevision
  · intro hfound
    exact ⟨List.mem_of_find?_eq_some hfound, by simpa using List.find?_some hfound⟩

/-- What the loop needs of well formed modules. -/
theorem WellFormed.visited (hmodules : WellFormed modules) {module : Migration}
    (hmem : module ∈ modules) : ∃ revision, module.revision = some revision ∧
      moduleOf modules revision = some module ∧ revision ∉ module.downRevision ∧
      ∀ dependency ∈ module.downRevision, (moduleOf modules dependency).isSome := by
  obtain ⟨revision, hrevision⟩ := Option.ne_none_iff_exists'.mp (hmodules.named module hmem)
  refine ⟨revision, hrevision, moduleOf_eq_some hmodules.distinct hmem hrevision, fun hself ↦ ?_,
    fun dependency hdependency ↦ ?_⟩
  · exact hmodules.acyclic revision (.single ⟨module, hmem, hrevision, hself⟩)
  · rw [Option.isSome_iff_ne_none, Ne, moduleOf_eq_none_iff, not_not]
    exact hmodules.complete module hmem dependency hdependency

/-- **What `apply_migrations` returns** for well formed modules. -/
theorem applyMigrations_eq_ok (hmodules : WellFormed modules) (upgrade : Migration → σ → σ)
    (before : MigratedDb σ) :
    let run := allRun before.versions
      (ranked (fun module : Migration ↦ TextKey.mk module.fileName) modules)
    applyMigrations upgrade modules before = .ok (run,
      { versions := before.versions ++ run
        contents := runUpgrades upgrade modules run before.contents }) := by
  intro run
  let sorted := ranked (fun module : Migration ↦ TextKey.mk module.fileName) modules
  have hperm : sorted.Perm modules := perm_ranked _ modules
  have hsome : sorted.isEmpty = false := by
    rw [List.isEmpty_eq_false_iff]
    intro hnone
    exact hmodules.nonempty (hnone ▸ hperm).nil_eq.symm
  have hrevisions : sorted.mapM (fun module ↦ do
      let revision ← module.revisionOf
      return (revision, module)) =
        .ok (sorted.map fun module ↦ (module.revision.getD [], module)) := by
    rw [mapM_eq_ok, List.forall₂_map_right_iff, List.forall₂_same]
    intro module hmem
    obtain ⟨revision, hrevision, -⟩ := hmodules.visited (hperm.mem_iff.mp hmem)
    rw [Migration.revisionOf, hrevision]
    rfl
  have hentries : (sorted.map fun module ↦ (module.revision.getD [], module)).map
      (fun entry ↦ (some entry.1, entry.2)) =
        sorted.map fun module ↦ (module.revision, module) := by
    rw [List.map_map]
    refine List.map_congr_left fun module hmem ↦ ?_
    obtain ⟨revision, hrevision, -⟩ := hmodules.visited (hperm.mem_iff.mp hmem)
    simp [hrevision]
  have hloop : sorted.foldlM (visitModule upgrade (updateKeys [] _))
      { database := before, applied := before.versions, appliedNow := [] } = .ok _ :=
    foldlM_visitModule rfl (getKey_byRevision hmodules.distinct hperm hentries)
      fun module hmem ↦ hmodules.visited (hperm.mem_iff.mp hmem)
  rw [applyMigrations]
  exact raiseIf_bind_eq_ok.mpr ⟨hsome, bind_eq_ok.mpr ⟨_, hrevisions,
    bind_eq_ok.mpr ⟨_, hloop, rfl⟩⟩⟩

/-! ### The order of a run -/

/-- What a module runs is what comes up for the first time at its place, when what is applied already
has been run in order. -/
theorem newlyRun_eq_fresh {versions done : List Text} {module : Migration} {revision : Text}
    (hmem : module ∈ modules) (hrevision : module.revision = some revision)
    (hnew : revision ∉ versions)
    (hrespects : Respects (Relation.TransGen (DependsOn modules)) versions done) :
    newlyRun (versions ++ done) module = fresh (versions ++ done) module.tasks := by
  rw [newlyRun]
  split
  next happlied =>
    rw [hrevision, Option.any_some, decide_eq_true_eq] at happlied
    have hdone : revision ∈ done := (List.mem_append.mp happlied).resolve_left hnew
    refine (fresh_eq_nil fun task htask ↦ ?_).symm
    rw [Migration.tasks, hrevision] at htask
    rcases List.mem_append.mp htask with htask | htask
    · exact hrespects.mem_of_needs hdone (.single ⟨module, hmem, hrevision, htask⟩)
    · rw [List.mem_singleton.mp htask]
      exact happlied
  next => rfl

/-- The loop runs what comes up for the first time, if one of the two is in order. -/
theorem allRun_eq_fresh {versions : List Text} {visited : List Migration} {done : List Text}
    (hvisited : ∀ module ∈ visited, module ∈ modules ∧
      ∃ revision, module.revision = some revision ∧ revision ∉ versions)
    (hdone : Respects (Relation.TransGen (DependsOn modules)) versions done)
    (horder : Respects (Relation.TransGen (DependsOn modules)) (versions ++ done)
        (allRun (versions ++ done) visited) ∨
      Respects (Relation.TransGen (DependsOn modules)) (versions ++ done)
        (fresh (versions ++ done) (visited.flatMap Migration.tasks))) :
    allRun (versions ++ done) visited =
      fresh (versions ++ done) (visited.flatMap Migration.tasks) := by
  induction visited generalizing done with
  | nil => rfl
  | cons module visited ih =>
    obtain ⟨⟨hmem, revision, hrevision, hnew⟩, hrest⟩ := List.forall_mem_cons.mp hvisited
    have hnewly := newlyRun_eq_fresh hmem hrevision hnew hdone
    rw [allRun, hnewly, List.flatMap_cons, fresh_append] at horder ⊢
    rw [respects_append, respects_append] at horder
    have hhead : Respects (Relation.TransGen (DependsOn modules)) (versions ++ done)
        (fresh (versions ++ done) module.tasks) := horder.elim And.left And.left
    rw [List.append_assoc versions] at horder ⊢
    exact congrArg _ (ih hrest (respects_append.mpr ⟨hdone, hhead⟩)
      (horder.imp And.right And.right))

/-- Modules that are applied are passed over. -/
theorem allRun_filter {versions applied : List Text} (visited : List Migration)
    (happlied : ∀ revision ∈ versions, revision ∈ applied) :
    allRun applied visited = allRun applied (visited.filter fun module ↦
      module.revision.all fun revision ↦ revision ∉ versions) := by
  induction visited generalizing applied with
  | nil => rfl
  | cons module visited ih =>
    have hmore : ∀ revision ∈ versions, revision ∈ applied ++ newlyRun applied module :=
      fun revision hmem ↦ List.mem_append_left _ (happlied revision hmem)
    by_cases hkept : (module.revision.all fun revision ↦ decide (revision ∉ versions)) = true
    · rw [List.filter_cons, if_pos hkept, allRun, allRun, ih hmore]
    · have hskip : newlyRun applied module = [] := by
        rw [newlyRun]
        refine if_pos ?_
        cases hrevision : module.revision with
        | none => simp [hrevision] at hkept
        | some revision =>
          rw [hrevision, Option.all_some, decide_eq_true_eq, not_not] at hkept
          simpa using happlied revision hkept
      rw [List.filter_cons, if_neg hkept, allRun, hskip, List.nil_append, List.append_nil]
      exact ih happlied

/-- What the loop runs is new, and each revision is run once. -/
theorem nodup_allRun (applied : List Text) (visited : List Migration) :
    (allRun applied visited).Nodup ∧ ∀ revision ∈ allRun applied visited, revision ∉ applied := by
  induction visited generalizing applied with
  | nil => exact ⟨List.nodup_nil, by simp [allRun]⟩
  | cons module visited ih =>
    obtain ⟨hnodup, hnew⟩ := ih (applied ++ newlyRun applied module)
    have hnewly : (newlyRun applied module).Nodup ∧
        ∀ revision ∈ newlyRun applied module, revision ∉ applied := by
      rw [newlyRun]
      split
      · exact ⟨List.nodup_nil, by simp⟩
      · exact ⟨nodup_fresh _ _, fun revision hmem ↦ (mem_fresh.mp hmem).2⟩
    rw [allRun]
    refine ⟨List.nodup_append.mpr ⟨hnewly.1, hnodup, ?_⟩, fun revision hmem ↦ ?_⟩
    · rintro revision hmem other hother rfl
      exact hnew revision hother (List.mem_append_right _ hmem)
    · rcases List.mem_append.mp hmem with hmem | hmem
      · exact hnewly.2 revision hmem
      · exact fun happlied ↦ hnew revision hmem (List.mem_append_left _ happlied)

/-- The loop runs revisions of modules and their dependencies, and in the end everything that it
visits is applied. -/
theorem mem_allRun {applied : List Text} {visited : List Migration} :
    (∀ revision ∈ allRun applied visited, revision ∈ visited.flatMap Migration.tasks) ∧
      ∀ module ∈ visited, ∀ revision, module.revision = some revision →
        revision ∈ applied ++ allRun applied visited := by
  induction visited generalizing applied with
  | nil => exact ⟨by simp [allRun], by simp⟩
  | cons module visited ih =>
    obtain ⟨honly, hall⟩ := @ih (applied ++ newlyRun applied module)
    rw [allRun]
    refine ⟨fun revision hmem ↦ ?_, fun other hother revision hrevision ↦ ?_⟩
    · rw [List.flatMap_cons, List.mem_append]
      refine (List.mem_append.mp hmem).imp (fun hmem ↦ ?_) (honly revision)
      rw [newlyRun] at hmem
      split at hmem
      · cases hmem
      · exact (mem_fresh.mp hmem).1
    · rw [← List.append_assoc]
      rcases List.mem_cons.mp hother with rfl | hother
      · refine List.mem_append_left _ ?_
        rw [newlyRun, hrevision, Option.any_some]
        by_cases happlied : revision ∈ applied
        · exact List.mem_append_left _ happlied
        · rw [if_neg (by simpa using happlied)]
          refine List.mem_append_right _ (mem_fresh.mpr ⟨?_, happlied⟩)
          rw [Migration.tasks, hrevision]
          exact List.mem_append_right _ List.mem_cons_self
      · exact hall other hother revision hrevision

end Modules

/-- Dependencies along which a rank falls have no cycle. -/
theorem acyclic_of_rank {modules : List Migration} (rank : Text → ℕ)
    (hfalls : ∀ module ∈ modules, ∀ revision ∈ module.revision,
      ∀ dependency ∈ module.downRevision, rank dependency < rank revision) (revision : Text) :
    ¬Relation.TransGen (DependsOn modules) revision revision := by
  have hdirect : ∀ {first second}, DependsOn modules first second → rank second < rank first := by
    rintro first second ⟨module, hmem, hrevision, hdependency⟩
    exact hfalls module hmem first hrevision second hdependency
  have hless : ∀ {last}, Relation.TransGen (DependsOn modules) revision last →
      rank last < rank revision := by
    intro last hdepends
    induction hdepends with
    | single hstep => exact hdirect hstep
    | tail _ hstep ih => exact (hdirect hstep).trans ih
  exact fun hcycle ↦ lt_irrefl _ (hless hcycle)

/-- Three migrations, each depending on the one that is one letter shorter, in files of given
names. -/
def chainOfThree (names : Text × Text × Text) : List Migration :=
  [{ fileName := names.1, revision := some (lit "a"), downRevision := [] },
    { fileName := names.2.1, revision := some (lit "aa"), downRevision := [lit "a"] },
    { fileName := names.2.2, revision := some (lit "aaa"), downRevision := [lit "aa"] }]

theorem wellFormed_chainOfThree (names : Text × Text × Text) : WellFormed (chainOfThree names) where
  nonempty := by simp [chainOfThree]
  named := by simp [chainOfThree]
  distinct := show [some (lit "a"), some (lit "aa"), some (lit "aaa")].Nodup by decide
  complete := by simp [chainOfThree]
  acyclic := acyclic_of_rank List.length (by simp [chainOfThree, lit])

end DocStore
