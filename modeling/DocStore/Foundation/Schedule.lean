import Mathlib.Data.List.Basic
import Mathlib.Data.List.Nodup

/-!
# Tasks that are run once

A list of tasks is run from the front, and a task that was run already is passed over. `fresh` is
what is run, and `Respects` says that a run has every task behind what it needs. Whether it does can
be read off the list: everything that the first occurrence of a task needs has to be in front of it
(`respects_fresh_iff`).
-/

set_option autoImplicit false
set_option relaxedAutoImplicit false

namespace DocStore.Foundation

variable {τ : Type*} [DecidableEq τ]

/-- What is run of a list of tasks, when some are done: each task at its first occurrence. -/
def fresh : List τ → List τ → List τ
  | _, [] => []
  | done, task :: tasks =>
    if task ∈ done then fresh done tasks else task :: fresh (done ++ [task]) tasks

/-- A run in which everything that a task needs is done before it. -/
def Respects (needs : τ → τ → Prop) : List τ → List τ → Prop
  | _, [] => True
  | done, task :: run =>
    (∀ needed, needs task needed → needed ∈ done) ∧ Respects needs (done ++ [task]) run

variable {needs : τ → τ → Prop} {done first second run tasks : List τ} {task : τ}

@[simp] theorem fresh_nil (done : List τ) : fresh done [] = [] := rfl

theorem fresh_cons_of_mem (hdone : task ∈ done) :
    fresh done (task :: tasks) = fresh done tasks := if_pos hdone

theorem fresh_cons_of_not_mem (hnew : task ∉ done) :
    fresh done (task :: tasks) = task :: fresh (done ++ [task]) tasks := if_neg hnew

/-- Only what is done counts, not its order. -/
theorem fresh_congr {others : List τ} (hsame : ∀ task, task ∈ done ↔ task ∈ others) :
    fresh done tasks = fresh others tasks := by
  induction tasks generalizing done others with
  | nil => rfl
  | cons task tasks ih =>
    by_cases hdone : task ∈ done
    · rw [fresh_cons_of_mem hdone, fresh_cons_of_mem ((hsame task).mp hdone), ih hsame]
    · rw [fresh_cons_of_not_mem hdone, fresh_cons_of_not_mem (mt (hsame task).mpr hdone)]
      refine congrArg (List.cons task) (ih fun other ↦ ?_)
      rw [List.mem_append, List.mem_append, hsame]

theorem mem_fresh : task ∈ fresh done tasks ↔ task ∈ tasks ∧ task ∉ done := by
  induction tasks generalizing done with
  | nil => simp
  | cons other tasks ih =>
    by_cases hdone : other ∈ done
    · rw [fresh_cons_of_mem hdone, ih, List.mem_cons]
      refine and_congr_left fun hnew ↦ (or_iff_right ?_).symm
      rintro rfl
      exact hnew hdone
    · rw [fresh_cons_of_not_mem hdone, List.mem_cons, ih, List.mem_cons, List.mem_append,
        List.mem_singleton]
      by_cases hsame : task = other
      · simp [hsame, hdone]
      · simp [hsame]

theorem nodup_fresh (done tasks : List τ) : (fresh done tasks).Nodup := by
  induction tasks generalizing done with
  | nil => exact List.nodup_nil
  | cons task tasks ih =>
    by_cases hdone : task ∈ done
    · rw [fresh_cons_of_mem hdone]
      exact ih done
    · rw [fresh_cons_of_not_mem hdone]
      refine List.nodup_cons.mpr ⟨fun hmem ↦ (mem_fresh.mp hmem).2 ?_, ih _⟩
      exact List.mem_append_right _ List.mem_cons_self

theorem fresh_eq_nil (hdone : ∀ task ∈ tasks, task ∈ done) : fresh done tasks = [] :=
  List.eq_nil_iff_forall_not_mem.mpr fun task hmem ↦
    (mem_fresh.mp hmem).2 (hdone task (mem_fresh.mp hmem).1)

theorem fresh_append (done first second : List τ) : fresh done (first ++ second) =
    fresh done first ++ fresh (done ++ fresh done first) second := by
  induction first generalizing done with
  | nil => simp
  | cons task first ih =>
    by_cases hdone : task ∈ done
    · rw [List.cons_append, fresh_cons_of_mem hdone, fresh_cons_of_mem hdone, ih]
    · rw [List.cons_append, fresh_cons_of_not_mem hdone, fresh_cons_of_not_mem hdone, ih,
        List.cons_append, List.append_assoc, List.singleton_append]

omit [DecidableEq τ] in
theorem respects_append : Respects needs done (first ++ second) ↔
    Respects needs done first ∧ Respects needs (done ++ first) second := by
  induction first generalizing done with
  | nil => simp [Respects]
  | cons task first ih =>
    rw [List.cons_append, Respects, Respects, ih, and_assoc, List.append_assoc,
      List.singleton_append]

omit [DecidableEq τ] in
/-- A run respects what is needed when at every task all of it is done or in front. -/
theorem respects_iff : Respects needs done run ↔ ∀ earlier task later,
    run = earlier ++ task :: later → ∀ needed, needs task needed → needed ∈ done ++ earlier := by
  induction run generalizing done with
  | nil =>
    refine iff_of_true trivial fun earlier task later hrun ↦ ?_
    simp at hrun
  | cons head run ih =>
    rw [Respects, ih]
    constructor
    · rintro ⟨hhead, hrest⟩ earlier task later hrun needed hneeds
      cases earlier with
      | nil =>
        obtain ⟨rfl, rfl⟩ := List.cons.inj hrun
        rw [List.append_nil]
        exact hhead needed hneeds
      | cons other earlier =>
        obtain ⟨rfl, rfl⟩ := List.cons.inj hrun
        have hmem := hrest earlier task later rfl needed hneeds
        rwa [List.append_assoc] at hmem
    · intro hall
      refine ⟨fun needed hneeds ↦ ?_, fun earlier task later hrun needed hneeds ↦ ?_⟩
      · have hmem := hall [] head run rfl needed hneeds
        rwa [List.append_nil] at hmem
      · have hmem := hall (head :: earlier) task later (by rw [hrun, List.cons_append]) needed hneeds
        rwa [List.append_assoc]

omit [DecidableEq τ] in
/-- What a task of a respectful run needs is done in the end. -/
theorem Respects.mem_of_needs (hrespects : Respects needs done run) (htask : task ∈ run)
    {needed : τ} (hneeds : needs task needed) : needed ∈ done ++ run := by
  obtain ⟨earlier, later, rfl⟩ := List.append_of_mem htask
  have hmem := respects_iff.mp hrespects earlier task later rfl needed hneeds
  rw [← List.append_assoc]
  exact List.mem_append_left _ hmem

/-- **The list decides**: what is run respects what is needed exactly when everything that the first
occurrence of a task needs is in front of it. -/
theorem respects_fresh_iff : Respects needs done (fresh done tasks) ↔
    ∀ front task back, tasks = front ++ task :: back → task ∉ done ++ front →
      ∀ needed, needs task needed → needed ∈ done ++ front := by
  induction tasks generalizing done with
  | nil =>
    refine iff_of_true trivial fun front task back htasks ↦ ?_
    simp at htasks
  | cons head tasks ih =>
    have hsplit : (∀ front task back, head :: tasks = front ++ task :: back →
        task ∉ done ++ front → ∀ needed, needs task needed → needed ∈ done ++ front) ↔
          (head ∉ done → ∀ needed, needs head needed → needed ∈ done) ∧
          ∀ front task back, tasks = front ++ task :: back → task ∉ done ++ [head] ++ front →
            ∀ needed, needs task needed → needed ∈ done ++ [head] ++ front := by
      constructor
      · intro hall
        refine ⟨fun hnew ↦ ?_, fun front task back htasks hnew ↦ ?_⟩
        · have hhead := hall [] head tasks rfl
          rw [List.append_nil] at hhead
          exact hhead hnew
        · rw [List.append_assoc] at hnew ⊢
          exact hall (head :: front) task back (by rw [htasks, List.cons_append]) hnew
      · rintro ⟨hhead, hrest⟩ front task back htasks hnew
        cases front with
        | nil =>
          obtain ⟨rfl, rfl⟩ := List.cons.inj htasks
          rw [List.append_nil] at hnew ⊢
          exact hhead hnew
        | cons other front =>
          obtain ⟨rfl, rfl⟩ := List.cons.inj htasks
          have htask := hrest front task back rfl
          rw [List.append_assoc] at htask
          exact htask hnew
    rw [hsplit]
    by_cases hdone : head ∈ done
    · rw [fresh_cons_of_mem hdone, ih]
      have hsame : ∀ front other, other ∈ done ++ [head] ++ front ↔ other ∈ done ++ front := by
        intro front other
        simp only [List.mem_append, List.mem_singleton]
        refine or_congr_left (or_iff_left_of_imp ?_)
        rintro rfl
        exact hdone
      simp only [hsame]
      exact (and_iff_right fun hnew ↦ absurd hdone hnew).symm
    · rw [fresh_cons_of_not_mem hdone, Respects, ih]
      exact and_congr_left fun _ ↦ (imp_iff_right hdone).symm

end DocStore.Foundation
