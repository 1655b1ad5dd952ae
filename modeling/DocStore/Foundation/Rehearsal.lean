import Mathlib.Logic.Function.Basic

/-!
# Rehearsals

A loop that may raise handles some items one after the other and collects a report of each. A
rehearsal of it is a second loop that skips some of the work and is meant to answer the same.

`Rehearses` says how one item compares. Where the rehearsal fails, the performance fails in the same
way, and where it succeeds, the performance reports the same, unless something stands in the way of
the item that the rehearsal does not look at. So both answer alike exactly when nothing does, as far
as the rehearsal gets (`Rehearses.answer_eq_iff`).
-/

set_option autoImplicit false
set_option relaxedAutoImplicit false

namespace DocStore.Foundation

variable {α β σ τ ε : Type*}

/-- Handles some items one after the other. -/
def handleAll (handle : α → σ → Except ε (β × σ)) : List α → σ → Except ε (List β × σ)
  | [], state => .ok ([], state)
  | item :: items, state =>
    match handle item state with
    | .error failure => .error failure
    | .ok (report, next) =>
      match handleAll handle items next with
      | .error failure => .error failure
      | .ok (reports, last) => .ok (report :: reports, last)

/-- What a computation answers, without the state that it leaves. -/
def answer (computation : Except ε (β × σ)) : Except ε β := computation.map Prod.fst

/-- A computation inside a transaction, which a failure rolls back. -/
def transaction (body : σ → Except ε (β × σ)) (state : σ) : Except ε β × σ :=
  match body state with
  | .ok (result, next) => (.ok result, next)
  | .error failure => (.error failure, state)

/-! ### Transactions -/

section Transactions

variable {body : σ → Except ε (β × σ)} {state : σ}

theorem transaction_fst : (transaction body state).1 = answer (body state) := by
  unfold transaction answer
  cases body state <;> rfl

/-- A transaction that fails leaves the state as it was. -/
theorem transaction_snd_of_error {failure : ε}
    (hfails : (transaction body state).1 = .error failure) : (transaction body state).2 = state := by
  unfold transaction at hfails ⊢
  cases hbody : body state with
  | error raised => rfl
  | ok result =>
    rw [hbody] at hfails
    cases hfails

/-- A transaction leaves the state as it was exactly when what it commits is no change. -/
theorem transaction_snd_eq_self : (transaction body state).2 = state ↔
    ∀ result next, body state = .ok (result, next) → next = state := by
  unfold transaction
  cases body state with
  | error failure => simp
  | ok result =>
    obtain ⟨report, next⟩ := result
    simp

end Transactions

/-! ### Loops -/

section Loops

variable {handle : α → σ → Except ε (β × σ)} {item : α} {items : List α} {state : σ}

theorem handleAll_cons_of_error {failure : ε} (hitem : handle item state = .error failure) :
    handleAll handle (item :: items) state = .error failure := by
  rw [handleAll, hitem]

theorem handleAll_cons_of_ok {report : β} {next : σ}
    (hitem : handle item state = .ok (report, next)) :
    handleAll handle (item :: items) state =
      (handleAll handle items next).map (Prod.map (report :: ·) id) := by
  rw [handleAll, hitem]
  dsimp only
  cases handleAll handle items next <;> rfl

theorem handleAll_cons_eq_ok {reports : List β} {last : σ} :
    handleAll handle (item :: items) state = .ok (reports, last) ↔
      ∃ report next rest, handle item state = .ok (report, next) ∧
        handleAll handle items next = .ok (rest, last) ∧ reports = report :: rest := by
  rw [handleAll]
  cases hitem : handle item state with
  | error failure => simp
  | ok result =>
    obtain ⟨report, next⟩ := result
    dsimp only
    cases hrest : handleAll handle items next with
    | error failure =>
      refine iff_of_false (by simp) ?_
      rintro ⟨_, _, rest, hequal, hitems, -⟩
      cases hequal
      exact absurd (hrest.symm.trans hitems) (by simp)
    | ok rest =>
      obtain ⟨others, final⟩ := rest
      constructor
      · intro hequal
        cases hequal
        exact ⟨report, next, others, rfl, hrest, rfl⟩
      · rintro ⟨_, _, found, hequal, hitems, rfl⟩
        cases hequal
        cases hrest.symm.trans hitems
        rfl

/-- Two lists behind each other are handled in turn. -/
theorem handleAll_append_eq_ok {later : List α} {reports : List β} {last : σ} :
    handleAll handle (items ++ later) state = .ok (reports, last) ↔
      ∃ first next second, handleAll handle items state = .ok (first, next) ∧
        handleAll handle later next = .ok (second, last) ∧ reports = first ++ second := by
  induction items generalizing state reports with
  | nil =>
    constructor
    · intro hlater
      exact ⟨[], state, reports, rfl, hlater, rfl⟩
    · rintro ⟨first, next, second, hfirst, hsecond, rfl⟩
      cases hfirst
      exact hsecond
  | cons item items ih =>
    rw [List.cons_append, handleAll_cons_eq_ok]
    constructor
    · rintro ⟨report, next, rest, hitem, hrest, rfl⟩
      obtain ⟨first, middle, second, hfirst, hsecond, rfl⟩ := ih.mp hrest
      exact ⟨report :: first, middle, second,
        handleAll_cons_eq_ok.mpr ⟨report, next, first, hitem, hfirst, rfl⟩, hsecond, rfl⟩
    · rintro ⟨first, middle, second, hfirst, hsecond, rfl⟩
      obtain ⟨report, next, rest, hitem, hrest, rfl⟩ := handleAll_cons_eq_ok.mp hfirst
      exact ⟨report, next, rest ++ second, hitem, ih.mpr ⟨rest, middle, second, hrest, hsecond, rfl⟩,
        rfl⟩

/-- What every item keeps is kept by the loop. -/
theorem handleAll_invariant {motive : σ → Prop} {reports : List β} {last : σ}
    (hkeep : ∀ item ∈ items, ∀ state report next, motive state →
      handle item state = .ok (report, next) → motive next)
    (hstate : motive state) (hall : handleAll handle items state = .ok (reports, last)) :
    motive last := by
  induction items generalizing state reports with
  | nil =>
    cases hall
    exact hstate
  | cons item items ih =>
    obtain ⟨report, next, rest, hitem, hrest, -⟩ := handleAll_cons_eq_ok.mp hall
    exact ih (fun other hother ↦ hkeep other (List.mem_cons_of_mem _ hother))
      (hkeep item List.mem_cons_self state report next hstate hitem) hrest

/-- Behind an item that is handled, the loop answers what the rest of it answers. -/
theorem answer_handleAll_cons {report : β} {next : σ}
    (hitem : handle item state = .ok (report, next)) :
    answer (handleAll handle (item :: items) state) =
      (answer (handleAll handle items next)).map (report :: ·) := by
  rw [handleAll_cons_of_ok hitem]
  cases handleAll handle items next <;> rfl

/-- A failure of a loop is one of an item. -/
theorem exists_of_handleAll_eq_error {failure : ε}
    (hfails : handleAll handle items state = .error failure) :
    ∃ item before, handle item before = .error failure := by
  induction items generalizing state with
  | nil => cases hfails
  | cons item items ih =>
    rw [handleAll] at hfails
    cases hitem : handle item state with
    | error raised =>
      rw [hitem] at hfails
      cases hfails
      exact ⟨item, state, hitem⟩
    | ok result =>
      obtain ⟨report, next⟩ := result
      rw [hitem] at hfails
      dsimp only at hfails
      cases hrest : handleAll handle items next with
      | error raised =>
        rw [hrest] at hfails
        cases hfails
        exact ih hrest
      | ok rest =>
        rw [hrest] at hfails
        cases hfails

/-- A loop whose reports are seen through a view. -/
theorem handleAll_map {γ : Type*} (view : β → γ) (items : List α) (state : σ) :
    handleAll (fun item state ↦ (handle item state).map (Prod.map view id)) items state =
      (handleAll handle items state).map (Prod.map (List.map view) id) := by
  induction items generalizing state with
  | nil => rfl
  | cons item items ih =>
    cases hitem : handle item state with
    | error failure =>
      rw [handleAll_cons_of_error hitem, handleAll_cons_of_error (by rw [hitem]; rfl)]
      rfl
    | ok result =>
      obtain ⟨report, next⟩ := result
      have hview : (handle item state).map (Prod.map view id) = .ok (view report, next) := by
        rw [hitem]
        rfl
      rw [handleAll_cons_of_ok hview, handleAll_cons_of_ok hitem, ih]
      cases handleAll handle items next <;> rfl

end Loops

/-! ### Computations that go alike -/

/-- Two computations raise the same failure, or answer the same and leave related states. -/
def Alike (related : σ → τ → Prop) (first : Except ε (β × σ)) (second : Except ε (β × τ)) : Prop :=
  (∃ failure, first = .error failure ∧ second = .error failure) ∨
    ∃ result next after, first = .ok (result, next) ∧ second = .ok (result, after) ∧
      related next after

/-- Loops go alike when their items do. -/
theorem alike_handleAll {related : σ → τ → Prop} {first : α → σ → Except ε (β × σ)}
    {second : α → τ → Except ε (β × τ)}
    (halike : ∀ item state other, related state other →
      Alike related (first item state) (second item other))
    (items : List α) {state : σ} {other : τ} (hrelated : related state other) :
    Alike related (handleAll first items state) (handleAll second items other) := by
  induction items generalizing state other with
  | nil => exact .inr ⟨[], state, other, rfl, rfl, hrelated⟩
  | cons item items ih =>
    rcases halike item state other hrelated with
      ⟨failure, hfirst, hsecond⟩ | ⟨report, next, after, hfirst, hsecond, hnext⟩
    · exact .inl ⟨failure, handleAll_cons_of_error hfirst, handleAll_cons_of_error hsecond⟩
    · rw [handleAll, handleAll, hfirst, hsecond]
      dsimp only
      rcases ih hnext with ⟨failure, hrest, hothers⟩ | ⟨reports, last, final, hrest, hothers, hlast⟩
      · rw [hrest, hothers]
        exact .inl ⟨failure, rfl, rfl⟩
      · rw [hrest, hothers]
        exact .inr ⟨report :: reports, last, final, rfl, rfl, hlast⟩

/-! ### A rehearsal and the performance -/

/-- How a rehearsal of an item compares with its performance, on states that are related. An item
that does not fit is refused by the performance, with a failure that no rehearsal raises. -/
structure Rehearses (related : σ → τ → Prop) (fits : α → Prop)
    (rehearse : α → σ → Except ε (β × σ)) (perform : α → τ → Except ε (β × τ)) : Prop where
  fails : ∀ {state other item failure}, related state other →
    rehearse item state = .error failure → perform item other = .error failure
  performs : ∀ {state other item report next}, related state other →
    rehearse item state = .ok (report, next) → fits item →
      ∃ after, perform item other = .ok (report, after) ∧ related next after
  refuses : ∀ {state other item report next}, related state other →
    rehearse item state = .ok (report, next) → ¬ fits item →
      ∃ failure, perform item other = .error failure ∧
        ∀ item state, rehearse item state ≠ .error failure

/-- A rehearsal and the performance answer alike exactly when all items fit that the rehearsal
gets past. -/
theorem Rehearses.answer_eq_iff {related : σ → τ → Prop} {fits : α → Prop}
    {rehearse : α → σ → Except ε (β × σ)} {perform : α → τ → Except ε (β × τ)}
    (hrehearses : Rehearses related fits rehearse perform) {items : List α} {state : σ} {other : τ}
    (hrelated : related state other) :
    answer (handleAll rehearse items state) = answer (handleAll perform items other) ↔
      ∀ count result, handleAll rehearse (items.take count) state = .ok result →
        ∀ item ∈ items.take count, fits item := by
  induction items generalizing state other with
  | nil => simp [answer, handleAll, Except.map]
  | cons item items ih =>
    cases hitem : rehearse item state with
    | error failure =>
      rw [handleAll_cons_of_error hitem, handleAll_cons_of_error (hrehearses.fails hrelated hitem)]
      refine iff_of_true rfl fun count result hgets ↦ ?_
      cases count with
      | zero => simp
      | succ count =>
        rw [List.take_succ_cons, handleAll_cons_of_error hitem] at hgets
        cases hgets
    | ok result =>
      obtain ⟨report, next⟩ := result
      by_cases hfits : fits item
      · obtain ⟨after, hperformed, hnext⟩ := hrehearses.performs hrelated hitem hfits
        rw [answer_handleAll_cons hitem, answer_handleAll_cons hperformed]
        have hinjective : Function.Injective
            fun computation : Except ε (List β) ↦ computation.map (report :: ·) := by
          rintro (failure | reports) (raised | rest) hequal <;> cases hequal <;> rfl
        rw [hinjective.eq_iff, ih hnext]
        constructor
        · rintro hall count ⟨reports, last⟩ hgets
          cases count with
          | zero => simp
          | succ count =>
            rw [List.take_succ_cons] at hgets ⊢
            obtain ⟨_, _, rest, hequal, hrest, -⟩ := handleAll_cons_eq_ok.mp hgets
            cases hitem.symm.trans hequal
            exact List.forall_mem_cons.mpr ⟨hfits, hall count _ hrest⟩
        · rintro hall count ⟨reports, last⟩ hgets
          have hcount := hall (count + 1) (report :: reports, last)
          rw [List.take_succ_cons, List.forall_mem_cons] at hcount
          exact (hcount (handleAll_cons_eq_ok.mpr ⟨_, _, _, hitem, hgets, rfl⟩)).2
      · obtain ⟨failure, hrefused, hnever⟩ := hrehearses.refuses hrelated hitem hfits
        refine iff_of_false ?_ fun hall ↦ ?_
        · rw [handleAll_cons_of_error hrefused]
          intro hequal
          cases hloop : handleAll rehearse (item :: items) state with
          | error raised =>
            rw [hloop] at hequal
            cases hequal
            obtain ⟨earlier, before, hraised⟩ := exists_of_handleAll_eq_error hloop
            exact hnever earlier before hraised
          | ok reports =>
            rw [hloop] at hequal
            cases hequal
        · have hfirst := hall 1 ([report], next)
          rw [List.take_succ_cons, List.take_zero, List.forall_mem_singleton] at hfirst
          exact hfits (hfirst (handleAll_cons_eq_ok.mpr ⟨report, next, [], hitem, rfl, rfl⟩))

end DocStore.Foundation
