import Mathlib.Algebra.Order.Ring.Nat

/-!
# Loops

A `while True` loop takes turns: a turn leads to the next state or stops with a result. `loop` takes
at most as many turns as its fuel allows, and the loop ends when some fuel is enough. A measure
that every turn makes smaller shows that a loop ends (`ends_of_measure`); a condition under which
every turn leads to another state with the condition shows that it does not
(`not_ends_of_invariant`). What a result says is shown by an invariant (`Ends.result`).
-/

set_option autoImplicit false
set_option relaxedAutoImplicit false

namespace DocStore.Foundation

variable {σ ρ : Type*}

/-- What a turn of a loop comes to. -/
inductive Turn (σ ρ : Type*) where
  | next (state : σ)
  | stop (result : ρ)

/-- The result of a loop, when it stops within a number of turns. -/
def loop (turn : σ → Turn σ ρ) : ℕ → σ → Option ρ
  | 0, _ => none
  | fuel + 1, state =>
    match turn state with
    | .next next => loop turn fuel next
    | .stop result => some result

/-- A loop ends with a result. -/
def EndsWith (turn : σ → Turn σ ρ) (state : σ) (result : ρ) : Prop :=
  ∃ fuel, loop turn fuel state = some result

/-- A loop ends after finitely many turns. -/
def Ends (turn : σ → Turn σ ρ) (state : σ) : Prop := ∃ result, EndsWith turn state result

variable {turn : σ → Turn σ ρ} {state next : σ} {result : ρ}

theorem endsWith_of_stop (hturn : turn state = .stop result) : EndsWith turn state result :=
  ⟨1, by simp only [loop, hturn]⟩

theorem endsWith_iff_of_next (hturn : turn state = .next next) :
    EndsWith turn state result ↔ EndsWith turn next result := by
  constructor
  · rintro ⟨fuel, hfuel⟩
    cases fuel with
    | zero => cases hfuel
    | succ fuel => exact ⟨fuel, by simpa only [loop, hturn] using hfuel⟩
  · rintro ⟨fuel, hfuel⟩
    exact ⟨fuel + 1, by simpa only [loop, hturn] using hfuel⟩

theorem ends_iff_of_next (hturn : turn state = .next next) : Ends turn state ↔ Ends turn next :=
  exists_congr fun _ ↦ endsWith_iff_of_next hturn

/-- A loop has at most one result. -/
theorem EndsWith.unique {other : ρ} (hresult : EndsWith turn state result)
    (hother : EndsWith turn state other) : result = other := by
  obtain ⟨fuel, hfuel⟩ := hresult
  induction fuel generalizing state with
  | zero => cases hfuel
  | succ fuel ih =>
    cases hturn : turn state with
    | next next =>
      rw [loop, hturn] at hfuel
      exact ih ((endsWith_iff_of_next hturn).mp hother) hfuel
    | stop stopped =>
      obtain ⟨_ | otherFuel, hotherFuel⟩ := hother
      · cases hotherFuel
      · simp only [loop, hturn, Option.some.injEq] at hfuel hotherFuel
        exact hfuel.symm.trans hotherFuel

/-- What an invariant and a last turn say of the result. -/
theorem EndsWith.post (inv : σ → Prop) (post : ρ → Prop)
    (hresult : EndsWith turn state result) (hinitial : inv state)
    (hnext : ∀ state next, inv state → turn state = .next next → inv next)
    (hstop : ∀ state result, inv state → turn state = .stop result → post result) :
    post result := by
  obtain ⟨fuel, hfuel⟩ := hresult
  induction fuel generalizing state with
  | zero => cases hfuel
  | succ fuel ih =>
    cases hturn : turn state with
    | next next =>
      rw [loop, hturn] at hfuel
      exact ih (hnext _ _ hinitial hturn) hfuel
    | stop stopped =>
      simp only [loop, hturn, Option.some.injEq] at hfuel
      exact hfuel ▸ hstop _ _ hinitial hturn

/-- A loop ends when every turn makes a measure smaller. -/
theorem ends_of_measure (inv : σ → Prop) (measure : σ → ℕ)
    (hnext : ∀ state next, inv state → turn state = .next next →
      inv next ∧ measure next < measure state) (hinitial : inv state) : Ends turn state := by
  induction hsize : measure state using Nat.strong_induction_on generalizing state with
  | _ size ih =>
    cases hturn : turn state with
    | next next =>
      obtain ⟨hinv, hless⟩ := hnext _ _ hinitial hturn
      exact (ends_iff_of_next hturn).mpr (ih _ (hsize ▸ hless) hinv rfl)
    | stop result => exact ⟨result, endsWith_of_stop hturn⟩

/-- A loop does not end when every turn leads to another state with the same condition. -/
theorem not_ends_of_invariant (inv : σ → Prop)
    (hnext : ∀ state, inv state → ∃ next, turn state = .next next ∧ inv next)
    (hinitial : inv state) : ¬ Ends turn state := by
  rintro ⟨result, hresult⟩
  refine hresult.post inv (fun _ ↦ False) hinitial (fun state next hinv hturn ↦ ?_)
    fun state result hinv hturn ↦ ?_
  · obtain ⟨other, hother, hkept⟩ := hnext state hinv
    rw [hturn, Turn.next.injEq] at hother
    exact hother ▸ hkept
  · obtain ⟨other, hother, _⟩ := hnext state hinv
    rw [hturn] at hother
    cases hother

end DocStore.Foundation
