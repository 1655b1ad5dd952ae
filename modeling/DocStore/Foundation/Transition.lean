import Mathlib.Data.Nat.Notation
import Mathlib.Logic.Relation

/-!
# Runs of a transition system

A transition system is a partial step function from a state and an action to the next state.
`Steps` relates a state to every state that a run reaches whose actions are all allowed where they
are taken; a run without a restriction allows every action. `Steps.invariant` is the one induction
over runs: what holds initially and is kept by every allowed step holds in every state reached.
-/

set_option autoImplicit false
set_option relaxedAutoImplicit false

namespace DocStore.Foundation

open Relation

variable {σ α : Type*}

/-- The states that a run reaches, each of its actions being allowed in the state it is taken in. -/
def Steps (step : σ → α → Option σ) (allowed : σ → α → Prop) : σ → σ → Prop :=
  ReflTransGen fun state next ↦ ∃ action, allowed state action ∧ step state action = some next

/-- A step that refuses the actions that are not allowed. -/
def guarded (step : σ → α → Option σ) (allowed : σ → α → Prop)
    [∀ state action, Decidable (allowed state action)] (state : σ) (action : α) : Option σ :=
  if allowed state action then step state action else none

/-- The state that a list of actions leads to, when every one of them is possible. -/
def replay (step : σ → α → Option σ) : σ → List α → Option σ
  | state, [] => some state
  | state, action :: actions => (step state action).bind fun next ↦ replay step next actions

/-- Two parties are numbered by `0` and `1`. -/
instance neZero_two : @NeZero ℕ Zero.ofOfNat0 2 := ⟨by decide⟩

variable {step : σ → α → Option σ} {allowed : σ → α → Prop}

theorem Steps.refl (state : σ) : Steps step allowed state state :=
  ReflTransGen.refl

theorem Steps.single {state next : σ} (action : α) (hallowed : allowed state action)
    (hstep : step state action = some next) : Steps step allowed state next :=
  ReflTransGen.single ⟨action, hallowed, hstep⟩

theorem Steps.trans {first second third : σ} (hfirst : Steps step allowed first second)
    (hsecond : Steps step allowed second third) : Steps step allowed first third :=
  ReflTransGen.trans hfirst hsecond

/-- What holds initially and is kept by every allowed step holds in every state reached. -/
theorem Steps.invariant {initial final : σ} (hrun : Steps step allowed initial final)
    {motive : σ → Prop} (hinitial : motive initial)
    (hkeep : ∀ state action next, motive state → allowed state action →
      step state action = some next → motive next) : motive final := by
  induction hrun with
  | refl => exact hinitial
  | tail _ hlast ih =>
    obtain ⟨action, hallowed, hstep⟩ := hlast
    exact hkeep _ action _ ih hallowed hstep

/-- Fewer runs are possible when less is allowed. -/
theorem Steps.mono {wider : σ → α → Prop} (hmono : ∀ state action, allowed state action →
    wider state action) {initial final : σ} (hrun : Steps step allowed initial final) :
    Steps step wider initial final := by
  induction hrun with
  | refl => exact Steps.refl _
  | tail _ hlast ih =>
    obtain ⟨action, hallowed, hstep⟩ := hlast
    exact ih.trans (Steps.single action (hmono _ _ hallowed) hstep)

/-- A replayed list of actions that are all allowed is a run. -/
theorem steps_of_replay [∀ state action, Decidable (allowed state action)] {initial : σ}
    {actions : List α} (hpossible : (replay (guarded step allowed) initial actions).isSome = true) :
    Steps step allowed initial ((replay (guarded step allowed) initial actions).getD initial) := by
  obtain ⟨final, hfinal⟩ := Option.isSome_iff_exists.mp hpossible
  rw [hfinal, Option.getD_some]
  clear hpossible
  induction actions generalizing initial with
  | nil =>
    cases hfinal
    exact Steps.refl _
  | cons action actions ih =>
    obtain ⟨next, hnext, hrest⟩ := Option.bind_eq_some_iff.mp hfinal
    simp only [guarded, Option.ite_none_right_eq_some] at hnext
    exact (Steps.single action hnext.1 hnext.2).trans (ih hrest)

/-- A replayed list of actions that are allowed in every state is a run. -/
theorem steps_of_replay_of_forall {initial final : σ} {actions : List α}
    (hallowed : ∀ action ∈ actions, ∀ state, allowed state action)
    (hfinal : replay step initial actions = some final) : Steps step allowed initial final := by
  induction actions generalizing initial with
  | nil =>
    cases hfinal
    exact Steps.refl _
  | cons action actions ih =>
    obtain ⟨next, hnext, hrest⟩ := Option.bind_eq_some_iff.mp hfinal
    rw [List.forall_mem_cons] at hallowed
    exact (Steps.single action (hallowed.1 initial) hnext).trans (ih hallowed.2 hrest)

end DocStore.Foundation
