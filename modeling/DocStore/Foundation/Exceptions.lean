import Mathlib.Data.List.Basic
import Mathlib.Logic.Basic

/-!
# Exceptions and the state they leave

A routine changes a state and returns or raises, and what it has changed stays either way. A step
that leaves the state alone can only end the routine early, so a routine that has to end in a good
state, and is not in one yet, depends on every such step that is not guarded (`endsIn_outcome_bind`).

The clauses behind a `try` are tried in their order: `respond_eq_none_iff` says which exceptions
pass all of them.
-/

set_option autoImplicit false
set_option relaxedAutoImplicit false

namespace DocStore.Foundation

variable {σ ε κ α β : Type}

/-! ### Routines -/

/-- A computation that changes a state and returns or raises. -/
def Routine (σ ε α : Type) : Type := σ → Except ε α × σ

namespace Routine

instance : Monad (Routine σ ε) where
  pure value := fun state ↦ (.ok value, state)
  bind routine next := fun state ↦
    match routine state with
    | (.ok value, after) => next value after
    | (.error raised, after) => (.error raised, after)

/-- A step that leaves the state alone. -/
def outcome (result : Except ε α) : Routine σ ε α := fun state ↦ (result, state)

/-- A step that changes the state and cannot raise. -/
def update (change : σ → σ) : Routine σ ε Unit := fun state ↦ (.ok (), change state)

/-- A routine leaves a good state, whether it returns or raises. -/
def EndsIn (good : σ → Prop) (routine : Routine σ ε α) (state : σ) : Prop := good (routine state).2

variable {good : σ → Prop} {state : σ}

@[simp] theorem endsIn_pure {value : α} :
    EndsIn good (pure value : Routine σ ε α) state ↔ good state := Iff.rfl

@[simp] theorem endsIn_outcome {result : Except ε α} :
    EndsIn good (outcome result : Routine σ ε α) state ↔ good state := Iff.rfl

theorem endsIn_update_bind {change : σ → σ} {next : Unit → Routine σ ε α} :
    EndsIn good (update change >>= next) state ↔ EndsIn good (next ()) (change state) := Iff.rfl

/-- Behind a step that returns, the next routine decides. -/
theorem endsIn_bind_of_ok {result : Except ε α} {value : α} {next : α → Routine σ ε β}
    (hresult : result = .ok value) :
    EndsIn good (outcome result >>= next) state ↔ EndsIn good (next value) state := by
  subst hresult
  rfl

/-- A step that raises leaves the state as it is. -/
theorem endsIn_bind_of_error {result : Except ε α} {raised : ε} {next : α → Routine σ ε β}
    (hresult : result = .error raised) :
    EndsIn good (outcome result >>= next) state ↔ good state := by
  subst hresult
  rfl

/-- As long as the state is not good, a step must return for the routine to end in a good one. -/
theorem endsIn_outcome_bind {result : Except ε α} {next : α → Routine σ ε β}
    (hstate : ¬good state) :
    EndsIn good (outcome result >>= next) state ↔
      ∃ value, result = .ok value ∧ EndsIn good (next value) state := by
  cases hresult : result with
  | error raised => simpa [endsIn_bind_of_error] using hstate
  | ok value => simp [endsIn_bind_of_ok]

/-- Behind a change to a good state, steps that leave the state alone do not matter. -/
theorem endsIn_update_outcome {change : σ → σ} {result : Except ε α} {value : β}
    (hgood : good (change state)) :
    EndsIn good
      ((update change >>= fun _ ↦ outcome result >>= fun _ ↦ pure value) : Routine σ ε β) state := by
  rw [endsIn_update_bind]
  cases hresult : result with
  | error raised => exact (endsIn_bind_of_error rfl).mpr hgood
  | ok found => exact (endsIn_bind_of_ok rfl).mpr hgood

end Routine

/-! ### Handlers -/

/-- An `except` clause: the classes that it names, and what it does with an exception. -/
structure Handler (κ ε β : Type) where
  classes : List κ
  respond : ε → β

section Handlers

variable (isInstance : ε → κ → Bool)

/-- The clauses behind a `try`: the first that names a class of the exception takes it. -/
def respond (clauses : List (Handler κ ε β)) (raised : ε) : Option β :=
  (clauses.find? fun clause ↦ clause.classes.any (isInstance raised)).map fun clause ↦
    clause.respond raised

/-- An exception passes the clauses when it is an instance of no class that one of them names. -/
theorem respond_eq_none_iff {clauses : List (Handler κ ε β)} {raised : ε} :
    respond isInstance clauses raised = none ↔
      ∀ clause ∈ clauses, ∀ name ∈ clause.classes, isInstance raised name = false := by
  simp [respond, List.find?_eq_none]

end Handlers

end DocStore.Foundation
