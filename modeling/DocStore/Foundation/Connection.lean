import Mathlib.Data.Nat.Notation
import Mathlib.Logic.Basic

/-!
# Connections and transactions

A script executes statements over a connection to a database. Any statement may fail, before or
after it took effect, and a statement that failed aborts the open transaction: nothing else is
executed until a rollback. `transaction` commits what its body wrote or nothing, `nested` confines
the failure of its body to a savepoint.

`Sound` says what a script has done when it reports success, whatever failed on the way, and that it
commits nothing by itself; `Completes` says that it succeeds when nothing fails. Both are composed
from the statements, and `transaction_cases` carries the first over to what a transaction leaves.
-/

set_option autoImplicit false
set_option relaxedAutoImplicit false

namespace DocStore.Foundation

variable {σ ε α β : Type}

/-! ### Connections -/

/-- What goes wrong at a statement: it is refused, or its success is not reported. -/
inductive Fault (ε : Type) where
  | before (failure : ε)
  | after (failure : ε)

/-- The failure that is reported. -/
def Fault.failure : Fault ε → ε
  | before failure | after failure => failure

/-- A connection: what is committed, what the open transaction sees, whether that transaction is
aborted, how many have committed, and what goes wrong at the coming statements. -/
structure Connection (σ ε : Type) where
  committed : σ
  working : σ
  aborted : Bool := false
  commits : ℕ := 0
  faults : ℕ → Option (Fault ε) := fun _ ↦ none

/-- The connection behind the next statement. -/
def Connection.later (connection : Connection σ ε) : Connection σ ε :=
  { connection with faults := fun count ↦ connection.faults (count + 1) }

/-- The connection after a statement that failed. -/
def Connection.abort (connection : Connection σ ε) : Connection σ ε :=
  { connection.later with aborted := true }

/-- `COMMIT` on the server, which rolls an aborted transaction back. -/
def Connection.commit (connection : Connection σ ε) : Connection σ ε :=
  if connection.aborted then
    { connection with
      working := connection.committed
      aborted := false }
  else
    { connection with
      committed := connection.working
      commits := connection.commits + 1 }

/-- `ROLLBACK`. -/
def Connection.rollback (connection : Connection σ ε) : Connection σ ε :=
  { connection with
    working := connection.committed
    aborted := false }

/-! ### Scripts -/

/-- A program that works in a connection and returns or raises. -/
def Script (σ ε α : Type) : Type := Connection σ ε → Except ε α × Connection σ ε

namespace Script

instance : Monad (Script σ ε) where
  pure value := fun connection ↦ (.ok value, connection)
  bind script next := fun connection ↦
    match script connection with
    | (.ok value, after) => next value after
    | (.error failure, after) => (.error failure, after)

/-- A computation of the program alone. -/
def lift (computation : Except ε α) : Script σ ε α := fun connection ↦ (computation, connection)

/-- A statement with an effect on what the transaction sees. -/
def statement [Inhabited ε] (effect : σ → Except ε (σ × α)) : Script σ ε α := fun connection ↦
  if connection.aborted then (.error default, connection.abort)
  else
    match connection.faults 0 with
    | some fault => (.error fault.failure, connection.abort)
    | none =>
      match effect connection.working with
      | .ok (next, value) => (.ok value, { connection.later with working := next })
      | .error failure => (.error failure, connection.abort)

/-- A sequence of statements without results. -/
def execute [Inhabited ε] : List (σ → Except ε σ) → Script σ ε Unit
  | [] => pure ()
  | effect :: effects => do
    statement fun state ↦ (effect state).map fun next ↦ (next, ())
    execute effects

/-- `SAVEPOINT`. -/
def savepoint [Inhabited ε] : Script σ ε σ := statement fun state ↦ .ok (state, state)

/-- `RELEASE SAVEPOINT`. -/
def release [Inhabited ε] : Script σ ε Unit := statement fun state ↦ .ok (state, ())

/-- `ROLLBACK TO SAVEPOINT`, which an aborted transaction takes, too. -/
def rollbackTo (saved : σ) : Script σ ε Unit := fun connection ↦
  match connection.faults 0 with
  | some fault => (.error fault.failure, connection.abort)
  | none =>
    (.ok (), { connection.later with
      working := saved
      aborted := false })

/-- `try` a body, `except` a rollback to a savepoint, `else` its release. -/
def orRollbackTo [Inhabited ε] (saved : σ) (body : Script σ ε Unit) : Script σ ε Unit :=
  fun connection ↦
    match body connection with
    | (.ok _, after) => release after
    | (.error _, after) => rollbackTo saved after

/-- A body in a savepoint of its own, whose failure is dropped with what the body wrote. -/
def nested [Inhabited ε] (body : Script σ ε Unit) : Script σ ε Unit := do
  let saved ← savepoint
  orRollbackTo saved body

/-- A body in a transaction of its own, which is rolled back when the body raises. -/
def transaction (body : Script σ ε α) : Script σ ε α := fun connection ↦
  match connection.faults 0 with
  | some fault => (.error fault.failure, connection.later.rollback)
  | none =>
    match body connection.later.rollback with
    | (.error failure, after) => (.error failure, after.rollback)
    | (.ok value, after) =>
      match after.faults 0 with
      | none => (.ok value, after.later.commit)
      | some (.before failure) => (.error failure, after.later.rollback)
      | some (.after failure) => (.error failure, after.later.commit)

/-! ### What a script has done -/

/-- A script commits nothing, and when it reports success it had an effect. -/
structure Sound (script : Script σ ε α) (effect : σ → σ → α → Prop) : Prop where
  committed : ∀ connection, (script connection).2.committed = connection.committed
  commits : ∀ connection, (script connection).2.commits = connection.commits
  result : ∀ connection value, connection.aborted = false → (script connection).1 = .ok value →
    (script connection).2.aborted = false ∧
      effect connection.working (script connection).2.working value

variable {script : Script σ ε α} {effect : σ → σ → α → Prop}

theorem sound_pure (value : α) :
    (pure value : Script σ ε α).Sound fun before after result ↦
      after = before ∧ result = value where
  committed _ := rfl
  commits _ := rfl
  result := by
    intro connection result hopen hresult
    cases hresult
    exact ⟨hopen, rfl, rfl⟩

theorem sound_lift (computation : Except ε α) :
    (lift computation : Script σ ε α).Sound fun before after result ↦
      after = before ∧ computation = .ok result where
  committed _ := rfl
  commits _ := rfl
  result := fun _ _ hopen hresult ↦ ⟨hopen, rfl, hresult⟩

theorem bind_of_ok {next : α → Script σ ε β} {connection : Connection σ ε} {value : α}
    (hresult : (script connection).1 = .ok value) :
    (script >>= next) connection = next value (script connection).2 := by
  show (match script connection with
    | (.ok value, after) => next value after
    | (.error failure, after) => (.error failure, after)) = _
  rcases hconnection : script connection with ⟨result, after⟩
  rw [hconnection] at hresult
  cases hresult
  rfl

theorem bind_of_error {next : α → Script σ ε β} {connection : Connection σ ε} {failure : ε}
    (hresult : (script connection).1 = .error failure) :
    (script >>= next) connection = (.error failure, (script connection).2) := by
  show (match script connection with
    | (.ok value, after) => next value after
    | (.error failure, after) => (.error failure, after)) = _
  rcases hconnection : script connection with ⟨result, after⟩
  rw [hconnection] at hresult
  cases hresult
  rfl

/-- The second of two scripts runs when the first one returns. -/
theorem bind_cases (script : Script σ ε α) (next : α → Script σ ε β) (connection : Connection σ ε) :
    (∃ failure, (script connection).1 = .error failure ∧
      (script >>= next) connection = (.error failure, (script connection).2)) ∨
    ∃ value, (script connection).1 = .ok value ∧
      (script >>= next) connection = next value (script connection).2 := by
  cases hresult : (script connection).1 with
  | error failure => exact Or.inl ⟨failure, rfl, bind_of_error hresult⟩
  | ok value => exact Or.inr ⟨value, rfl, bind_of_ok hresult⟩

/-- Two scripts in a row have their effects in a row. -/
theorem Sound.bind {next : α → Script σ ε β} {later : α → σ → σ → β → Prop}
    (hscript : script.Sound effect) (hnext : ∀ value, (next value).Sound (later value)) :
    (script >>= next).Sound fun before after result ↦
      ∃ middle value, effect before middle value ∧ later value middle after result := by
  constructor
  · intro connection
    cases hfirst : (script connection).1 with
    | error failure => rw [bind_of_error hfirst, hscript.committed]
    | ok value => rw [bind_of_ok hfirst, (hnext value).committed, hscript.committed]
  · intro connection
    cases hfirst : (script connection).1 with
    | error failure => rw [bind_of_error hfirst, hscript.commits]
    | ok value => rw [bind_of_ok hfirst, (hnext value).commits, hscript.commits]
  · intro connection result hopen hresult
    cases hfirst : (script connection).1 with
    | error failure =>
      rw [bind_of_error hfirst] at hresult
      cases hresult
    | ok value =>
      rw [bind_of_ok hfirst] at hresult ⊢
      obtain ⟨hstill, heffect⟩ := hscript.result connection value hopen hfirst
      obtain ⟨hlast, hlater⟩ := (hnext value).result _ result hstill hresult
      exact ⟨hlast, _, value, heffect, hlater⟩

/-- A script may be said to do less. -/
theorem Sound.mono {wider : σ → σ → α → Prop} (hscript : script.Sound effect)
    (hmono : ∀ before after value, effect before after value → wider before after value) :
    script.Sound wider where
  committed := hscript.committed
  commits := hscript.commits
  result := by
    intro connection value hopen hresult
    obtain ⟨hstill, heffect⟩ := hscript.result connection value hopen hresult
    exact ⟨hstill, hmono _ _ _ heffect⟩

theorem sound_statement [Inhabited ε] (effect : σ → Except ε (σ × α)) :
    (statement effect).Sound fun before after result ↦ effect before = .ok (after, result) := by
  have hcases : ∀ connection, ((∃ failure, (statement effect connection).1 = .error failure) ∧
      (statement effect connection).2 = connection.abort) ∨
      ∃ next value, connection.aborted = false ∧ effect connection.working = .ok (next, value) ∧
        statement effect connection = (.ok value, { connection.later with working := next }) := by
    intro connection
    unfold statement
    split
    · exact Or.inl ⟨⟨_, rfl⟩, rfl⟩
    · split
      · exact Or.inl ⟨⟨_, rfl⟩, rfl⟩
      · split
        · exact Or.inr ⟨_, _, Bool.eq_false_iff.mpr ‹_›, ‹_›, rfl⟩
        · exact Or.inl ⟨⟨_, rfl⟩, rfl⟩
  constructor
  · intro connection
    rcases hcases connection with ⟨-, hafter⟩ | ⟨next, value, -, -, hafter⟩ <;> rw [hafter] <;> rfl
  · intro connection
    rcases hcases connection with ⟨-, hafter⟩ | ⟨next, value, -, -, hafter⟩ <;> rw [hafter] <;> rfl
  · intro connection value hopen hresult
    rcases hcases connection with ⟨⟨failure, hfailure⟩, -⟩ | ⟨next, found, -, heffect, hafter⟩
    · rw [hfailure] at hresult
      cases hresult
    · rw [hafter] at hresult ⊢
      cases hresult
      exact ⟨hopen, heffect⟩

/-- Statements in a row have their effects in a row. -/
theorem sound_execute [Inhabited ε] (effects : List (σ → Except ε σ)) :
    (execute effects).Sound fun before after _ ↦
      effects.foldlM (fun state effect ↦ effect state) before = .ok after := by
  induction effects with
  | nil => exact (sound_pure ()).mono fun before after _ ⟨hsame, _⟩ ↦ hsame ▸ rfl
  | cons effect effects ih =>
    refine ((sound_statement _).bind fun _ ↦ ih).mono ?_
    rintro before after - ⟨middle, ⟨⟩, hfirst, hrest⟩
    rw [List.foldlM_cons]
    cases heffect : effect before with
    | error failure => simp [heffect, Except.map] at hfirst
    | ok next =>
      obtain rfl : next = middle := by simpa [heffect, Except.map] using hfirst
      exact hrest

theorem sound_savepoint [Inhabited ε] : (savepoint : Script σ ε σ).Sound fun before after saved ↦
    after = before ∧ saved = before := by
  refine (sound_statement _).mono fun before after saved heffect ↦ ?_
  cases heffect
  exact ⟨rfl, rfl⟩

theorem sound_release [Inhabited ε] : (release : Script σ ε Unit).Sound fun before after _ ↦
    after = before := by
  refine (sound_statement _).mono fun before after saved heffect ↦ ?_
  cases heffect
  rfl

/-- A rollback ends where the savepoint was, and reopens an aborted transaction. -/
theorem rollbackTo_cases (saved : σ) (connection : Connection σ ε) :
    ((∃ failure, (rollbackTo saved connection).1 = .error failure) ∧
      (rollbackTo saved connection).2 = connection.abort) ∨
    rollbackTo saved connection = (.ok (), { connection.later with
      working := saved
      aborted := false }) := by
  unfold rollbackTo
  split
  · exact Or.inl ⟨⟨_, rfl⟩, rfl⟩
  · exact Or.inr rfl

theorem sound_rollbackTo (saved : σ) : (rollbackTo saved : Script σ ε Unit).Sound fun _ after _ ↦
    after = saved := by
  constructor
  · intro connection
    rcases rollbackTo_cases saved connection with ⟨-, hafter⟩ | hafter <;> rw [hafter] <;> rfl
  · intro connection
    rcases rollbackTo_cases saved connection with ⟨-, hafter⟩ | hafter <;> rw [hafter] <;> rfl
  · intro connection value hopen hresult
    rcases rollbackTo_cases saved connection with ⟨⟨failure, hfailure⟩, -⟩ | hafter
    · rw [hfailure] at hresult
      cases hresult
    · rw [hafter]
      exact ⟨rfl, rfl⟩

/-- A body that fails leaves what was there at the savepoint. -/
theorem Sound.orRollbackTo [Inhabited ε] {body : Script σ ε Unit} {effect : σ → σ → Unit → Prop}
    (hbody : body.Sound effect) (saved : σ) :
    (Script.orRollbackTo saved body).Sound fun before after _ ↦
      after = saved ∨ effect before after () := by
  have hcases : ∀ connection,
      ((body connection).1 = .ok () ∧
          Script.orRollbackTo saved body connection = release (body connection).2) ∨
        Script.orRollbackTo saved body connection = rollbackTo saved (body connection).2 := by
    intro connection
    unfold Script.orRollbackTo
    rcases body connection with ⟨failure | ⟨⟩, after⟩
    · exact Or.inr rfl
    · exact Or.inl ⟨rfl, rfl⟩
  constructor
  · intro connection
    rcases hcases connection with ⟨-, hafter⟩ | hafter
    · rw [hafter, sound_release.committed, hbody.committed]
    · rw [hafter, (sound_rollbackTo saved).committed, hbody.committed]
  · intro connection
    rcases hcases connection with ⟨-, hafter⟩ | hafter
    · rw [hafter, sound_release.commits, hbody.commits]
    · rw [hafter, (sound_rollbackTo saved).commits, hbody.commits]
  · intro connection value hopen hresult
    rcases hcases connection with ⟨hdone, hafter⟩ | hafter
    · obtain ⟨hstill, heffect⟩ := hbody.result connection () hopen hdone
      rw [hafter] at hresult ⊢
      obtain ⟨hlast, hsame⟩ := sound_release.result _ value hstill hresult
      rw [hsame]
      exact ⟨hlast, Or.inr heffect⟩
    · rw [hafter] at hresult ⊢
      rcases rollbackTo_cases saved (body connection).2 with ⟨⟨failure, hfailure⟩, -⟩ | hrolled
      · rw [hfailure] at hresult
        cases hresult
      · rw [hrolled]
        exact ⟨rfl, Or.inl rfl⟩

/-- A body in a savepoint has its effect, or none. -/
theorem Sound.nested [Inhabited ε] {body : Script σ ε Unit} {effect : σ → σ → Unit → Prop}
    (hbody : body.Sound effect) : body.nested.Sound fun before after _ ↦
      after = before ∨ effect before after () := by
  refine (sound_savepoint.bind fun saved ↦ hbody.orRollbackTo saved).mono ?_
  rintro before after - ⟨middle, saved, ⟨rfl, rfl⟩, heffect⟩
  exact heffect

/-- A transaction leaves what was committed and raises, or commits what its body has done. -/
theorem transaction_cases (hscript : script.Sound effect) (connection : Connection σ ε) :
    ((script.transaction connection).2.committed = connection.committed ∧
      (script.transaction connection).2.commits = connection.commits ∧
      ∃ failure, (script.transaction connection).1 = .error failure) ∨
    ∃ value, effect connection.committed (script.transaction connection).2.committed value ∧
      (script.transaction connection).2.commits = connection.commits + 1 ∧
      ((script.transaction connection).1 = .ok value ∨
        ∃ failure, (script.transaction connection).1 = .error failure) := by
  have hcommitted := hscript.committed connection.later.rollback
  have hcommits := hscript.commits connection.later.rollback
  have hdone := hscript.result connection.later.rollback
  unfold transaction
  split
  · exact Or.inl ⟨rfl, rfl, _, rfl⟩
  · rcases hbody : script connection.later.rollback with ⟨failure | value, after⟩
    · rw [hbody] at hcommitted hcommits
      exact Or.inl ⟨hcommitted, hcommits, _, rfl⟩
    · rw [hbody] at hcommitted hcommits hdone
      obtain ⟨hopen, heffect⟩ := hdone value rfl rfl
      have hcommit : after.later.commit.committed = after.working ∧
          after.later.commit.commits = connection.commits + 1 := by
        have hlater : ¬after.later.aborted = true := Bool.eq_false_iff.mp hopen
        rw [Connection.commit, if_neg hlater]
        exact ⟨rfl, congrArg (· + 1) hcommits⟩
      dsimp only at heffect ⊢
      split
      · exact Or.inr ⟨value, hcommit.1 ▸ heffect, hcommit.2, Or.inl rfl⟩
      · exact Or.inl ⟨hcommitted, hcommits, _, rfl⟩
      · exact Or.inr ⟨value, hcommit.1 ▸ heffect, hcommit.2, Or.inr ⟨_, rfl⟩⟩

/-! ### Scripts without faults -/

/-- An open transaction in which nothing goes wrong. -/
def calm (committed working : σ) (commits : ℕ) : Connection σ ε := { committed, working, commits }

/-- When nothing goes wrong, a script that can have an effect has it. -/
def Completes (script : Script σ ε α) (effect : σ → σ → α → Prop) : Prop :=
  ∀ committed before after commits value, effect before after value →
    script (calm committed before commits) = (.ok value, calm committed after commits)

theorem completes_pure (value : α) :
    (pure value : Script σ ε α).Completes fun before after result ↦
      after = before ∧ result = value := by
  rintro committed before _ commits _ ⟨rfl, rfl⟩
  rfl

theorem completes_lift (computation : Except ε α) :
    (lift computation : Script σ ε α).Completes fun before after result ↦
      after = before ∧ computation = .ok result := by
  rintro committed before _ commits value ⟨rfl, hresult⟩
  exact Prod.ext hresult rfl

theorem Completes.bind {next : α → Script σ ε β} {later : α → σ → σ → β → Prop}
    (hscript : script.Completes effect) (hnext : ∀ value, (next value).Completes (later value)) :
    (script >>= next).Completes fun before after result ↦
      ∃ middle value, effect before middle value ∧ later value middle after result := by
  rintro committed before after commits result ⟨middle, value, heffect, hlater⟩
  have hfirst := hscript committed before middle commits value heffect
  rw [bind_of_ok (congrArg Prod.fst hfirst), hfirst]
  exact hnext value committed middle after commits result hlater

theorem completes_statement [Inhabited ε] (effect : σ → Except ε (σ × α)) :
    (statement effect).Completes fun before after result ↦ effect before = .ok (after, result) := by
  intro committed before after commits value heffect
  show (match effect before with
    | .ok (next, value) => (Except.ok value, _)
    | .error failure => (Except.error failure, _)) = _
  rw [heffect]
  rfl

theorem completes_execute [Inhabited ε] (effects : List (σ → Except ε σ)) :
    (execute effects).Completes fun before after _ ↦
      effects.foldlM (fun state effect ↦ effect state) before = .ok after := by
  induction effects with
  | nil =>
    intro committed before after commits value heffects
    cases heffects
    rfl
  | cons effect effects ih =>
    intro committed before after commits value heffects
    rw [List.foldlM_cons] at heffects
    cases hfirst : effect before with
    | error failure =>
      rw [hfirst] at heffects
      cases heffects
    | ok middle =>
      rw [hfirst] at heffects
      refine (completes_statement _).bind (fun _ ↦ ih) committed before after commits value ?_
      exact ⟨middle, (), by simp [hfirst, Except.map], heffects⟩

theorem completes_savepoint [Inhabited ε] :
    (savepoint : Script σ ε σ).Completes fun before after saved ↦
      after = before ∧ saved = before := by
  rintro committed before _ commits _ ⟨rfl, rfl⟩
  rfl

theorem completes_release [Inhabited ε] :
    (release : Script σ ε Unit).Completes fun before after _ ↦ after = before := by
  rintro committed before _ commits _ rfl
  rfl

theorem completes_rollbackTo (saved : σ) :
    (rollbackTo saved : Script σ ε Unit).Completes fun _ after _ ↦ after = saved := by
  rintro committed before _ commits _ rfl
  rfl

theorem Completes.nested [Inhabited ε] {body : Script σ ε Unit} {effect : σ → σ → Unit → Prop}
    (hbody : body.Completes effect) : body.nested.Completes effect := by
  intro committed before after commits value heffect
  have hdone := hbody committed before after commits value heffect
  show (match body (calm committed before commits) with
    | (.ok _, after) => release after
    | (.error _, after) => rollbackTo before after) = _
  rw [hdone]
  rfl

theorem Completes.transaction (hscript : script.Completes effect) {committed next : σ}
    {value : α} (heffect : effect committed next value) (working : σ) (commits : ℕ) :
    script.transaction (calm committed working commits) =
      (.ok value, calm next next (commits + 1)) := by
  have hdone := hscript committed committed next commits value heffect
  show (match script (calm committed committed commits) with
    | (.error failure, after) => (Except.error failure, after.rollback)
    | (.ok value, after) =>
      match after.faults 0 with
      | none => (Except.ok value, after.later.commit)
      | some (.before failure) => (Except.error failure, after.later.rollback)
      | some (.after failure) => (Except.error failure, after.later.commit)) = _
  rw [hdone]
  rfl

end Script

end DocStore.Foundation
