import DocStore.Foundation.Transition
import Mathlib.Logic.Function.Basic
import Mathlib.Order.Basic

/-!
# Transactions over an append-only log

A `Program` is a transaction that reads a log of rows, takes row locks, appends rows and ends with
a result or an error. Each constructor is one statement of the transaction.

`Program.run` is the sequential meaning: every statement sees the log together with what the
transaction has appended itself. `System` is the concurrent meaning at the isolation level READ
COMMITTED: a statement sees what is committed when it starts, a lock is held until its transaction
ends, and rows become visible when their transaction commits.
-/

set_option autoImplicit false
set_option relaxedAutoImplicit false

namespace DocStore.Foundation

/-- A transaction over rows `ρ` that locks keys `κ` and fails with `ε`. The row that a statement
appends may depend on the rows it sees. -/
inductive Program (ρ κ ε α : Type) where
  | done (result : α)
  | fail (error : ε)
  | read (next : List ρ → Program ρ κ ε α)
  | lock (key : κ) (next : Program ρ κ ε α)
  | append (make : List ρ → Except ε ρ) (next : ρ → Program ρ κ ε α)

namespace Program

variable {ρ κ ε α β : Type}

/-- One program behind another. -/
def bind : Program ρ κ ε α → (α → Program ρ κ ε β) → Program ρ κ ε β
  | done result, next => next result
  | fail error, _ => fail error
  | read inner, next => read fun rows ↦ (inner rows).bind next
  | lock key inner, next => lock key (inner.bind next)
  | append make inner, next => append make fun row ↦ (inner row).bind next

instance : Monad (Program ρ κ ε) where
  pure := done
  bind := bind

/-- The sequential meaning of a program: its result and the log it leaves. -/
def run : Program ρ κ ε α → List ρ → Except ε (α × List ρ)
  | done result, log => .ok (result, log)
  | fail error, _ => .error error
  | read next, log => (next log).run log
  | lock _ next, log => next.run log
  | append make next, log =>
    match make log with
    | .error error => .error error
    | .ok row => (next row).run (log ++ [row])

/-- The rows that a statement sees. -/
def select : Program ρ κ ε (List ρ) := read done

/-- Takes the lock on a key. -/
def acquire (key : κ) : Program ρ κ ε Unit := lock key (done ())

/-- Appends the row made from the rows that the statement sees. -/
def insert (make : List ρ → Except ε ρ) : Program ρ κ ε ρ := append make done

@[simp] theorem run_pure (result : α) (log : List ρ) :
    (pure result : Program ρ κ ε α).run log = .ok (result, log) :=
  rfl

@[simp] theorem run_fail (error : ε) (log : List ρ) :
    (fail error : Program ρ κ ε α).run log = .error error :=
  rfl

/-- A sequence of two programs succeeds exactly when the second does where the first has led. -/
theorem run_bind_eq_ok {first : Program ρ κ ε α} {next : α → Program ρ κ ε β} {log final : List ρ}
    {result : β} : (first >>= next).run log = .ok (result, final) ↔
      ∃ value middle, first.run log = .ok (value, middle) ∧
        (next value).run middle = .ok (result, final) := by
  change (first.bind next).run log = _ ↔ _
  induction first generalizing log with
  | done value =>
    simp only [bind, run, Except.ok.injEq, Prod.mk.injEq]
    exact ⟨fun hnext ↦ ⟨value, log, ⟨rfl, rfl⟩, hnext⟩, fun ⟨_, _, ⟨hvalue, hlog⟩, hnext⟩ ↦
      hvalue ▸ hlog ▸ hnext⟩
  | fail error => simp [bind, run]
  | read inner ih => exact ih log
  | lock key inner ih => exact ih
  | append make inner ih =>
    simp only [bind, run]
    cases make log with
    | error error => simp
    | ok row => exact ih row

/-- A sequence of two programs goes on where the first has led. -/
theorem run_bind_of_ok {first : Program ρ κ ε α} {next : α → Program ρ κ ε β}
    {log middle : List ρ} {value : α} (hfirst : first.run log = .ok (value, middle)) :
    (first >>= next).run log = (next value).run middle := by
  change (first.bind next).run log = _
  induction first generalizing log with
  | done result =>
    cases hfirst
    rfl
  | fail error => cases hfirst
  | read inner ih => exact ih log hfirst
  | lock key inner ih => exact ih hfirst
  | append make inner ih =>
    simp only [run] at hfirst
    simp only [bind, run]
    cases hmake : make log with
    | error error => simp [hmake] at hfirst
    | ok row =>
      rw [hmake] at hfirst
      exact ih row hfirst

@[simp] theorem run_select_bind (next : List ρ → Program ρ κ ε β) (log : List ρ) :
    (select >>= next).run log = (next log).run log :=
  rfl

@[simp] theorem run_acquire_bind (key : κ) (next : Unit → Program ρ κ ε β) (log : List ρ) :
    (acquire key >>= next).run log = (next ()).run log :=
  rfl

theorem run_insert_eq_ok {make : List ρ → Except ε ρ} {log final : List ρ} {row : ρ} :
    (insert make : Program ρ κ ε ρ).run log = .ok (row, final) ↔
      make log = .ok row ∧ final = log ++ [row] := by
  simp only [insert, run]
  cases make log with
  | error error => simp
  | ok made =>
    simp only [Except.ok.injEq, Prod.mk.injEq]
    exact ⟨fun ⟨hrow, hfinal⟩ ↦ ⟨hrow, hrow ▸ hfinal.symm⟩,
      fun ⟨hrow, hfinal⟩ ↦ ⟨hrow, hrow ▸ hfinal.symm⟩⟩

/-- A log is only ever appended to. -/
theorem prefix_of_run {program : Program ρ κ ε α} {log final : List ρ} {result : α}
    (hrun : program.run log = .ok (result, final)) : log <+: final := by
  induction program generalizing log with
  | done value =>
    cases hrun
    exact List.prefix_rfl
  | fail error => cases hrun
  | read inner ih => exact ih log hrun
  | lock key inner ih => exact ih hrun
  | append make inner ih =>
    simp only [run] at hrun
    cases hmake : make log with
    | error error => simp [hmake] at hrun
    | ok row =>
      rw [hmake] at hrun
      exact (List.prefix_append log [row]).trans (ih row hrun)

/-! ### Rules for every schedule -/

variable {post : α → List ρ → Prop}

/-- What a program ensures about its result and the rows it has appended when it is done, whatever
its statements see. `appended` is what it has appended before. -/
def Ensures (post : α → List ρ → Prop) : List ρ → Program ρ κ ε α → Prop
  | appended, done result => post result appended
  | _, fail _ => True
  | appended, read next => ∀ rows, (next rows).Ensures post appended
  | appended, lock _ next => next.Ensures post appended
  | appended, append make next =>
    ∀ rows row, make rows = .ok row → (next row).Ensures post (appended ++ [row])

theorem ensures_bind {first : Program ρ κ ε α} {next : α → Program ρ κ ε β}
    {post : β → List ρ → Prop} {appended : List ρ}
    (hfirst : first.Ensures (fun value rows ↦ (next value).Ensures post rows) appended) :
    (first >>= next).Ensures post appended := by
  change (first.bind next).Ensures post appended
  induction first generalizing appended with
  | done value => exact hfirst
  | fail error => trivial
  | read inner ih => exact fun rows ↦ ih rows (hfirst rows)
  | lock key inner ih => exact ih hfirst
  | append make inner ih => exact fun rows row hmake ↦ ih row (hfirst rows row hmake)

theorem ensures_select_bind {next : List ρ → Program ρ κ ε β} {post : β → List ρ → Prop}
    {appended : List ρ} (hnext : ∀ rows, (next rows).Ensures post appended) :
    (select >>= next).Ensures post appended :=
  hnext

theorem Ensures.mono {program : Program ρ κ ε α} {weaker : α → List ρ → Prop} {appended : List ρ}
    (hensures : program.Ensures post appended)
    (hmono : ∀ result rows, post result rows → weaker result rows) :
    program.Ensures weaker appended := by
  induction program generalizing appended with
  | done result => exact hmono _ _ hensures
  | fail error => trivial
  | read inner ih => exact fun rows ↦ ih rows (hensures rows)
  | lock key inner ih => exact ih hensures
  | append make inner ih => exact fun rows row hmake ↦ ih row (hensures rows row hmake)

/-- A sequential run is one of the schedules. -/
theorem Ensures.of_run {program : Program ρ κ ε α} {appended log final : List ρ} {result : α}
    (hensures : program.Ensures post appended) (hrun : program.run log = .ok (result, final)) :
    ∃ added, final = log ++ added ∧ post result (appended ++ added) := by
  induction program generalizing appended log with
  | done value =>
    cases hrun
    exact ⟨[], by simp, (List.append_nil appended).symm ▸ hensures⟩
  | fail error => cases hrun
  | read inner ih => exact ih log (hensures log) hrun
  | lock key inner ih => exact ih hensures hrun
  | append make inner ih =>
    simp only [run] at hrun
    cases hmake : make log with
    | error error => simp [hmake] at hrun
    | ok row =>
      rw [hmake] at hrun
      obtain ⟨added, hfinal, hpost⟩ := ih row (hensures log row hmake) hrun
      exact ⟨row :: added, by simpa using hfinal, by simpa using hpost⟩

/-! ### Programs that only read -/

/-- A program that appends nothing. -/
def Silent : Program ρ κ ε α → Prop
  | done _ => True
  | fail _ => True
  | read next => ∀ rows, (next rows).Silent
  | lock _ next => next.Silent
  | append _ _ => False

theorem silent_bind {first : Program ρ κ ε α} {next : α → Program ρ κ ε β} (hfirst : first.Silent)
    (hnext : ∀ value, (next value).Silent) : (first >>= next).Silent := by
  change (first.bind next).Silent
  induction first with
  | done value => exact hnext value
  | fail error => trivial
  | read inner ih => exact fun rows ↦ ih rows (hfirst rows)
  | lock key inner ih => exact ih hfirst
  | append make inner ih => exact hfirst.elim

theorem silent_pure (result : α) : (pure result : Program ρ κ ε α).Silent :=
  trivial

theorem silent_fail (error : ε) : (fail error : Program ρ κ ε α).Silent :=
  trivial

theorem silent_select_bind {next : List ρ → Program ρ κ ε β} (hnext : ∀ rows, (next rows).Silent) :
    (select >>= next).Silent :=
  hnext

theorem silent_acquire (key : κ) : (acquire key : Program ρ κ ε Unit).Silent :=
  trivial

theorem Silent.ensures {program : Program ρ κ ε α} (hsilent : program.Silent)
    (appended : List ρ) : program.Ensures (fun _ rows ↦ rows = appended) appended := by
  induction program with
  | done result => rfl
  | fail error => trivial
  | read inner ih => exact fun rows ↦ ih rows (hsilent rows)
  | lock key inner ih => exact ih hsilent
  | append make inner ih => exact hsilent.elim

/-- A run of a silent program leaves the log as it is. -/
theorem Silent.run_eq {program : Program ρ κ ε α} (hsilent : program.Silent) {log final : List ρ}
    {result : α} (hrun : program.run log = .ok (result, final)) : final = log := by
  obtain ⟨added, hfinal, hadded⟩ := (hsilent.ensures []).of_run hrun
  rw [hfinal, show added = [] from hadded, List.append_nil]

/-- A silent program in front ensures what the rest ensures. -/
theorem ensures_bind_of_silent {first : Program ρ κ ε α} {next : α → Program ρ κ ε β}
    {post : β → List ρ → Prop} {appended : List ρ} (hsilent : first.Silent)
    (hnext : ∀ value, (next value).Ensures post appended) :
    (first >>= next).Ensures post appended :=
  ensures_bind ((hsilent.ensures appended).mono fun value _ hrows ↦ hrows ▸ hnext value)

/-! ### Programs that keep a property of what they append -/

/-- A program that keeps a property of the rows it has appended. -/
def Maintains (program : Program ρ κ ε α) (kept : List ρ → Prop) : Prop :=
  ∀ appended, kept appended → program.Ensures (fun _ rows ↦ kept rows) appended

theorem maintains_bind {first : Program ρ κ ε α} {next : α → Program ρ κ ε β}
    {kept : List ρ → Prop} (hfirst : first.Maintains kept)
    (hnext : ∀ value, (next value).Maintains kept) : (first >>= next).Maintains kept :=
  fun appended hkept ↦ ensures_bind ((hfirst appended hkept).mono fun value _ hkept ↦ hnext value _ hkept)

theorem Silent.maintains {program : Program ρ κ ε α} (hsilent : program.Silent)
    (kept : List ρ → Prop) : program.Maintains kept := fun appended hkept ↦
  (hsilent.ensures appended).mono fun _ _ hrows ↦ hrows ▸ hkept

theorem maintains_insert {make : List ρ → Except ε ρ} {kept : List ρ → Prop}
    (hmake : ∀ rows row appended, make rows = .ok row → kept appended → kept (appended ++ [row])) :
    (insert make : Program ρ κ ε ρ).Maintains kept :=
  fun appended hkept rows row hrow ↦ hmake rows row appended hrow hkept

/-! ### Refusals -/

/-- A program that, as long as every statement sees a certain kind of log, can only give up with a
certain kind of error. -/
def Refuses (sees : List ρ → Prop) (refusal : ε → Prop) : Program ρ κ ε α → Prop
  | done _ => False
  | fail error => refusal error
  | read next => ∀ rows, sees rows → (next rows).Refuses sees refusal
  | lock _ _ => False
  | append _ _ => False

theorem refuses_select_bind {sees : List ρ → Prop} {refusal : ε → Prop}
    {next : List ρ → Program ρ κ ε β}
    (hnext : ∀ rows, sees rows → (next rows).Refuses sees refusal) :
    (select >>= next).Refuses sees refusal :=
  hnext

theorem Refuses.bind {sees : List ρ → Prop} {refusal : ε → Prop} {first : Program ρ κ ε α}
    (hrefuses : first.Refuses sees refusal) (next : α → Program ρ κ ε β) :
    (first >>= next).Refuses sees refusal := by
  change (first.bind next).Refuses sees refusal
  induction first with
  | done value => exact hrefuses.elim
  | fail error => exact hrefuses
  | read inner ih => exact fun rows hrows ↦ ih rows (hrefuses rows hrows)
  | lock key inner ih => exact hrefuses.elim
  | append make inner ih => exact hrefuses.elim

end Program

/-! ### Concurrent transactions -/

/-- A transaction under way: its start time, what is left of its program, and the rows it has
appended so far. -/
structure Session (ρ κ ε α τ : Type) where
  startedAt : τ
  program : Program ρ κ ε α
  appended : List ρ := []

/-- Where a transaction stands. -/
inductive Status (ρ κ ε α τ : Type) where
  | waiting
  | running (session : Session ρ κ ε α τ)
  | committed (result : α)
  | failed (error : ε)

/-- Whether a transaction has committed. -/
def Status.isCommitted {ρ κ ε α τ : Type} : Status ρ κ ε α τ → Bool
  | committed _ => true
  | _ => false

/-- Whether a transaction is under way. -/
def Status.isRunning {ρ κ ε α τ : Type} : Status ρ κ ε α τ → Bool
  | running _ => true
  | _ => false

/-- Whether a transaction has committed or failed. -/
def Status.isFinished {ρ κ ε α τ : Type} : Status ρ κ ε α τ → Bool
  | committed _ => true
  | failed _ => true
  | _ => false

/-- A committed log with the transactions that work on it, the lock holders and the time. -/
structure System (ι ρ κ ε α τ : Type) where
  log : List ρ
  clock : τ
  status : ι → Status ρ κ ε α τ
  holder : κ → Option ι

/-- What can happen next: a transaction starts, it executes its next statement, or time passes. The
last statement of a program commits its transaction or rolls it back. -/
inductive Action (ι τ : Type) where
  | start (index : ι)
  | statement (index : ι)
  | wait (later : τ)

namespace System

variable {ι ρ κ ε α τ : Type} [DecidableEq ι] [DecidableEq κ]

/-- Changes where one transaction stands. -/
def setStatus (system : System ι ρ κ ε α τ) (index : ι) (status : Status ρ κ ε α τ) :
    System ι ρ κ ε α τ :=
  { system with status := Function.update system.status index status }

/-- Ends a transaction, which gives its locks back. -/
def finish (system : System ι ρ κ ε α τ) (index : ι) (status : Status ρ κ ε α τ) :
    System ι ρ κ ε α τ :=
  { system.setStatus index status with
    holder := fun key ↦ if system.holder key = some index then none else system.holder key }

/-- The next statement of a running session, which sees the committed rows and its own. A lock that
another transaction holds lets it wait. -/
def advance (system : System ι ρ κ ε α τ) (index : ι) (session : Session ρ κ ε α τ) :
    Option (System ι ρ κ ε α τ) :=
  let visible := system.log ++ session.appended
  match session.program with
  | .done result => some ({ system with log := visible }.finish index (.committed result))
  | .fail error => some (system.finish index (.failed error))
  | .read next => some (system.setStatus index (.running { session with program := next visible }))
  | .lock key next =>
    if system.holder key = none ∨ system.holder key = some index then
      some ({ system with holder := Function.update system.holder key (some index) }.setStatus index
        (.running { session with program := next }))
    else none
  | .append make next =>
    match make visible with
    | .error error => some (system.finish index (.failed error))
    | .ok row =>
      some (system.setStatus index
        (.running { session with program := next row, appended := session.appended ++ [row] }))

/-- One step of the system, where `request index now` is the program of the transaction `index`
when it starts at the time `now`. -/
def step [LE τ] [DecidableLE τ] (request : ι → τ → Program ρ κ ε α)
    (system : System ι ρ κ ε α τ) : Action ι τ → Option (System ι ρ κ ε α τ)
  | .start index =>
    match system.status index with
    | .waiting =>
      some (system.setStatus index
        (.running { startedAt := system.clock, program := request index system.clock }))
    | _ => none
  | .statement index =>
    match system.status index with
    | .running session => system.advance index session
    | _ => none
  | .wait later => if system.clock ≤ later then some { system with clock := later } else none

/-! ### What one step does -/

section Cases

variable [LE τ] [DecidableLE τ] {request : ι → τ → Program ρ κ ε α}
  {system next : System ι ρ κ ε α τ} {action : Action ι τ}

/-- A step starts a waiting transaction, executes a statement of a running one, or lets time
pass. -/
theorem step_cases (hstep : system.step request action = some next) :
    (∃ index, action = .start index ∧ system.status index = .waiting ∧
      next = system.setStatus index
        (.running { startedAt := system.clock, program := request index system.clock })) ∨
    (∃ index session, action = .statement index ∧ system.status index = .running session ∧
      system.advance index session = some next) ∨
    (∃ later, action = .wait later ∧ system.clock ≤ later ∧
      next = { system with clock := later }) := by
  cases action with
  | start index =>
    cases hstatus : system.status index with
    | waiting =>
      simp only [step, hstatus, Option.some.injEq] at hstep
      exact .inl ⟨index, rfl, hstatus, hstep.symm⟩
    | running session => simp [step, hstatus] at hstep
    | committed result => simp [step, hstatus] at hstep
    | failed error => simp [step, hstatus] at hstep
  | statement index =>
    cases hstatus : system.status index with
    | waiting => simp [step, hstatus] at hstep
    | running session =>
      simp only [step, hstatus] at hstep
      exact .inr (.inl ⟨index, session, rfl, hstatus, hstep⟩)
    | committed result => simp [step, hstatus] at hstep
    | failed error => simp [step, hstatus] at hstep
  | wait later =>
    simp only [step, Option.ite_none_right_eq_some, Option.some.injEq] at hstep
    exact .inr (.inr ⟨later, rfl, hstep.1, hstep.2.symm⟩)

omit [LE τ] [DecidableLE τ] in
/-- A statement commits, gives up, or goes on with the rest of the program, having appended nothing
or one row. Only a commit changes the log, and no statement changes where another transaction
stands. -/
theorem advance_cases {index : ι} {session : Session ρ κ ε α τ}
    (hadvance : system.advance index session = some next) :
    (∃ result, session.program = .done result ∧
      next = { system with log := system.log ++ session.appended }.finish index
        (.committed result)) ∨
    (∃ error, next = system.finish index (.failed error) ∧
      (session.program = .fail error ∨ ∃ make rest, session.program = .append make rest)) ∨
    (∃ rest, session.program = .read rest ∧ next = system.setStatus index
      (.running { session with program := rest (system.log ++ session.appended) })) ∨
    (∃ key rest, session.program = .lock key rest ∧
      (system.holder key = none ∨ system.holder key = some index) ∧
      next = { system with
        holder := Function.update system.holder key (some index) }.setStatus index
        (.running { session with program := rest })) ∨
    (∃ make rest row, session.program = .append make rest ∧
      make (system.log ++ session.appended) = .ok row ∧
      next = system.setStatus index (.running
        { session with program := rest row, appended := session.appended ++ [row] })) := by
  unfold advance at hadvance
  cases hprogram : session.program with
  | done result =>
    simp only [hprogram, Option.some.injEq] at hadvance
    exact .inl ⟨result, rfl, hadvance.symm⟩
  | fail error =>
    simp only [hprogram, Option.some.injEq] at hadvance
    exact .inr (.inl ⟨error, hadvance.symm, .inl rfl⟩)
  | read rest =>
    simp only [hprogram, Option.some.injEq] at hadvance
    exact .inr (.inr (.inl ⟨rest, rfl, hadvance.symm⟩))
  | lock key rest =>
    simp only [hprogram, Option.ite_none_right_eq_some, Option.some.injEq] at hadvance
    exact .inr (.inr (.inr (.inl ⟨key, rest, rfl, hadvance.1, hadvance.2.symm⟩)))
  | append make rest =>
    simp only [hprogram] at hadvance
    cases hmake : make (system.log ++ session.appended) with
    | error error =>
      simp only [hmake, Option.some.injEq] at hadvance
      exact .inr (.inl ⟨error, hadvance.symm, .inr ⟨make, rest, rfl⟩⟩)
    | ok row =>
      simp only [hmake, Option.some.injEq] at hadvance
      exact .inr (.inr (.inr (.inr ⟨make, rest, row, rfl, hmake, hadvance.symm⟩)))

omit [LE τ] [DecidableLE τ] in
/-- A statement changes where its own transaction stands only. -/
theorem status_of_advance {index other : ι} {session : Session ρ κ ε α τ} (hne : other ≠ index)
    (hadvance : system.advance index session = some next) :
    next.status other = system.status other := by
  obtain ⟨_, -, rfl⟩ | ⟨_, rfl, -⟩ | ⟨_, -, rfl⟩ | ⟨_, _, -, -, rfl⟩ | ⟨_, _, _, -, -, rfl⟩ :=
    advance_cases hadvance <;> simp [finish, setStatus, hne]

omit [LE τ] [DecidableLE τ] in
/-- A transaction that refuses goes on refusing until it gives up, and commits nothing. -/
theorem refuses_advance {index : ι} {session : Session ρ κ ε α τ} {sees : List ρ → Prop}
    {refusal : ε → Prop} (hrefuses : session.program.Refuses sees refusal)
    (hsees : sees (system.log ++ session.appended))
    (hadvance : system.advance index session = some next) :
    next.log = system.log ∧
      ((∃ rest, next.status index = .running { session with program := rest } ∧
          rest.Refuses sees refusal) ∨
        ∃ error, next.status index = .failed error ∧ refusal error) := by
  unfold advance at hadvance
  cases hprogram : session.program with
  | done result =>
    rw [hprogram] at hrefuses
    exact hrefuses.elim
  | fail error =>
    rw [hprogram] at hrefuses
    simp only [hprogram, Option.some.injEq] at hadvance
    subst hadvance
    exact ⟨rfl, .inr ⟨error, by simp [finish, setStatus], hrefuses⟩⟩
  | read rest =>
    rw [hprogram] at hrefuses
    simp only [hprogram, Option.some.injEq] at hadvance
    subst hadvance
    exact ⟨rfl, .inl ⟨_, by simp [setStatus], hrefuses _ hsees⟩⟩
  | lock key rest =>
    rw [hprogram] at hrefuses
    exact hrefuses.elim
  | append make rest =>
    rw [hprogram] at hrefuses
    exact hrefuses.elim

/-- A transaction that has committed stays committed. -/
theorem isCommitted_of_step {index : ι} (hcommitted : (system.status index).isCommitted = true)
    (hstep : system.step request action = some next) :
    (next.status index).isCommitted = true := by
  obtain ⟨other, -, hwaiting, rfl⟩ | ⟨other, session, -, hrunning, hadvance⟩ | ⟨_, -, -, rfl⟩ :=
    step_cases hstep
  · have hne : index ≠ other := by
      rintro rfl
      simp [hwaiting, Status.isCommitted] at hcommitted
    simpa [setStatus, hne] using hcommitted
  · have hne : index ≠ other := by
      rintro rfl
      simp [hrunning, Status.isCommitted] at hcommitted
    rwa [status_of_advance hne hadvance]
  · exact hcommitted

/-- The log is only ever appended to. -/
theorem log_prefix_of_step (hstep : system.step request action = some next) :
    system.log <+: next.log := by
  obtain ⟨_, -, -, rfl⟩ | ⟨index, session, -, -, hadvance⟩ | ⟨_, -, -, rfl⟩ := step_cases hstep
  · exact List.prefix_rfl
  · obtain ⟨_, -, rfl⟩ | ⟨_, rfl, -⟩ | ⟨_, -, rfl⟩ | ⟨_, _, -, -, rfl⟩ | ⟨_, _, _, -, -, rfl⟩ :=
      advance_cases hadvance
    · exact List.prefix_append _ _
    all_goals exact List.prefix_rfl
  · exact List.prefix_rfl

end Cases

/-! ### What transactions ensure in every schedule -/

section Ensured

variable [LE τ] [DecidableLE τ] {request : ι → τ → Program ρ κ ε α}

/-- Every running transaction still ensures what its program ensured when it started. -/
def Ensured (post : ι → τ → α → List ρ → Prop) (system : System ι ρ κ ε α τ) : Prop :=
  ∀ index session, system.status index = .running session →
    session.program.Ensures (post index session.startedAt) session.appended

omit [DecidableEq ι] [DecidableEq κ] [LE τ] [DecidableLE τ] in
theorem Ensured.of_frame {post : ι → τ → α → List ρ → Prop} {system next : System ι ρ κ ε α τ}
    (hensured : system.Ensured post) (index : ι)
    (hframe : ∀ other, other ≠ index → next.status other = system.status other)
    (hown : ∀ session, next.status index = .running session →
      session.program.Ensures (post index session.startedAt) session.appended) :
    next.Ensured post := by
  intro other session hother
  by_cases hsame : other = index
  · subst hsame
    exact hown session hother
  · exact hensured other session (hframe other hsame ▸ hother)

theorem Ensured.step {post : ι → τ → α → List ρ → Prop} {system next : System ι ρ κ ε α τ}
    {action : Action ι τ} (hensured : system.Ensured post)
    (hrequest : ∀ index now, (request index now).Ensures (post index now) [])
    (hstep : system.step request action = some next) : next.Ensured post := by
  obtain ⟨index, -, -, rfl⟩ | ⟨index, session, -, hrunning, hadvance⟩ | ⟨_, -, -, rfl⟩ :=
    step_cases hstep
  · refine hensured.of_frame index (fun other hne ↦ by simp [setStatus, hne]) fun session hsession ↦ ?_
    simp only [setStatus, Function.update_self, Status.running.injEq] at hsession
    subst hsession
    exact hrequest index system.clock
  · have hsession := hensured index session hrunning
    refine hensured.of_frame index (fun other hne ↦ status_of_advance hne hadvance) ?_
    obtain ⟨_, -, rfl⟩ | ⟨_, rfl, -⟩ | ⟨rest, hprogram, rfl⟩ | ⟨_, rest, hprogram, -, rfl⟩ |
      ⟨make, rest, row, hprogram, hmake, rfl⟩ := advance_cases hadvance
    · simp [finish, setStatus]
    · simp [finish, setStatus]
    all_goals
      intro later hlater
      simp only [setStatus, Function.update_self, Status.running.injEq] at hlater
      subst hlater
      rw [hprogram] at hsession
    · exact hsession _
    · exact hsession
    · exact hsession _ row hmake
  · exact hensured

end Ensured

end System

end DocStore.Foundation
