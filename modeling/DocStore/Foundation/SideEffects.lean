import DocStore.Foundation.Connection

/-!
# Side effects of transactions

A program may change something outside the database while a transaction is open. `Job` is a script
that works in a `World`, a connection beside such a thing. A rollback restores the database and
nothing else: `ending_transaction` says how a transaction ends, and in every ending but a refused
`BEGIN` what is outside is what the body has left there.
-/

set_option autoImplicit false
set_option relaxedAutoImplicit false

namespace DocStore.Foundation

variable {δ σ ε α β : Type}

/-! ### Scripts that succeed -/

/-- The connection behind some statements. -/
def Connection.skip (connection : Connection σ ε) (statements : ℕ) : Connection σ ε :=
  { connection with faults := fun index ↦ connection.faults (index + statements) }

namespace Script

variable {script : Script σ ε α} {connection after : Connection σ ε} {value : α} {result : β}

theorem pure_eq_ok {other : α} :
    (pure value : Script σ ε α) connection = (.ok other, after) ↔
      other = value ∧ after = connection := by
  constructor
  · intro hpure
    cases hpure
    exact ⟨rfl, rfl⟩
  · rintro ⟨rfl, rfl⟩
    rfl

theorem lift_eq_ok {computation : Except ε α} :
    (lift computation : Script σ ε α) connection = (.ok value, after) ↔
      computation = .ok value ∧ after = connection := by
  rw [lift, Prod.mk.injEq, eq_comm (a := connection)]

/-- A sequence succeeds when both of its scripts do. -/
theorem bind_eq_ok {next : α → Script σ ε β} :
    (script >>= next) connection = (.ok result, after) ↔
      ∃ value middle, script connection = (.ok value, middle) ∧
        next value middle = (.ok result, after) := by
  rcases hscript : script connection with ⟨failure | value, middle⟩
  · rw [bind_of_error (congrArg Prod.fst hscript)]
    simp
  · rw [bind_of_ok (congrArg Prod.fst hscript), hscript]
    constructor
    · exact fun hnext ↦ ⟨value, middle, rfl, hnext⟩
    · rintro ⟨_, _, heq, hnext⟩
      cases heq
      exact hnext

/-- A statement succeeds in an open transaction when nothing goes wrong and its effect does. -/
theorem statement_eq_ok [Inhabited ε] {effect : σ → Except ε (σ × α)}
    (hopen : connection.aborted = false) :
    statement effect connection = (.ok value, after) ↔
      connection.faults 0 = none ∧ ∃ next, effect connection.working = .ok (next, value) ∧
        after = { connection.later with working := next } := by
  rw [statement, if_neg (Bool.eq_false_iff.mp hopen)]
  cases hfault : connection.faults 0 with
  | some fault => simp
  | none =>
    cases heffect : effect connection.working with
    | error failure => simp
    | ok written =>
      obtain ⟨next, found⟩ := written
      simp only [Prod.mk.injEq, Except.ok.injEq, true_and]
      constructor
      · rintro ⟨rfl, rfl⟩
        exact ⟨next, ⟨rfl, rfl⟩, rfl⟩
      · rintro ⟨_, ⟨rfl, rfl⟩, rfl⟩
        exact ⟨rfl, rfl⟩

/-- A statement that only reads. -/
def query [Inhabited ε] (read : σ → α) : Script σ ε α := statement fun state ↦ .ok (state, read state)

theorem query_eq_ok [Inhabited ε] {read : σ → α} (hopen : connection.aborted = false) :
    query read connection = (.ok value, after) ↔
      connection.faults 0 = none ∧ value = read connection.working ∧ after = connection.later := by
  rw [query, statement_eq_ok hopen]
  refine and_congr_right fun _ ↦ ⟨?_, ?_⟩
  · rintro ⟨next, heffect, rfl⟩
    obtain ⟨rfl, rfl⟩ := Prod.mk.inj (Except.ok.inj heffect)
    exact ⟨rfl, rfl⟩
  · rintro ⟨rfl, rfl⟩
    exact ⟨connection.working, rfl, rfl⟩

theorem sound_query [Inhabited ε] (read : σ → α) :
    (query read : Script σ ε α).Sound fun before after value ↦
      after = before ∧ value = read before := by
  refine (sound_statement _).mono fun before after value heffect ↦ ?_
  obtain ⟨rfl, rfl⟩ := Prod.mk.inj (Except.ok.inj heffect)
  exact ⟨rfl, rfl⟩

end Script

/-! ### Worlds -/

/-- A connection, and what no rollback reaches. -/
structure World (δ σ ε : Type) where
  outside : δ
  connection : Connection σ ε

/-- A program that works in a world and returns or raises. -/
def Job (δ σ ε α : Type) : Type := World δ σ ε → Except ε α × World δ σ ε

namespace Job

instance : Monad (Job δ σ ε) where
  pure value := fun world ↦ (.ok value, world)
  bind job next := fun world ↦
    match job world with
    | (.ok value, after) => next value after
    | (.error failure, after) => (.error failure, after)

/-- A computation of the program alone. -/
def lift (computation : Except ε α) : Job δ σ ε α := fun world ↦ (computation, world)

/-- A script over the connection. -/
def database (script : Script σ ε α) : Job δ σ ε α := fun world ↦
  ((script world.connection).1, { world with connection := (script world.connection).2 })

/-- An action on what is outside. -/
def beside (action : δ → Except ε α × δ) : Job δ σ ε α := fun world ↦
  ((action world.outside).1, { world with outside := (action world.outside).2 })

/-- The world in which the body of a transaction starts. -/
def begun (world : World δ σ ε) : World δ σ ε :=
  { world with connection := world.connection.later.rollback }

/-- A body in a transaction of its own, which is rolled back when the body raises. -/
def transaction (body : Job δ σ ε α) : Job δ σ ε α := fun world ↦
  match world.connection.faults 0 with
  | some fault => (.error fault.failure, begun world)
  | none =>
    match body (begun world) with
    | (.error failure, after) =>
      (.error failure, { after with connection := after.connection.rollback })
    | (.ok value, after) =>
      match after.connection.faults 0 with
      | none => (.ok value, { after with connection := after.connection.later.commit })
      | some (.before failure) =>
        (.error failure, { after with connection := after.connection.later.rollback })
      | some (.after failure) =>
        (.error failure, { after with connection := after.connection.later.commit })

variable {job body : Job δ σ ε α} {world after : World δ σ ε} {value : α} {failure : ε}

/-- A job that returns goes on with the next one. -/
theorem bind_of_ok {next : α → Job δ σ ε β} {result : Except ε β × World δ σ ε}
    (hjob : job world = (.ok value, after)) (hnext : next value after = result) :
    (job >>= next) world = result := by
  show (match job world with
    | (.ok value, after) => next value after
    | (.error failure, after) => (.error failure, after)) = _
  rw [hjob]
  exact hnext

theorem bind_of_error {next : α → Job δ σ ε β} (hjob : job world = (.error failure, after)) :
    (job >>= next) world = (.error failure, after) := by
  show (match job world with
    | (.ok value, after) => next value after
    | (.error failure, after) => (.error failure, after)) = _
  rw [hjob]

theorem lift_of_eq {computation : Except ε α} {result : Except ε α}
    (hresult : computation = result) : lift computation world = (result, world) := by
  rw [lift, hresult]

theorem beside_of_eq {action : δ → Except ε α × δ} {result : Except ε α} {before outside : δ}
    (connection : Connection σ ε) (haction : action before = (result, outside)) :
    beside action ⟨before, connection⟩ = (result, ⟨outside, connection⟩) := by
  rw [beside, haction]

/-- A script that succeeds works in a job. -/
theorem database_of_ok {script : Script σ ε α} {connection : Connection σ ε}
    (hscript : script world.connection = (.ok value, connection)) :
    database script world = (.ok value, { world with connection }) := by
  rw [database, hscript]

/-- A script that raises has committed nothing. -/
theorem database_cases {script : Script σ ε α} {effect : σ → σ → α → Prop}
    (hscript : script.Sound effect) (world : World δ σ ε) :
    (∃ failure connection, script world.connection = (.error failure, connection) ∧
      database script world = (.error failure, { world with connection }) ∧
        connection.committed = world.connection.committed) ∨
    ∃ value connection, script world.connection = (.ok value, connection) ∧
      database script world = (.ok value, { world with connection }) ∧
        connection.committed = world.connection.committed := by
  have hcommitted := hscript.committed world.connection
  rcases hresult : script world.connection with ⟨failure | value, connection⟩
  · rw [hresult] at hcommitted
    exact .inl ⟨failure, connection, rfl, by rw [database, hresult], hcommitted⟩
  · rw [hresult] at hcommitted
    exact .inr ⟨value, connection, rfl, by rw [database, hresult], hcommitted⟩

/-- **How a transaction ends.** What its body did outside stays in every ending. -/
inductive Ending (body : Job δ σ ε α) (world : World δ σ ε) :
    Except ε α × World δ σ ε → Prop where
  /-- `BEGIN` is refused. -/
  | refused (fault : Fault ε) (hbegin : world.connection.faults 0 = some fault) :
    Ending body world (.error fault.failure, begun world)
  /-- The body raises. -/
  | raised (hbegin : world.connection.faults 0 = none) (failure : ε) (after : World δ σ ε)
    (hbody : body (begun world) = (.error failure, after)) :
    Ending body world (.error failure, { after with connection := after.connection.rollback })
  /-- `COMMIT` is refused. -/
  | withdrawn (hbegin : world.connection.faults 0 = none) (value : α) (after : World δ σ ε)
    (hbody : body (begun world) = (.ok value, after)) (failure : ε)
    (hcommit : after.connection.faults 0 = some (.before failure)) :
    Ending body world
      (.error failure, { after with connection := after.connection.later.rollback })
  /-- `COMMIT` takes effect, and its success is not reported. -/
  | unreported (hbegin : world.connection.faults 0 = none) (value : α) (after : World δ σ ε)
    (hbody : body (begun world) = (.ok value, after)) (failure : ε)
    (hcommit : after.connection.faults 0 = some (.after failure)) :
    Ending body world (.error failure, { after with connection := after.connection.later.commit })
  | committed (hbegin : world.connection.faults 0 = none) (value : α) (after : World δ σ ε)
    (hbody : body (begun world) = (.ok value, after)) (hcommit : after.connection.faults 0 = none) :
    Ending body world (.ok value, { after with connection := after.connection.later.commit })

theorem ending_transaction (body : Job δ σ ε α) (world : World δ σ ε) :
    Ending body world (transaction body world) := by
  unfold transaction
  split
  next fault hbegin => exact .refused fault hbegin
  next hbegin =>
    split
    next failure after hbody => exact .raised hbegin failure after hbody
    next value after hbody =>
      split
      next hcommit => exact .committed hbegin value after hbody hcommit
      next failure hcommit => exact .withdrawn hbegin value after hbody failure hcommit
      next failure hcommit => exact .unreported hbegin value after hbody failure hcommit

end Job

end DocStore.Foundation
