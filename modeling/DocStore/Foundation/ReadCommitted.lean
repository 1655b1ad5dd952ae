import DocStore.Foundation.Transition
import Mathlib.Logic.Function.Basic

/-!
# Sessions at READ COMMITTED

Sessions work on shared rows in transactions at the isolation level READ COMMITTED. A statement
chooses its rows in a snapshot, which shows what is committed when the statement starts and what the
session has written itself. It then writes row by row: it waits for a row that another session has
written and not yet committed, and what it does to a row it does to the newest version, which it
checks again; rows that were added after its snapshot it does not see. An insertion waits for
uncommitted rows with which it would clash, and fails at committed ones. A commit makes what a
session has written visible to all; a rollback drops it.

`progress_of_step` says what one step does. `Keeps.of_steps` is the rule for what a session knows
about its own writes, whatever the other sessions do.
-/

set_option autoImplicit false
set_option relaxedAutoImplicit false

namespace DocStore.Foundation.ReadCommitted

variable {ι κ ρ φ : Type}

/-! ### Rows -/

/-- Rows under keys: the committed ones, and the uncommitted ones with the session that wrote them.
All keys that are taken are among the listed ones. -/
structure Tables (ι κ ρ : Type) where
  keys : List κ
  committed : κ → Option ρ
  pending : κ → Option (ι × ρ)
  covers : ∀ key, (committed key).isSome ∨ (pending key).isSome → key ∈ keys

/-- What a statement sees when it starts. -/
structure Snapshot (κ ρ : Type) where
  keys : List κ
  row : κ → Option ρ

/-- The keys of the rows with a property. -/
def Snapshot.select (snapshot : Snapshot κ ρ) (selected : κ → ρ → Bool) : List κ :=
  snapshot.keys.filter fun key ↦ (snapshot.row key).any (selected key)

namespace Tables

variable [DecidableEq ι] (tables : Tables ι κ ρ) (index : ι)

/-- What a session has written and not yet committed. -/
def own (key : κ) : Option ρ :=
  (tables.pending key).bind fun entry ↦ if entry.1 = index then some entry.2 else none

/-- What a session sees: its own version of a row, or else the committed one. -/
def view (key : κ) : Option ρ := (tables.own index key).or (tables.committed key)

/-- What a session sees, as a whole. -/
def snapshot : Snapshot κ ρ where
  keys := tables.keys
  row := tables.view index

/-- Whether another session has written a row and not yet committed it. -/
def locked (key : κ) : Bool := (tables.pending key).any fun entry ↦ entry.1 ≠ index

/-- Drops what a session has written. -/
def rollback : Tables ι κ ρ where
  keys := tables.keys
  committed := tables.committed
  pending key := (tables.pending key).bind fun entry ↦
    if entry.1 = index then none else some entry
  covers key hkey := by
    refine tables.covers key (hkey.imp_right fun hsome ↦ ?_)
    obtain ⟨_, hentry⟩ := Option.isSome_iff_exists.mp hsome
    obtain ⟨entry, hentry, -⟩ := Option.bind_eq_some_iff.mp hentry
    exact Option.isSome_iff_exists.mpr ⟨entry, hentry⟩

/-- Makes what a session has written visible to all. -/
def commit : Tables ι κ ρ where
  keys := tables.keys
  committed := tables.view index
  pending := (tables.rollback index).pending
  covers key hkey := by
    rcases hkey with hview | hpending
    · refine tables.covers key ?_
      by_contra hnone
      rw [not_or, Option.not_isSome_iff_eq_none, Option.not_isSome_iff_eq_none] at hnone
      simp [view, own, hnone.1, hnone.2] at hview
    · exact (tables.rollback index).covers key (Or.inr hpending)

/-- Writes a row. -/
def write [DecidableEq κ] (key : κ) (row : ρ) : Tables ι κ ρ where
  keys := tables.keys.insert key
  committed := tables.committed
  pending := Function.update tables.pending key (some (index, row))
  covers other hother := by
    by_cases hkey : other = key
    · exact hkey ▸ List.mem_insert_self
    · rw [Function.update_of_ne hkey] at hother
      exact List.mem_insert_of_mem (tables.covers other hother)

/-! ### What a session sees -/

variable {tables index}

@[simp] theorem committed_rollback : (tables.rollback index).committed = tables.committed :=
  rfl

@[simp] theorem committed_commit : (tables.commit index).committed = tables.view index :=
  rfl

@[simp] theorem own_rollback : (tables.rollback index).own index = fun _ ↦ none := by
  funext key
  cases hpending : tables.pending key with
  | none => simp [own, rollback, hpending]
  | some entry => by_cases hwriter : entry.1 = index <;> simp [own, rollback, hpending, hwriter]

theorem own_rollback_of_ne {other : ι} (hne : other ≠ index) :
    (tables.rollback index).own other = tables.own other := by
  funext key
  cases hpending : tables.pending key with
  | none => simp [own, rollback, hpending]
  | some entry =>
    by_cases hwriter : entry.1 = index
    · simp [own, rollback, hpending, hwriter, hne.symm]
    · simp [own, rollback, hpending, hwriter]

@[simp] theorem own_commit : (tables.commit index).own index = fun _ ↦ none :=
  own_rollback

theorem own_commit_of_ne {other : ι} (hne : other ≠ index) :
    (tables.commit index).own other = tables.own other :=
  own_rollback_of_ne hne

theorem own_eq_some {key : κ} {row : ρ} :
    tables.own index key = some row ↔ tables.pending key = some (index, row) := by
  constructor
  · intro hown
    obtain ⟨⟨writer, written⟩, hpending, hwriter⟩ := Option.bind_eq_some_iff.mp hown
    obtain ⟨rfl, hrow⟩ := Option.ite_none_right_eq_some.mp hwriter
    exact hpending.trans (congrArg (fun row ↦ some (writer, row)) (Option.some.inj hrow))
  · intro hpending
    simp [own, hpending]

/-- What one session has written, no other one has. -/
theorem own_eq_none {other : ι} {key : κ} {row : ρ} (hown : tables.own index key = some row)
    (hne : other ≠ index) : tables.own other key = none := by
  simp [own, own_eq_some.mp hown, hne.symm]

theorem view_of_own {key : κ} {row : ρ} (hown : tables.own index key = some row) :
    tables.view index key = some row := by
  rw [view, hown, Option.some_or]

theorem locked_of_own {other : ι} {key : κ} {row : ρ} (hown : tables.own index key = some row)
    (hne : other ≠ index) : tables.locked other key = true := by
  simp [locked, own_eq_some.mp hown, hne.symm]

theorem mem_keys_of_view {key : κ} {row : ρ} (hview : tables.view index key = some row) :
    key ∈ tables.keys := by
  refine (tables.commit index).covers key (Or.inl ?_)
  rw [committed_commit, hview, Option.isSome_some]

/-- A statement selects every row with its property that the session sees. -/
theorem mem_select {selected : κ → ρ → Bool} {key : κ} :
    key ∈ (tables.snapshot index).select selected ↔
      ∃ row, tables.view index key = some row ∧ selected key row = true := by
  rw [Snapshot.select, List.mem_filter]
  constructor
  · rintro ⟨-, hselected⟩
    obtain ⟨row, hrow, hselected⟩ := (Option.any_eq_true _ _).mp hselected
    exact ⟨row, hrow, hselected⟩
  · rintro ⟨row, hrow, hselected⟩
    refine ⟨mem_keys_of_view hrow, ?_⟩
    exact (Option.any_eq_true _ _).mpr ⟨row, hrow, hselected⟩

end Tables

/-! ### Writing a row -/

/-- What a statement does with one row. An update changes the newest version, unless that one does
not qualify any more; an insertion clashes with rows under its key and with those that it names. -/
inductive Operation (κ ρ : Type) where
  | update (key : κ) (change : ρ → Option ρ)
  | insert (key : κ) (row : ρ) (clashes : ρ → Bool)
  | upsert (key : κ) (row : ρ) (change : ρ → ρ)

/-- The key of the row that is written. -/
def Operation.key : Operation κ ρ → κ
  | update key _ | insert key _ _ | upsert key _ _ => key

/-- The row that is written. -/
def Operation.result (view : κ → Option ρ) : Operation κ ρ → Option ρ
  | update key change => (view key).bind change
  | insert _ row _ => some row
  | upsert key row change => some (((view key).map change).getD row)

/-- The operations of an update that gives a new version to the rows which the snapshot shows as
qualified. -/
def Snapshot.update (snapshot : Snapshot κ ρ) (change : ρ → Option ρ) : List (Operation κ ρ) :=
  (snapshot.select fun _ row ↦ (change row).isSome).map fun key ↦ .update key change

/-- A row that is inserted does not clash with what the session has written before. -/
def Operation.Fits (own : κ → Option ρ) : Operation κ ρ → Prop
  | update _ _ | upsert _ _ _ => True
  | insert key _ clashes => ∀ other old, own other = some old → other ≠ key ∧ clashes old = false

namespace Tables

variable [DecidableEq ι] [DecidableEq κ] (tables : Tables ι κ ρ) (index : ι)

/-- Whether a session has to wait for another one before it writes a row. -/
def blocks : Operation κ ρ → Bool
  | .update key _ | .upsert key _ _ => tables.locked index key
  | .insert key _ clashes => tables.keys.any fun other ↦ tables.locked index other &&
      (other = key || (tables.committed other).any clashes ||
        (tables.pending other).any fun entry ↦ clashes entry.2)

/-- Whether an insertion fails. -/
def refuses : Operation κ ρ → Bool
  | .update _ _ | .upsert _ _ _ => false
  | .insert key _ clashes => tables.keys.any fun other ↦
      (tables.view index other).any fun row ↦ other = key || clashes row

/-- The rows after an operation. -/
def written (operation : Operation κ ρ) : Tables ι κ ρ :=
  match operation.result (tables.view index) with
  | some row => tables.write index operation.key row
  | none => tables

variable {tables index}

theorem own_write (key : κ) (row : ρ) :
    (tables.write index key row).own index = Function.update (tables.own index) key (some row) := by
  funext other
  by_cases hkey : other = key
  · subst hkey
    simp [own, write]
  · simp [own, write, Function.update_of_ne hkey]

/-- A row that no other session has written may be written without another session noticing. -/
theorem own_write_of_ne {key : κ} (hfree : tables.locked index key = false) (row : ρ) {other : ι}
    (hne : other ≠ index) : (tables.write index key row).own other = tables.own other := by
  funext wanted
  by_cases hkey : wanted = key
  · subst hkey
    have hnone : tables.own other wanted = none := by
      cases hpending : tables.pending wanted with
      | none => simp [own, hpending]
      | some entry =>
        have hwriter : entry.1 = index := by simpa [locked, hpending] using hfree
        simp [own, hpending, hwriter, hne.symm]
    rw [hnone]
    simp [own, write, hne.symm]
  · simp [own, write, Function.update_of_ne hkey]

/-- A session that does not wait writes a row that no other session has written. -/
theorem locked_key_eq_false {operation : Operation κ ρ}
    (hblocks : tables.blocks index operation = false) :
    tables.locked index operation.key = false := by
  cases operation with
  | update key change => exact hblocks
  | upsert key row change => exact hblocks
  | insert key row clashes =>
    by_contra hlocked
    have hlocked : tables.locked index key = true := Bool.not_eq_false _ ▸ hlocked
    have hmem : key ∈ tables.keys := by
      refine tables.covers key (Or.inr ?_)
      obtain ⟨entry, hentry, -⟩ := (Option.any_eq_true _ _).mp hlocked
      rw [hentry, Option.isSome_some]
    exact List.any_eq_false.mp hblocks key hmem (by simp [hlocked])

@[simp] theorem committed_written (operation : Operation κ ρ) :
    (tables.written index operation).committed = tables.committed := by
  unfold written
  split <;> rfl

theorem own_written_of_key_ne {operation : Operation κ ρ} {key : κ} (hkey : key ≠ operation.key) :
    (tables.written index operation).own index key = tables.own index key := by
  unfold written
  split
  · rw [own_write, Function.update_of_ne hkey]
  · rfl

theorem own_written_key {operation : Operation κ ρ} {row : ρ}
    (hresult : operation.result (tables.view index) = some row) :
    (tables.written index operation).own index operation.key = some row := by
  rw [written, hresult, own_write, Function.update_self]

/-- What a session finds among its rows after an operation it had written before, or it is the
result. -/
theorem own_written_eq_some {operation : Operation κ ρ} {key : κ} {row : ρ}
    (hown : (tables.written index operation).own index key = some row) :
    tables.own index key = some row ∨
      key = operation.key ∧ operation.result (tables.view index) = some row := by
  by_cases hkey : key = operation.key
  · subst hkey
    cases hresult : operation.result (tables.view index) with
    | some result =>
      rw [own_written_key hresult] at hown
      exact Or.inr ⟨rfl, hown⟩
    | none =>
      rw [written, hresult] at hown
      exact Or.inl hown
  · rw [own_written_of_key_ne hkey] at hown
    exact Or.inl hown

/-- A session keeps the rows that it has written. -/
theorem own_written_ne_none {operation : Operation κ ρ} {key : κ}
    (hown : tables.own index key ≠ none) :
    (tables.written index operation).own index key ≠ none := by
  unfold written
  split
  · rw [own_write]
    by_cases hkey : key = operation.key
    · rw [hkey, Function.update_self]
      exact Option.some_ne_none _
    · rw [Function.update_of_ne hkey]
      exact hown
  · exact hown

theorem own_written_of_ne {operation : Operation κ ρ}
    (hblocks : tables.blocks index operation = false) {other : ι} (hne : other ≠ index) :
    (tables.written index operation).own other = tables.own other := by
  unfold written
  split
  · exact own_write_of_ne (locked_key_eq_false hblocks) _ hne
  · rfl

/-- An insertion that neither waits nor fails finds no row with which it clashes, written by any
session. -/
theorem not_clashes_of_insert {key : κ} {row : ρ} {clashes : ρ → Bool}
    (hblocks : tables.blocks index (.insert key row clashes) = false)
    (hrefuses : tables.refuses index (.insert key row clashes) = false) {other : κ} {old : ρ}
    (hthere : (tables.committed other = some old ∧ tables.own index other = none) ∨
      ∃ writer, tables.own writer other = some old) : other ≠ key ∧ clashes old = false := by
  have hmem : other ∈ tables.keys := by
    refine tables.covers other ?_
    rcases hthere with ⟨hcommitted, -⟩ | ⟨writer, hown⟩
    · exact Or.inl (hcommitted ▸ rfl)
    · exact Or.inr (own_eq_some.mp hown ▸ rfl)
  have hwaits := List.any_eq_false.mp hblocks other hmem
  have hfails := List.any_eq_false.mp hrefuses other hmem
  rcases hthere with ⟨hcommitted, hnone⟩ | ⟨writer, hown⟩
  · have hview : tables.view index other = some old := by rw [view, hnone, hcommitted, Option.none_or]
    simpa [hview] using hfails
  · by_cases hwriter : writer = index
    · have hview : tables.view index other = some old := by
        rw [view, ← hwriter, hown, Option.some_or]
      simpa [hview] using hfails
    · have hlocked := locked_of_own hown (Ne.symm hwriter)
      simp only [hlocked, Bool.true_and, own_eq_some.mp hown, Option.any_some, Bool.or_eq_true,
        decide_eq_true_eq, not_or, Bool.not_eq_true] at hwaits
      exact ⟨hwaits.1.1, hwaits.2⟩

omit [DecidableEq κ] in
theorem mem_update {change : ρ → Option ρ} {operation : Operation κ ρ} :
    operation ∈ (tables.snapshot index).update change ↔ ∃ key row,
      tables.view index key = some row ∧ (change row).isSome ∧ operation = .update key change := by
  simp only [Snapshot.update, List.mem_map, mem_select]
  constructor
  · rintro ⟨key, ⟨row, hrow, hchange⟩, rfl⟩
    exact ⟨key, row, hrow, hchange, rfl⟩
  · rintro ⟨key, row, hrow, hchange, rfl⟩
    exact ⟨key, ⟨row, hrow, hchange⟩, rfl⟩

theorem fits_own {operation : Operation κ ρ} (hblocks : tables.blocks index operation = false)
    (hrefuses : tables.refuses index operation = false) : operation.Fits (tables.own index) := by
  cases operation with
  | update key change => trivial
  | upsert key row change => trivial
  | insert key row clashes =>
    exact fun _ _ hown ↦ not_clashes_of_insert hblocks hrefuses (Or.inr ⟨index, hown⟩)

end Tables

/-! ### Sessions -/

/-- What a session does next: it executes a statement, which writes some rows, or it ends its
transaction. -/
inductive Statement (κ ρ φ : Type) where
  | execute (operations : List (Operation κ ρ)) (next : φ)
  | commit (next : φ)
  | rollback (next : φ)
  | finished

/-- Where a session stands: its phase, and what its statement has still to write. -/
structure Session (κ ρ φ : Type) where
  phase : φ
  operations : List (Operation κ ρ) := []

/-- Sessions that work on shared rows. -/
structure System (ι κ ρ φ : Type) where
  tables : Tables ι κ ρ
  session : ι → Session κ ρ φ

/-- What the sessions do: the next statement of a phase, which depends on what the session sees, and
the phase of a session whose transaction was aborted. -/
structure Protocol (ι κ ρ φ : Type) where
  statement : ι → φ → Snapshot κ ρ → Statement κ ρ φ
  abandoned : φ

/-- What can happen next: a session goes on, or its transaction is aborted. -/
inductive Action (ι : Type) where
  | run (index : ι)
  | abort (index : ι)

/-- The session of an action. -/
def Action.index : Action ι → ι
  | run index | abort index => index

namespace Protocol

variable [DecidableEq ι] [DecidableEq κ] (protocol : Protocol ι κ ρ φ) (system : System ι κ ρ φ)
  (index : ι)

/-- What a session does when its last statement is complete. -/
def next : Statement κ ρ φ :=
  protocol.statement index (system.session index).phase (system.tables.snapshot index)

/-- Whether a session has nothing to do any more. -/
def isFinished : Bool :=
  (system.session index).operations.isEmpty && match protocol.next system index with
    | .finished => true
    | _ => false

/-- Aborts the transaction of a session. -/
def abandon : System ι κ ρ φ where
  tables := system.tables.rollback index
  session := Function.update system.session index { phase := protocol.abandoned }

/-- One step of the system. A session that has to wait does not go on; an insertion that fails
aborts the transaction. -/
def step : Action ι → Option (System ι κ ρ φ)
  | .abort index =>
    if protocol.isFinished system index then none else some (protocol.abandon system index)
  | .run index =>
    let session := system.session index
    match session.operations with
    | operation :: rest =>
      if system.tables.blocks index operation then none
      else if system.tables.refuses index operation then some (protocol.abandon system index)
      else some
        { tables := system.tables.written index operation
          session := Function.update system.session index { session with operations := rest } }
    | [] =>
      match protocol.next system index with
      | .execute operations next => some
        { system with session := Function.update system.session index { phase := next, operations } }
      | .commit next => some
        { tables := system.tables.commit index
          session := Function.update system.session index { phase := next } }
      | .rollback next => some
        { tables := system.tables.rollback index
          session := Function.update system.session index { phase := next } }
      | .finished => none

/-- What a step makes of a system, when it is one of a session. -/
inductive Progress : System ι κ ρ φ → Prop where
  | abandon (hunfinished : protocol.isFinished system index = false) :
    Progress (protocol.abandon system index)
  | perform {operation : Operation κ ρ} {rest : List (Operation κ ρ)}
    (hoperations : (system.session index).operations = operation :: rest)
    (hblocks : system.tables.blocks index operation = false)
    (hrefuses : system.tables.refuses index operation = false) :
    Progress
      { tables := system.tables.written index operation
        session := Function.update system.session index
          { system.session index with operations := rest } }
  | start {operations : List (Operation κ ρ)} {next : φ}
    (hcomplete : (system.session index).operations = [])
    (hstatement : protocol.next system index = .execute operations next) :
    Progress
      { system with session := Function.update system.session index { phase := next, operations } }
  | commit {next : φ} (hcomplete : (system.session index).operations = [])
    (hstatement : protocol.next system index = .commit next) :
    Progress
      { tables := system.tables.commit index
        session := Function.update system.session index { phase := next } }
  | rollback {next : φ} (hcomplete : (system.session index).operations = [])
    (hstatement : protocol.next system index = .rollback next) :
    Progress
      { tables := system.tables.rollback index
        session := Function.update system.session index { phase := next } }

variable {protocol system} {action : Action ι} {next : System ι κ ρ φ}

/-- **What one step does.** -/
theorem progress_of_step (hstep : protocol.step system action = some next) :
    protocol.Progress system action.index next := by
  cases action with
  | abort index =>
    obtain ⟨hunfinished, hnext⟩ := Option.ite_none_left_eq_some.mp hstep
    cases hnext
    exact .abandon (Bool.not_eq_true _ ▸ hunfinished)
  | run index =>
    unfold step at hstep
    dsimp only at hstep
    split at hstep
    next operation rest hoperations =>
      obtain ⟨hblocks, hstep⟩ := Option.ite_none_left_eq_some.mp hstep
      split at hstep
      next hrefuses =>
        cases hstep
        exact .abandon (by simp [isFinished, Action.index, hoperations])
      next hrefuses =>
        cases hstep
        exact .perform hoperations (Bool.not_eq_true _ ▸ hblocks) (Bool.not_eq_true _ ▸ hrefuses)
    next hcomplete =>
      split at hstep
      next hstatement =>
        cases hstep
        exact .start hcomplete hstatement
      next hstatement =>
        cases hstep
        exact .commit hcomplete hstatement
      next hstatement =>
        cases hstep
        exact .rollback hcomplete hstatement
      next => cases hstep

/-- An aborted transaction is dropped. -/
theorem eq_abandon_of_abort {index : ι} (hstep : protocol.step system (.abort index) = some next) :
    next = protocol.abandon system index :=
  (Option.some.inj (Option.ite_none_left_eq_some.mp hstep).2).symm

/-- A step of a session changes no other session, and no row that another session has written. -/
theorem Progress.frame {index other : ι} (hprogress : protocol.Progress system index next)
    (hne : other ≠ index) :
    next.session other = system.session other ∧ next.tables.own other = system.tables.own other := by
  cases hprogress with
  | abandon hunfinished => exact ⟨Function.update_of_ne hne _ _, Tables.own_rollback_of_ne hne⟩
  | perform hoperations hblocks hrefuses =>
    exact ⟨Function.update_of_ne hne _ _, Tables.own_written_of_ne hblocks hne⟩
  | start hcomplete hstatement => exact ⟨Function.update_of_ne hne _ _, rfl⟩
  | commit hcomplete hstatement =>
    exact ⟨Function.update_of_ne hne _ _, Tables.own_commit_of_ne hne⟩
  | rollback hcomplete hstatement =>
    exact ⟨Function.update_of_ne hne _ _, Tables.own_rollback_of_ne hne⟩

/-! ### What a session knows about its own writes -/

/-- A property of a session and of what it has written holds whatever the other sessions do. -/
structure Keeps (protocol : Protocol ι κ ρ φ)
    (kept : ι → Session κ ρ φ → (κ → Option ρ) → Prop) : Prop where
  start : ∀ index phase own snapshot operations next, kept index { phase } own →
    protocol.statement index phase snapshot = .execute operations next →
    kept index { phase := next, operations } own
  perform : ∀ index phase operation rest own view,
    kept index { phase, operations := operation :: rest } own →
    (∀ key row, own key = some row → view key = some row) → operation.Fits own →
    match operation.result view with
    | some row => kept index { phase, operations := rest } (Function.update own operation.key (some row))
    | none => kept index { phase, operations := rest } own
  ended : ∀ index phase own snapshot next, kept index { phase } own →
    protocol.statement index phase snapshot = .commit next ∨
      protocol.statement index phase snapshot = .rollback next →
    kept index { phase := next } fun _ ↦ none
  abandoned : ∀ index, kept index { phase := protocol.abandoned } fun _ ↦ none

/-- What a step keeps. -/
theorem Keeps.of_step {kept : ι → Session κ ρ φ → (κ → Option ρ) → Prop}
    (hkeeps : protocol.Keeps kept) (hstep : protocol.step system action = some next)
    (hkept : ∀ index, kept index (system.session index) (system.tables.own index)) (index : ι) :
    kept index (next.session index) (next.tables.own index) := by
  have hprogress := progress_of_step hstep
  by_cases hindex : index = action.index
  · subst hindex
    have hbefore := hkept action.index
    have hsession : ∀ {operations}, (system.session action.index).operations = operations →
        system.session action.index = { phase := (system.session action.index).phase, operations } :=
      fun hoperations ↦ hoperations ▸ rfl
    cases hprogress with
    | abandon hunfinished =>
      simp only [abandon, Function.update_self, Tables.own_rollback]
      exact hkeeps.abandoned _
    | @perform operation rest hoperations hblocks hrefuses =>
      rw [hsession hoperations] at hbefore
      simp only [Function.update_self]
      have hperform := hkeeps.perform _ _ _ _ _ (system.tables.view action.index) hbefore
        (fun _ _ hown ↦ Tables.view_of_own hown) (Tables.fits_own hblocks hrefuses)
      unfold Tables.written
      split at hperform
      next row hresult =>
        rw [Tables.own_write]
        exact hperform
      next hresult => exact hperform
    | start hcomplete hstatement =>
      rw [hsession hcomplete] at hbefore
      simp only [Function.update_self]
      exact hkeeps.start _ _ _ _ _ _ hbefore hstatement
    | commit hcomplete hstatement =>
      rw [hsession hcomplete] at hbefore
      simp only [Function.update_self, Tables.own_commit]
      exact hkeeps.ended _ _ _ _ _ hbefore (Or.inl hstatement)
    | rollback hcomplete hstatement =>
      rw [hsession hcomplete] at hbefore
      simp only [Function.update_self, Tables.own_rollback]
      exact hkeeps.ended _ _ _ _ _ hbefore (Or.inr hstatement)
  · obtain ⟨hsession, hown⟩ := hprogress.frame hindex
    rw [hsession, hown]
    exact hkept index

/-- What a run keeps. -/
theorem Keeps.of_steps {kept : ι → Session κ ρ φ → (κ → Option ρ) → Prop}
    (hkeeps : protocol.Keeps kept) {allowed : System ι κ ρ φ → Action ι → Prop}
    {initial final : System ι κ ρ φ} (hrun : Steps protocol.step allowed initial final)
    (hinitial : ∀ index, kept index (initial.session index) (initial.tables.own index))
    (index : ι) : kept index (final.session index) (final.tables.own index) :=
  hrun.invariant (motive := fun system ↦
      ∀ index, kept index (system.session index) (system.tables.own index)) hinitial
    (fun _ _ _ hbefore _ hstep ↦ hkeeps.of_step hstep hbefore) index

end Protocol

end DocStore.Foundation.ReadCommitted
