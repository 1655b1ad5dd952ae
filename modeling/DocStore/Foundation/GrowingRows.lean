import DocStore.Foundation.ReadCommitted

/-!
# Rows that only grow

Where sessions only update rows that are there, what an update does may be bounded by a relation
between the old and the new version of a row. Versions that are not committed then grow from the
committed ones, and a committed row is only replaced by one that has grown from it
(`Tables.Growing.of_step`). `Tables.Every.of_step` is the rule for a property of single versions.
-/

set_option autoImplicit false
set_option relaxedAutoImplicit false

namespace DocStore.Foundation.ReadCommitted

variable {ι κ ρ φ : Type} [DecidableEq ι]

/-! ### Uncommitted versions -/

theorem Tables.pending_rollback_eq_some {tables : Tables ι κ ρ} {index : ι} {key : κ}
    {entry : ι × ρ} : (tables.rollback index).pending key = some entry ↔
      tables.pending key = some entry ∧ entry.1 ≠ index := by
  show (tables.pending key).bind _ = some entry ↔ _
  cases tables.pending key with
  | none => simp
  | some old =>
    rw [Option.bind_some, Option.ite_none_left_eq_some, and_comm]
    exact and_congr_right fun heq ↦ Option.some.inj heq ▸ Iff.rfl

omit [DecidableEq ι] in
theorem Tables.pending_write_eq_some [DecidableEq κ] {tables : Tables ι κ ρ} {index : ι}
    {key other : κ} {row : ρ} {entry : ι × ρ}
    (hentry : (tables.write index key row).pending other = some entry) :
    other = key ∧ entry = (index, row) ∨ tables.pending other = some entry := by
  change Function.update tables.pending key (some (index, row)) other = some entry at hentry
  by_cases hkey : other = key
  · subst hkey
    rw [Function.update_self] at hentry
    exact Or.inl ⟨rfl, (Option.some.inj hentry).symm⟩
  · rw [Function.update_of_ne hkey] at hentry
    exact Or.inr hentry

/-! ### Every version -/

/-- Every version of every row, committed or not, has a property. -/
structure Tables.Every (tables : Tables ι κ ρ) (holds : κ → ρ → Prop) : Prop where
  committed : ∀ key row, tables.committed key = some row → holds key row
  pending : ∀ key entry, tables.pending key = some entry → holds key entry.2

namespace Tables.Every

variable {tables : Tables ι κ ρ} {index : ι} {holds : κ → ρ → Prop}

theorem view (hevery : tables.Every holds) {key : κ} {row : ρ}
    (hview : tables.view index key = some row) : holds key row := by
  rcases Option.or_eq_some_iff.mp hview with hown | ⟨-, hcommitted⟩
  · exact hevery.pending key _ (own_eq_some.mp hown)
  · exact hevery.committed key row hcommitted

theorem rollback (hevery : tables.Every holds) : (tables.rollback index).Every holds where
  committed := hevery.committed
  pending key entry hentry := hevery.pending key entry (pending_rollback_eq_some.mp hentry).1

theorem commit (hevery : tables.Every holds) : (tables.commit index).Every holds where
  committed _ _ hview := hevery.view hview
  pending := hevery.rollback.pending

omit [DecidableEq ι] in
theorem write [DecidableEq κ] (hevery : tables.Every holds) {key : κ} {row : ρ}
    (hrow : holds key row) : (tables.write index key row).Every holds where
  committed := hevery.committed
  pending other entry hentry := by
    rcases pending_write_eq_some hentry with ⟨rfl, rfl⟩ | hold
    · exact hrow
    · exact hevery.pending other entry hold

end Tables.Every

section Steps

variable [DecidableEq κ] {protocol : Protocol ι κ ρ φ} {system next : System ι κ ρ φ}
  {action : Action ι}

/-- **A property of every version is kept** when the results of the performed operations have it. -/
theorem Tables.Every.of_step {holds : κ → ρ → Prop} (hevery : system.tables.Every holds)
    (hstep : protocol.step system action = some next)
    (hresult : ∀ index operation rest row, action = .run index →
      (system.session index).operations = operation :: rest →
      operation.result (system.tables.view index) = some row → holds operation.key row) :
    next.tables.Every holds := by
  cases action with
  | abort index =>
    rw [Protocol.eq_abandon_of_abort hstep]
    exact hevery.rollback
  | run index =>
    cases Protocol.progress_of_step hstep with
    | abandon hunfinished => exact hevery.rollback
    | @perform operation rest hoperations hblocks hrefuses =>
      unfold Tables.written
      split
      next row hrow => exact hevery.write (hresult index operation rest row rfl hoperations hrow)
      next => exact hevery
    | start hcomplete hstatement => exact hevery
    | commit hcomplete hstatement => exact hevery.commit
    | rollback hcomplete hstatement => exact hevery.rollback

/-! ### Growing rows -/

variable {grows : ρ → ρ → Prop}

/-- An operation that updates a row, to one that has grown from it. -/
def Operation.Grows (grows : ρ → ρ → Prop) : Operation κ ρ → Prop
  | .update _ change => ∀ row new, change row = some new → grows row new
  | .insert _ _ _ | .upsert _ _ _ => False

/-- Versions that are not committed have grown from committed ones. -/
def Tables.Growing (tables : Tables ι κ ρ) (grows : ρ → ρ → Prop) : Prop :=
  ∀ key entry, tables.pending key = some entry →
    ∃ old, tables.committed key = some old ∧ grows old entry.2

/-- Every row of a state is there in another one, and has grown. -/
def GrownFrom (grows : ρ → ρ → Prop) (old new : κ → Option ρ) : Prop :=
  ∀ key row, old key = some row → ∃ later, new key = some later ∧ grows row later

omit [DecidableEq κ] in
/-- What a session sees has grown from what is committed. -/
theorem Tables.Growing.view {tables : Tables ι κ ρ} {index : ι} [Std.Refl grows]
    (hgrowing : tables.Growing grows) {key : κ} {row : ρ}
    (hview : tables.view index key = some row) :
    ∃ old, tables.committed key = some old ∧ grows old row := by
  rcases Option.or_eq_some_iff.mp hview with hown | ⟨-, hcommitted⟩
  · exact hgrowing key _ (Tables.own_eq_some.mp hown)
  · exact ⟨row, hcommitted, Std.Refl.refl row⟩

omit [DecidableEq κ] in
/-- What is committed grows when a session commits. -/
theorem Tables.Growing.grownFrom_view {tables : Tables ι κ ρ} {index : ι} [Std.Refl grows]
    (hgrowing : tables.Growing grows) :
    GrownFrom grows tables.committed (tables.view index) := by
  intro key row hcommitted
  cases hown : tables.own index key with
  | none => exact ⟨row, by rw [Tables.view, hown, hcommitted, Option.none_or], Std.Refl.refl row⟩
  | some version =>
    obtain ⟨old, hold, hgrown⟩ := hgrowing key _ (Tables.own_eq_some.mp hown)
    obtain rfl := Option.some.inj (hcommitted.symm.trans hold)
    exact ⟨version, Tables.view_of_own hown, hgrown⟩

omit [DecidableEq κ] in
theorem Tables.Growing.rollback {tables : Tables ι κ ρ} {index : ι}
    (hgrowing : tables.Growing grows) : (tables.rollback index).Growing grows := by
  intro key entry hentry
  exact hgrowing key entry (Tables.pending_rollback_eq_some.mp hentry).1

omit [DecidableEq κ] in
/-- What other sessions have written grows from what is committed now: no row has two writers. -/
theorem Tables.Growing.commit {tables : Tables ι κ ρ} {index : ι} (hgrowing : tables.Growing grows) :
    (tables.commit index).Growing grows := by
  intro key entry hentry
  obtain ⟨hold, hother⟩ := Tables.pending_rollback_eq_some.mp hentry
  obtain ⟨row, hcommitted, hgrown⟩ := hgrowing key entry hold
  refine ⟨row, ?_, hgrown⟩
  rw [Tables.committed_commit, Tables.view, Tables.own, hold, Option.bind_some, if_neg hother,
    Option.none_or, hcommitted]

/-- What a growing operation writes has grown from what is committed. -/
theorem Tables.Growing.written {tables : Tables ι κ ρ} {index : ι} {operation : Operation κ ρ}
    [Std.Refl grows] [IsTrans ρ grows] (hgrowing : tables.Growing grows)
    (hoperation : operation.Grows grows) : (tables.written index operation).Growing grows := by
  unfold Tables.written
  split
  next row hresult =>
    cases operation with
    | update key change =>
      obtain ⟨seen, hseen, hchange⟩ := Option.bind_eq_some_iff.mp hresult
      obtain ⟨old, hold, hgrown⟩ := hgrowing.view hseen
      intro other entry hentry
      rcases Tables.pending_write_eq_some hentry with ⟨rfl, rfl⟩ | hpending
      · exact ⟨old, hold, IsTrans.trans _ _ _ hgrown (hoperation seen row hchange)⟩
      · exact hgrowing other entry hpending
    | insert => exact absurd hoperation id
    | upsert => exact absurd hoperation id
  next => exact hgrowing

/-- **What a step leaves of growing rows**: they go on growing, and what was committed is still there
and has grown. -/
theorem Tables.Growing.of_step [Std.Refl grows] [IsTrans ρ grows]
    (hgrowing : system.tables.Growing grows)
    (hoperations : ∀ operation ∈ (system.session action.index).operations, operation.Grows grows)
    (hstep : protocol.step system action = some next) :
    next.tables.Growing grows ∧ GrownFrom grows system.tables.committed next.tables.committed := by
  have hsame : GrownFrom grows system.tables.committed system.tables.committed :=
    fun _ row hrow ↦ ⟨row, hrow, Std.Refl.refl row⟩
  cases Protocol.progress_of_step hstep with
  | abandon hunfinished => exact ⟨hgrowing.rollback, hsame⟩
  | @perform operation rest hperformed hblocks hrefuses =>
    refine ⟨hgrowing.written (hoperations operation (hperformed ▸ List.mem_cons_self)), ?_⟩
    rw [Tables.committed_written]
    exact hsame
  | start hcomplete hstatement => exact ⟨hgrowing, hsame⟩
  | commit hcomplete hstatement => exact ⟨hgrowing.commit, hgrowing.grownFrom_view⟩
  | rollback hcomplete hstatement => exact ⟨hgrowing.rollback, hsame⟩

end Steps

end DocStore.Foundation.ReadCommitted
