import DocStore.Foundation.Table
import DocStore.Temporal.Resolution

/-!
# Source states over many publications

Every publication of a document appends a source state that begins at its own time, has no end and
supersedes the whole state before. So the states of a document succeed one another in a row, and
once a later publication is known only the last one is accepted: `resolvesStates_iff` says that a
reader gets the state of an earlier time exactly when there is no later one.
-/

set_option autoImplicit false
set_option relaxedAutoImplicit false

namespace DocStore

open Foundation

/-! ### The states of a document -/

/-- The source states of a document. -/
def sourceStates (documentId : Uuid) (rows : History) : History :=
  rows.filter fun row ↦ row.objectId = documentId && row.payloadFamily = sourceStatePayloadFamily

/-- The state of the last publication that is not later than an instant. -/
def stateInForce (instant : Instant) (states : History) : Option Assertion :=
  (states.filter fun state ↦ state.recordedAt ≤ instant).getLast?

/-- Publications are the only writers of the source states of a document, and each one comes later
than the ones before. -/
def OnlyPublished (documentId : Uuid) (history : History) (write : Write) : Prop :=
  match write.writer with
  | .ingestion other _ => other = documentId →
      ∀ state ∈ sourceStates documentId history, state.recordedAt < write.context.now
  | .service _ => (commit history write).all (fun next ↦
      sourceStates documentId next = sourceStates documentId history) = true

instance (documentId : Uuid) : ∀ history write, Decidable (OnlyPublished documentId history write)
  | history, { context, writer := .ingestion other _, .. } =>
    inferInstanceAs (Decidable (other = documentId →
      ∀ state ∈ sourceStates documentId history, state.recordedAt < context.now))
  | _, { writer := .service _, .. } => inferInstanceAs (Decidable (_ = true))

/-! ### Histories whose rows point backwards -/

section Links

variable {history final : History} {now : Instant} {row : Assertion}

/-- No UUID is used twice, and an assertion supersedes assertions of its object and family only. -/
structure Linked (history : History) : Prop where
  nodup : (history.map Assertion.assertionId).Nodup
  prior : ∀ row ∈ history, ∀ assertionId, row.supersedesAssertionId = some assertionId →
    ∃ old ∈ history, old.assertionId = assertionId ∧ old.objectId = row.objectId ∧
      old.payloadFamily = row.payloadFamily

theorem Linked.append (hhistory : Linked history)
    (hfresh : ∀ old ∈ history, old.assertionId ≠ row.assertionId)
    (hprior : ∀ assertionId, row.supersedesAssertionId = some assertionId →
      ∃ old ∈ history, old.assertionId = assertionId ∧ old.objectId = row.objectId ∧
        old.payloadFamily = row.payloadFamily) : Linked (history ++ [row]) where
  nodup := nodup_map_append_singleton hhistory.nodup hfresh
  prior := by
    intro later hmem assertionId hsupersedes
    have hlater : ∃ old ∈ history, old.assertionId = assertionId ∧
        old.objectId = later.objectId ∧ old.payloadFamily = later.payloadFamily := by
      rcases List.mem_append.mp hmem with hold | hnew
      · exact hhistory.prior later hold assertionId hsupersedes
      · rw [List.mem_singleton.mp hnew] at hsupersedes ⊢
        exact hprior assertionId hsupersedes
    obtain ⟨old, hold, hsame⟩ := hlater
    exact ⟨old, List.mem_append_left _ hold, hsame⟩

theorem Linked.guarded (hhistory : Linked history) (hguarded : Guarded now history final) :
    Linked final :=
  hguarded.keeps hhistory fun _ _ hlog hrow ↦ hlog.append hrow.fresh hrow.prior

/-- A state is superseded by states of its document only. -/
theorem Linked.isSuperseded_sourceStates (hhistory : Linked history) {documentId : Uuid}
    {state : Assertion} (hmem : state ∈ sourceStates documentId history) :
    isSuperseded (sourceStates documentId history) state.assertionId =
      isSuperseded history state.assertionId := by
  obtain ⟨hstate, hdocument⟩ := List.mem_filter.mp hmem
  rw [Bool.eq_iff_iff, isSuperseded, isSuperseded, isSucceeded, isSucceeded, List.any_eq_true,
    List.any_eq_true]
  constructor
  · rintro ⟨later, hlater, hsupersedes⟩
    exact ⟨later, (List.mem_filter.mp hlater).1, hsupersedes⟩
  · rintro ⟨later, hlater, hsupersedes⟩
    obtain ⟨old, hold, hid, hobject, hfamily⟩ :=
      hhistory.prior later hlater state.assertionId (of_decide_eq_true hsupersedes)
    obtain rfl : old = state := List.inj_on_of_nodup_map hhistory.nodup hold hstate hid
    refine ⟨later, List.mem_filter.mpr ⟨hlater, ?_⟩, hsupersedes⟩
    rw [← hobject, ← hfamily]
    exact hdocument

end Links

/-! ### What the writers keep -/

section Publishing

variable {documentId : Uuid} {history final : History} {objects : Objects} {context : TxContext}
  {acceptance : Acceptance} {row : Assertion}

/-- What holds of the states of a document that publications alone have written: each one
supersedes the one before, and holds from its own time on. -/
structure Republished (documentId : Uuid) (history : History) : Prop where
  linked : Linked history
  succession : Succession Assertion.assertionId Assertion.supersedesAssertionId
    (sourceStates documentId history)
  later : (sourceStates documentId history).Pairwise fun earlier state ↦
    earlier.recordedAt < state.recordedAt
  opened : ∀ state ∈ sourceStates documentId history, state.assertionKind ≠ .deletion ∧
    state.effective = { start := state.recordedAt, stop := none }

/-- The accepted states of a document are its last one. -/
theorem Republished.acceptedPayloadRows (hhistory : Republished documentId history) :
    acceptedPayloadRowsInFamily documentId sourceStatePayloadFamily history =
      (sourceStates documentId history).getLast?.toList := by
  rw [← hhistory.succession.liveRows_eq, liveRows, acceptedPayloadRowsInFamily, acceptedRows,
    liveRows, sourceStates, List.filter_filter, List.filter_filter]
  refine List.filter_congr fun state hmem ↦ ?_
  by_cases hdocument : state ∈ sourceStates documentId history
  · have hsame : isSucceeded Assertion.supersedesAssertionId (sourceStates documentId history)
        state.assertionId = isSucceeded Assertion.supersedesAssertionId history state.assertionId :=
      hhistory.linked.isSuperseded_sourceStates hdocument
    have hkind := (hhistory.opened state hdocument).1
    rw [← sourceStates, hsame]
    simp [hkind, Bool.and_comm]
  · have hnot : (decide (state.objectId = documentId) &&
        decide (state.payloadFamily = sourceStatePayloadFamily)) = false :=
      Bool.eq_false_iff.mpr fun hselected ↦ hdocument (List.mem_filter.mpr ⟨hmem, hselected⟩)
    rw [hnot, Bool.false_and, Bool.and_false, Bool.false_and]

theorem Republished.latestSourceState (hhistory : Republished documentId history) :
    latestSourceState documentId history = (sourceStates documentId history).getLast? := by
  rw [DocStore.latestSourceState, hhistory.acceptedPayloadRows]
  cases (sourceStates documentId history).getLast? <;> rfl

/-- The append of the ingestion, when it succeeds. -/
theorem appendSourceState_eq_ok
    (hrun : (appendSourceState objects context documentId acceptance).run history =
      .ok (row, final)) :
    newAssertion context documentId sourceStatePayloadFamily
        (if (latestSourceState documentId history).isNone then .payload else .supersession)
        { start := context.now, stop := none }
        ((latestSourceState documentId history).map Assertion.assertionId) acceptance history =
      .ok row ∧ final = history ++ [row] := by
  unfold appendSourceState at hrun
  split at hrun
  · cases hrun
  · rw [Program.run_acquire_bind, Program.run_select_bind] at hrun
    exact Program.run_insert_eq_ok.mp hrun

/-- What a publication of the document keeps. -/
theorem Republished.publish (hhistory : Republished documentId history)
    (hlater : ∀ state ∈ sourceStates documentId history, state.recordedAt < context.now)
    (hrun : (appendSourceState objects context documentId acceptance).run history =
      .ok (row, final)) : Republished documentId final := by
  obtain ⟨hrow, rfl⟩ := appendSourceState_eq_ok hrun
  obtain ⟨hfresh, hobject, hfamily, heffective, hsupersedes, hrecorded⟩ := newAssertion_eq_ok hrow
  rw [hhistory.latestSourceState] at hsupersedes
  have hkind : row.assertionKind ≠ .deletion := by
    obtain ⟨-, hrow⟩ := raiseIf_bind_eq_ok.mp hrow
    obtain ⟨-, hrow⟩ := raiseIf_bind_eq_ok.mp hrow
    cases hrow
    dsimp only
    split <;> exact nofun
  have hstates : sourceStates documentId (history ++ [row]) =
      sourceStates documentId history ++ [row] := by
    rw [sourceStates, List.filter_append, ← sourceStates]
    simp [hobject, hfamily]
  have hold : ∀ state ∈ sourceStates documentId history,
      state ∈ history ∧ state.objectId = documentId ∧
        state.payloadFamily = sourceStatePayloadFamily := by
    intro state hmem
    simpa [sourceStates, List.mem_filter, and_assoc] using hmem
  have hprior : ∀ assertionId, row.supersedesAssertionId = some assertionId →
      ∃ old ∈ sourceStates documentId history, old.assertionId = assertionId := by
    intro assertionId hnamed
    obtain ⟨old, hlast, hid⟩ := Option.map_eq_some_iff.mp (hsupersedes.symm.trans hnamed)
    exact ⟨old, List.mem_of_getLast? hlast, hid⟩
  constructor
  case linked =>
    refine hhistory.linked.append hfresh fun assertionId hnamed ↦ ?_
    obtain ⟨old, hmem, hid⟩ := hprior assertionId hnamed
    obtain ⟨hmem, hdocument, hstate⟩ := hold old hmem
    exact ⟨old, hmem, hid, hdocument.trans hobject.symm, hstate.trans hfamily.symm⟩
  case succession =>
    rw [hstates]
    refine hhistory.succession.append ?_ ?_ ?_
    · intro last hlast
      rw [hsupersedes, hlast, Option.map_some]
    · intro state hmem hnamed
      obtain ⟨old, holdMem, hid, -⟩ :=
        hhistory.linked.prior state (hold state hmem).1 row.assertionId hnamed
      exact hfresh old holdMem hid
    · intro hnamed
      obtain ⟨old, hmem, hid⟩ := hprior row.assertionId hnamed
      exact hfresh old (hold old hmem).1 hid
  case later =>
    rw [hstates]
    refine List.pairwise_append.mpr ⟨hhistory.later, List.pairwise_singleton _ row, ?_⟩
    intro state hmem new hnew
    rw [List.mem_singleton.mp hnew, hrecorded]
    exact hlater state hmem
  case opened =>
    rw [hstates]
    refine List.forall_mem_append.mpr ⟨hhistory.opened, List.forall_mem_singleton.mpr ?_⟩
    exact ⟨hkind, by rw [heffective, hrecorded]⟩

/-- What a write keeps that leaves the states of the document alone. -/
theorem Republished.of_same_states (hhistory : Republished documentId history)
    (hlinked : Linked final)
    (hsame : sourceStates documentId final = sourceStates documentId history) :
    Republished documentId final where
  linked := hlinked
  succession := hsame ▸ hhistory.succession
  later := hsame ▸ hhistory.later
  opened := hsame ▸ hhistory.opened

/-- The later of two states, the first one of equals. -/
def laterState (latest : Option Assertion) (row : Assertion) : Option Assertion :=
  match latest with
  | none => some row
  | some other => if other.revisionNo < row.revisionNo then some row else some other

/-- The latest state of a document is one of its states. -/
theorem of_latestSourceState (hlatest : latestSourceState documentId history = some row) :
    row ∈ history ∧ row.objectId = documentId ∧ row.payloadFamily = sourceStatePayloadFamily := by
  have hmem : ∀ (rows : History) (start : Option Assertion),
      rows.foldl laterState start = some row → row ∈ rows ∨ start = some row := by
    intro rows
    induction rows with
    | nil => exact fun start hstart ↦ Or.inr hstart
    | cons first rest ih =>
      intro start hfold
      rcases ih _ hfold with hrest | hnext
      · exact Or.inl (List.mem_cons_of_mem _ hrest)
      · cases start with
        | none => exact Or.inl (Option.some.inj hnext ▸ List.mem_cons_self)
        | some other =>
          rw [laterState] at hnext
          split at hnext
          · exact Or.inl (Option.some.inj hnext ▸ List.mem_cons_self)
          · exact Or.inr hnext
  have haccepted := (hmem _ none hlatest).resolve_right (Option.some_ne_none _).symm
  obtain ⟨haccepted, hselected⟩ := List.mem_filter.mp haccepted
  simp only [Bool.and_eq_true, decide_eq_true_eq] at hselected
  exact ⟨(List.mem_filter.mp haccepted).1, hselected.1.1, hselected.1.2⟩

/-- A publication of any document links its state backwards. -/
theorem Linked.publish (hhistory : Linked history)
    (hrun : (appendSourceState objects context documentId acceptance).run history =
      .ok (row, final)) : Linked final := by
  obtain ⟨hrow, rfl⟩ := appendSourceState_eq_ok hrun
  obtain ⟨hfresh, hobject, hfamily, -, hsupersedes, -⟩ := newAssertion_eq_ok hrow
  refine hhistory.append hfresh fun assertionId hnamed ↦ ?_
  obtain ⟨old, hlatest, hid⟩ := Option.map_eq_some_iff.mp (hsupersedes.symm.trans hnamed)
  obtain ⟨hmem, hdocument, hstate⟩ := of_latestSourceState hlatest
  exact ⟨old, hmem, hid, hdocument.trans hobject.symm, hstate.trans hfamily.symm⟩

/-- **What a committed write keeps.** -/
theorem Republished.commit {write : Write} (hhistory : Republished documentId history)
    (hallowed : OnlyPublished documentId history write)
    (hcommit : commit history write = some final) : Republished documentId final := by
  obtain ⟨objects, context, writer⟩ := write
  cases writer with
  | service call =>
    have hsame := of_decide_eq_true ((Option.all_eq_true _ _).mp hallowed final hcommit)
    have hservice : ServiceWrite { history, clock := context.now }
        { objects, context, writer := .service call } := trivial
    have hguarded : Guarded context.now history final := guarded_of_commit hservice hcommit
    exact hhistory.of_same_states (hhistory.linked.guarded hguarded) hsame
  | ingestion other acceptance =>
    unfold DocStore.commit at hcommit
    obtain ⟨⟨value, rows⟩, hresult, rfl⟩ := Option.map_eq_some_iff.mp hcommit
    obtain ⟨row, middle, hrun, hdone⟩ :=
      Program.run_bind_eq_ok.mp (toOption_eq_some.mp hresult)
    cases hdone
    by_cases hdocument : other = documentId
    · subst hdocument
      exact hhistory.publish (hallowed rfl) hrun
    · refine hhistory.of_same_states (hhistory.linked.publish hrun) ?_
      obtain ⟨hrow, rfl⟩ := appendSourceState_eq_ok hrun
      obtain ⟨-, hobject, -⟩ := newAssertion_eq_ok hrow
      rw [sourceStates, List.filter_append, ← sourceStates]
      simp [hobject, hdocument]

end Publishing

/-! ### The reader's answer -/

section Reading

variable {documentId : Uuid} {history : History} {pair : ResolvedTimePair}

/-- When all publications are known, the reader answers with the last state or with none. -/
theorem Republished.selectVisibleAssertion (hhistory : Republished documentId history)
    (hknown : ∀ state ∈ sourceStates documentId history, state.recordedAt ≤ pair.knownAt) :
    selectVisibleAssertion (sourceStates documentId history) pair =
      .ok ((sourceStates documentId history).getLast?.filter fun state ↦
        state.recordedAt ≤ pair.actDate) := by
  have hvisible : visibleRows (sourceStates documentId history) pair =
      (sourceStates documentId history).getLast?.toList.filter fun state ↦
        containsInstant state.effective pair.actDate := by
    rw [visibleRows_eq, acceptedAt, knownRows_of_forall_le hknown, acceptedRows,
      hhistory.succession.liveRows_eq]
  rw [DocStore.selectVisibleAssertion, hvisible]
  cases hlast : (sourceStates documentId history).getLast? with
  | none => rfl
  | some state =>
    obtain ⟨hkind, heffective⟩ := hhistory.opened state (List.mem_of_getLast? hlast)
    have hcontains : containsInstant state.effective pair.actDate =
        decide (state.recordedAt ≤ pair.actDate) := by
      simp [heffective, containsInstant, before]
    rw [Option.toList_some, List.filter_singleton, hcontains]
    by_cases hle : state.recordedAt ≤ pair.actDate
    · simp [hle, hkind, Option.filter]
    · simp [hle, Option.filter]

/-- **Earlier states are out of reach.** After any publications of a document at rising times, with
no other writer of its source states, a reader who knows them all and asks for a time from the first
one on gets the state of the last publication that is not later than that time exactly when none is
later. -/
theorem resolvesStates_iff (hrun : Steps commit (OnlyPublished documentId) [] history)
    (hfirst : ∃ state ∈ sourceStates documentId history, state.recordedAt ≤ pair.actDate)
    (hknown : ∀ state ∈ sourceStates documentId history, state.recordedAt ≤ pair.knownAt) :
    selectVisibleAssertion (sourceStates documentId history) pair =
        .ok (stateInForce pair.actDate (sourceStates documentId history)) ↔
      ∀ state ∈ sourceStates documentId history, state.recordedAt ≤ pair.actDate := by
  have hempty : Republished documentId [] :=
    ⟨⟨List.nodup_nil, List.forall_mem_nil _⟩, Succession.nil, List.Pairwise.nil,
      List.forall_mem_nil _⟩
  have hhistory : Republished documentId history :=
    hrun.invariant hempty fun _ _ _ hstate hallowed hcommit ↦ hstate.commit hallowed hcommit
  rw [hhistory.selectVisibleAssertion hknown, Except.ok.injEq, stateInForce]
  constructor
  · intro hsame
    obtain ⟨first, hmem, hle⟩ := hfirst
    have hsome : ((sourceStates documentId history).filter fun state ↦
        decide (state.recordedAt ≤ pair.actDate)) ≠ [] :=
      List.ne_nil_of_mem (List.mem_filter.mpr ⟨hmem, decide_eq_true hle⟩)
    obtain ⟨inForce, hinForce⟩ := Option.ne_none_iff_exists'.mp
      (mt List.getLast?_eq_none_iff.mp hsome)
    rw [hinForce] at hsame
    obtain ⟨hlast, hreached⟩ := Option.filter_eq_some_iff.mp hsame
    obtain ⟨front, hfront⟩ := List.getLast?_eq_some_iff.mp hlast
    have hlater := hhistory.later
    rw [hfront] at hlater ⊢
    intro state hstate
    rcases List.mem_append.mp hstate with hearlier | hself
    · have hlt := (List.pairwise_append.mp hlater).2.2 state hearlier inForce
        (List.mem_singleton_self inForce)
      exact (Int.le_of_lt hlt).trans (of_decide_eq_true hreached)
    · rw [List.mem_singleton.mp hself]
      exact of_decide_eq_true hreached
  · intro hall
    have hkeepsAll : (sourceStates documentId history).filter
        (fun state ↦ decide (state.recordedAt ≤ pair.actDate)) =
          sourceStates documentId history :=
      List.filter_eq_self.mpr fun state hmem ↦ decide_eq_true (hall state hmem)
    rw [hkeepsAll]
    cases hlast : (sourceStates documentId history).getLast? with
    | none => rfl
    | some state => simp [Option.filter, hall state (List.mem_of_getLast? hlast)]

end Reading

/-! ### Two publications -/

/-- The history of two publications. -/
def republished : History :=
  (replay (guarded commit (OnlyPublished 7)) [] twoPublications).getD []

theorem steps_republished : Steps commit (OnlyPublished 7) [] republished :=
  steps_of_replay (by decide)

theorem resolvesStates_after_second_publication :
    selectVisibleAssertion (sourceStates 7 republished) { actDate := 25, knownAt := 30 } =
      .ok (stateInForce 25 (sourceStates 7 republished)) :=
  (resolvesStates_iff steps_republished (by decide) (by decide)).mpr (by decide)

/-- A reader who knows both publications and asks for a time between them gets nothing, though the
state of the first one was in force then. -/
theorem exists_unreachable_state : ∃ history pair,
    Steps commit (OnlyPublished 7) [] history ∧
      (∃ state ∈ sourceStates 7 history, state.recordedAt ≤ pair.actDate) ∧
      (∀ state ∈ sourceStates 7 history, state.recordedAt ≤ pair.knownAt) ∧
      selectVisibleAssertion (sourceStates 7 history) pair = .ok none ∧
      (stateInForce pair.actDate (sourceStates 7 history)).isSome = true :=
  ⟨republished, { actDate := 15, knownAt := 25 }, steps_republished, by decide, by decide,
    toOption_eq_some.mp (by decide), by decide⟩

end DocStore
