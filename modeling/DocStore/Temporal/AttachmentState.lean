import DocStore.Temporal.Republication

/-!
# The state of an attachment

Whether an attachment is active is a row beside an assertion about it, and the database resolves it
with functions of its own. They see what the reader of assertions sees, but they say that an
attachment is inactive by the flag of the state, where the reader goes by the kind of the assertion.
The guard of the table ties the two together for deletions and restorations only.
`resolversAgree_iff` says when the two answers agree.
-/

set_option autoImplicit false
set_option relaxedAutoImplicit false

namespace DocStore

open Foundation

/-! ### States and their guard -/

/-- A row of `content_attachment_states`. -/
structure AttachmentState where
  assertionId : Uuid
  isActive : Bool
deriving DecidableEq, Repr

/-- `PAYLOAD_FAMILY` and `REGISTRY_KIND`. -/
def contentAttachmentFamily : Text := lit "content_attachment"

/-- The refusal of a state, up to what is wrong with it. -/
def stateRejected (state : AttachmentState) (reason : Text) : Text :=
  lit "content_attachment_states rejected assertion " ++ uuidText state.assertionId ++ lit ": " ++
    reason

/-- `doc_store_content_attachment_state_guard`, which runs before a state is inserted. -/
def stateGuard (objects : Objects) (rows : History) (state : AttachmentState) :
    Except Text Unit :=
  match lookup Assertion.assertionId state.assertionId rows with
  | none => .ok ()
  | some asserted =>
    if asserted.payloadFamily ≠ contentAttachmentFamily then
      .error (stateRejected state (lit "payload family is " ++ asserted.payloadFamily ++
        lit ", not content_attachment"))
    else if objects.kind asserted.objectId ≠ some contentAttachmentFamily then
      .error (stateRejected state (lit "registered object " ++ uuidText asserted.objectId ++
        lit " has kind " ++ (objects.kind asserted.objectId).getD (lit "unregistered") ++
        lit ", not content_attachment"))
    else if asserted.assertionKind = .deletion ∧ state.isActive = true then
      .error (stateRejected state (lit "a deletion assertion must state is_active = false"))
    else if asserted.assertionKind = .restoration ∧ state.isActive = false then
      .error (stateRejected state (lit "a restoration assertion must state is_active = true"))
    else .ok ()

/-- What the guard lets through about a recorded assertion. -/
theorem of_stateGuard_eq_ok {objects : Objects} {rows : History} {row : Assertion}
    {state : AttachmentState} (hnodup : (rows.map Assertion.assertionId).Nodup) (hmem : row ∈ rows)
    (hid : state.assertionId = row.assertionId) (hguard : stateGuard objects rows state = .ok ()) :
    row.payloadFamily = contentAttachmentFamily ∧
      (row.assertionKind = .deletion → state.isActive = false) ∧
        (row.assertionKind = .restoration → state.isActive = true) := by
  have hfound : lookup Assertion.assertionId state.assertionId rows = some row :=
    (lookup_eq_some hnodup).mpr ⟨hmem, hid.symm⟩
  simp only [stateGuard, hfound] at hguard
  split at hguard
  · cases hguard
  next hfamily =>
    split at hguard
    · cases hguard
    · split at hguard
      · cases hguard
      next hdeletion =>
        split at hguard
        · cases hguard
        next hrestoration =>
          refine ⟨not_not.mp hfamily, fun hkind ↦ ?_, fun hkind ↦ ?_⟩
          · exact Bool.eq_false_iff.mpr fun hactive ↦ hdeletion ⟨hkind, hactive⟩
          · exact Bool.not_eq_false _ ▸ fun hinactive ↦ hrestoration ⟨hkind, hinactive⟩

/-! ### Resolution in the database -/

/-- `_RESOLUTION_COLUMNS`. -/
structure AttachmentResolution where
  assertionId : Uuid
  objectId : Uuid
  revisionNo : ℕ
  assertionKind : AssertionKind
  isActive : Bool
  effective : Interval
  recordedAt : Instant
deriving DecidableEq, Repr

/-- An assertion with the flag of its state. -/
def Assertion.resolution (row : Assertion) (isActive : Bool) : AttachmentResolution where
  assertionId := row.assertionId
  objectId := row.objectId
  revisionNo := row.revisionNo
  assertionKind := row.assertionKind
  isActive := isActive
  effective := row.effective
  recordedAt := row.recordedAt

/-- The join of an assertion with its state. -/
def joinState (states : List AttachmentState) (row : Assertion) : Option AttachmentResolution :=
  (lookup AttachmentState.assertionId row.assertionId states).map fun state ↦
    row.resolution state.isActive

/-- The condition of `doc_store_content_attachment_state_visible`. -/
def attachmentStateIsVisible (rows : History) (attachmentId : Uuid) (pair : ResolvedTimePair)
    (row : Assertion) : Bool :=
  row.objectId = attachmentId && row.payloadFamily = contentAttachmentFamily &&
    row.recordedAt ≤ pair.knownAt && row.effective.start ≤ pair.actDate &&
      row.effective.stop.all (fun stop ↦ pair.actDate < stop) &&
        !rows.any fun successor ↦ successor.supersedesAssertionId = some row.assertionId &&
          successor.recordedAt ≤ pair.knownAt

/-- `doc_store_content_attachment_state_visible`. -/
def attachmentStateVisible (rows : History) (states : List AttachmentState) (attachmentId : Uuid)
    (pair : ResolvedTimePair) : List AttachmentResolution :=
  ((rows.filter (attachmentStateIsVisible rows attachmentId pair)).filterMap
    (joinState states)).insertionSort fun first second ↦ first.revisionNo ≤ second.revisionNo

/-- What the error of an ambiguous state names. -/
structure AmbiguousAttachmentState where
  attachmentId : Uuid
  pair : ResolvedTimePair
  conflicting : List Uuid
deriving DecidableEq, Repr

/-- `doc_store_content_attachment_state_as_of`. -/
def attachmentStateAsOf (rows : History) (states : List AttachmentState) (attachmentId : Uuid)
    (pair : ResolvedTimePair) : Except AmbiguousAttachmentState (List AttachmentResolution) :=
  let visible := attachmentStateVisible rows states attachmentId pair
  if 1 < visible.length then
    .error
      { attachmentId, pair
        conflicting := (visible.map AttachmentResolution.assertionId).insertionSort (· ≤ ·) }
  else .ok visible

/-! ### Histories of one attachment -/

/-- The history of an attachment with its states: a history as the writers leave it, where the guard
has let every state through and every assertion of the attachment has its state. -/
structure AttachmentHistory (objects : Objects) (rows : History) (states : List AttachmentState)
    (attachmentId : Uuid) : Prop where
  linked : Linked rows
  nodup : (states.map AttachmentState.assertionId).Nodup
  admitted : ∀ state ∈ states, stateGuard objects rows state = .ok ()
  stated : ∀ row ∈ rows, row.objectId = attachmentId →
    ∃ state ∈ states, state.assertionId = row.assertionId

/-- An assertion that is recorded and effective at a pair, and that no assertion known by then
supersedes. -/
structure StandsAt (rows : History) (pair : ResolvedTimePair) (row : Assertion) : Prop where
  mem : row ∈ rows
  visible : isVisible row pair = true
  accepted : ∀ successor ∈ rows, successor.supersedesAssertionId = some row.assertionId →
    pair.knownAt < successor.recordedAt

/-- The condition: an assertion that stands alone at a pair states that the attachment is active,
unless it is a deletion. -/
def StatesActive (rows : History) (states : List AttachmentState) (pair : ResolvedTimePair) :
    Prop :=
  ∀ row, StandsAt rows pair row → (∀ other, StandsAt rows pair other → other = row) →
    row.assertionKind ≠ .deletion → ∀ state ∈ states, state.assertionId = row.assertionId →
      state.isActive = true

section Agreement

variable {objects : Objects} {rows : History} {states : List AttachmentState}
  {attachmentId : Uuid} {pair : ResolvedTimePair} {row : Assertion}

theorem mem_visibleRows : row ∈ visibleRows rows pair ↔ StandsAt rows pair row := by
  have hsuperseded : (supersededAt pair.knownAt rows).contains row.assertionId = false ↔
      ∀ successor ∈ rows, successor.supersedesAssertionId = some row.assertionId →
        pair.knownAt < successor.recordedAt := by
    simp only [supersededAt, List.contains_eq_mem, decide_eq_false_iff_not, List.mem_filterMap,
      List.mem_filter, decide_eq_true_eq, not_exists, not_and, and_imp]
    constructor
    · intro hnone successor hmem hsupersedes
      exact Int.not_le.mp fun hknown ↦ hnone successor hmem hknown hsupersedes
    · intro hlater successor hmem hknown hsupersedes
      exact Int.not_le.mpr (hlater successor hmem hsupersedes) hknown
  rw [visibleRows, List.mem_filter, Bool.and_eq_true, Bool.not_eq_true', hsuperseded]
  constructor
  · rintro ⟨hmem, hvisible, haccepted⟩
    exact ⟨hmem, hvisible, haccepted⟩
  · rintro ⟨hmem, hvisible, haccepted⟩
    exact ⟨hmem, hvisible, haccepted⟩

/-- The state of an assertion of the attachment. -/
theorem AttachmentHistory.exists_state (hhistory : AttachmentHistory objects rows states
    attachmentId) (hmem : row ∈ objectRows attachmentId rows) :
    ∃ state ∈ states, state.assertionId = row.assertionId ∧
      joinState states row = some (row.resolution state.isActive) := by
  obtain ⟨hrow, hobject⟩ := List.mem_filter.mp hmem
  cases hfound : lookup AttachmentState.assertionId row.assertionId states with
  | none =>
    obtain ⟨state, hstate, hid⟩ := hhistory.stated row hrow (of_decide_eq_true hobject)
    exact absurd hid (lookup_eq_none.mp hfound state hstate)
  | some state =>
    obtain ⟨hstate, hid⟩ := mem_of_lookup hfound
    exact ⟨state, hstate, hid, by rw [joinState, hfound, Option.map_some]⟩

/-- The guard leaves one family. -/
theorem AttachmentHistory.payloadFamily (hhistory : AttachmentHistory objects rows states
    attachmentId) (hmem : row ∈ objectRows attachmentId rows) :
    row.payloadFamily = contentAttachmentFamily := by
  obtain ⟨state, hstate, hid, -⟩ := hhistory.exists_state hmem
  exact (of_stateGuard_eq_ok hhistory.linked.nodup (List.mem_filter.mp hmem).1 hid
    (hhistory.admitted state hstate)).1

/-- The database sees what the reader sees. -/
theorem AttachmentHistory.filter_isVisible (hhistory : AttachmentHistory objects rows states
    attachmentId) :
    rows.filter (attachmentStateIsVisible rows attachmentId pair) =
      visibleRows (objectRows attachmentId rows) pair := by
  rw [visibleRows, objectRows, List.filter_filter, ← objectRows]
  refine List.filter_congr fun row hmem ↦ ?_
  by_cases hobject : row.objectId = attachmentId
  · have howned : row ∈ objectRows attachmentId rows :=
      List.mem_filter.mpr ⟨hmem, decide_eq_true hobject⟩
    have hsuperseded : (rows.any fun successor ↦
        decide (successor.supersedesAssertionId = some row.assertionId) &&
          decide (successor.recordedAt ≤ pair.knownAt)) =
        (supersededAt pair.knownAt (objectRows attachmentId rows)).contains row.assertionId := by
      rw [Bool.eq_iff_iff]
      simp only [supersededAt, objectRows, List.any_eq_true, List.contains_eq_mem,
        decide_eq_true_eq, List.mem_filterMap, List.mem_filter, Bool.and_eq_true]
      constructor
      · rintro ⟨successor, hsuccessor, hsupersedes, hknown⟩
        obtain ⟨old, hold, hid, hsame, -⟩ :=
          hhistory.linked.prior successor hsuccessor row.assertionId hsupersedes
        obtain rfl : old = row := List.inj_on_of_nodup_map hhistory.linked.nodup hold hmem hid
        exact ⟨successor, ⟨⟨hsuccessor, hsame ▸ hobject⟩, hknown⟩, hsupersedes⟩
      · rintro ⟨successor, ⟨⟨hsuccessor, -⟩, hknown⟩, hsupersedes⟩
        exact ⟨successor, hsuccessor, hsupersedes, hknown⟩
    rw [attachmentStateIsVisible, hsuperseded, isVisible, containsInstant]
    cases row.effective.stop <;>
      simp [hobject, hhistory.payloadFamily howned, before, Bool.and_assoc]
  · simp [attachmentStateIsVisible, hobject]

/-- What the database sees of an attachment. -/
theorem AttachmentHistory.attachmentStateVisible (hhistory : AttachmentHistory objects rows states
    attachmentId) :
    attachmentStateVisible rows states attachmentId pair =
      ((visibleRows (objectRows attachmentId rows) pair).filterMap (joinState states)).insertionSort
        fun first second ↦ first.revisionNo ≤ second.revisionNo := by
  rw [DocStore.attachmentStateVisible, hhistory.filter_isVisible]

end Agreement

/-! ### Agreement -/

/-- The answers of the two resolvers at a pair: the reader returns an assertion when the database
returns it as active, none when the database returns nothing or an inactive state, and an error when
the database raises one. -/
structure ResolversAgree (rows : History) (states : List AttachmentState) (attachmentId : Uuid)
    (pair : ResolvedTimePair) : Prop where
  found : ∀ row ∈ objectRows attachmentId rows,
    selectVisibleAssertion (objectRows attachmentId rows) pair = .ok (some row) ↔
      attachmentStateAsOf rows states attachmentId pair = .ok [row.resolution true]
  absent : selectVisibleAssertion (objectRows attachmentId rows) pair = .ok none ↔
    ∃ resolutions, attachmentStateAsOf rows states attachmentId pair = .ok resolutions ∧
      ∀ resolution ∈ resolutions, resolution.isActive = false
  refused : (∃ failure, selectVisibleAssertion (objectRows attachmentId rows) pair =
      .error failure) ↔
    ∃ ambiguity, attachmentStateAsOf rows states attachmentId pair = .error ambiguity

section Agreement

variable {objects : Objects} {rows : History} {states : List AttachmentState}
  {attachmentId : Uuid} {pair : ResolvedTimePair}

theorem AttachmentHistory.length_attachmentStateVisible (hhistory : AttachmentHistory objects rows
    states attachmentId) :
    (DocStore.attachmentStateVisible rows states attachmentId pair).length =
      (visibleRows (objectRows attachmentId rows) pair).length := by
  rw [hhistory.attachmentStateVisible, List.length_insertionSort,
    List.filterMap_length_eq_length]
  intro row hmem
  obtain ⟨_, _, _, hjoin⟩ := hhistory.exists_state (List.mem_filter.mp hmem).1
  rw [hjoin, Option.isSome_some]

/-- **The two resolvers agree exactly on what states activity.** Over every history of an attachment
that the guard lets through, and at every pair of times, they agree if and only if an assertion that
stands alone at the pair is a deletion or states that the attachment is active. -/
theorem resolversAgree_iff (hhistory : AttachmentHistory objects rows states attachmentId) :
    ResolversAgree rows states attachmentId pair ↔
      StatesActive (objectRows attachmentId rows) states pair := by
  have hlength : (attachmentStateVisible rows states attachmentId pair).length =
      (visibleRows (objectRows attachmentId rows) pair).length :=
    hhistory.length_attachmentStateVisible
  have hstands : ∀ row, StandsAt (objectRows attachmentId rows) pair row ↔
      row ∈ visibleRows (objectRows attachmentId rows) pair := fun _ ↦ mem_visibleRows.symm
  match hvisible : visibleRows (objectRows attachmentId rows) pair with
  | [] =>
    have hselect : selectVisibleAssertion (objectRows attachmentId rows) pair = .ok none := by
      rw [selectVisibleAssertion, hvisible]
    have hresolved : attachmentStateAsOf rows states attachmentId pair = .ok [] := by
      rw [hvisible, List.length_nil, List.length_eq_zero_iff] at hlength
      simp [attachmentStateAsOf, hlength]
    refine iff_of_true ⟨?_, ?_, ?_⟩ fun row hrow ↦ ?_
    · simp [hselect, hresolved]
    · simp [hselect, hresolved]
    · simp [hselect, hresolved]
    · simpa [hvisible] using (hstands row).mp hrow
  | [winner] =>
    have hmem : winner ∈ objectRows attachmentId rows :=
      (List.mem_filter.mp (hvisible ▸ List.mem_singleton_self winner)).1
    obtain ⟨state, hstate, hid, hjoin⟩ := hhistory.exists_state hmem
    obtain ⟨-, hdeletion, -⟩ := of_stateGuard_eq_ok hhistory.linked.nodup
      (List.mem_filter.mp hmem).1 hid (hhistory.admitted state hstate)
    have hselect : selectVisibleAssertion (objectRows attachmentId rows) pair =
        .ok (if winner.assertionKind = .deletion then none else some winner) := by
      rw [selectVisibleAssertion, hvisible]
    have hresolved : attachmentStateAsOf rows states attachmentId pair =
        .ok [winner.resolution state.isActive] := by
      simp [attachmentStateAsOf, hhistory.attachmentStateVisible, hvisible, hjoin]
    have hcondition : StatesActive (objectRows attachmentId rows) states pair ↔
        (winner.assertionKind ≠ .deletion → state.isActive = true) := by
      constructor
      · intro hactive hkind
        refine hactive winner ((hstands winner).mpr (by simp [hvisible])) ?_ hkind state hstate hid
        exact fun other hother ↦ by simpa [hvisible] using (hstands other).mp hother
      · intro hactive row hrow _ hkind other hother hsame
        obtain rfl : row = winner := by simpa [hvisible] using (hstands row).mp hrow
        obtain rfl : other = state :=
          List.inj_on_of_nodup_map hhistory.nodup hother hstate (hsame.trans hid.symm)
        exact hactive hkind
    have hsame : ∀ row ∈ objectRows attachmentId rows, winner = row ↔
        winner.resolution true = row.resolution true := by
      intro row hrow
      refine ⟨fun heq ↦ heq ▸ rfl, fun heq ↦ ?_⟩
      exact List.inj_on_of_nodup_map hhistory.linked.nodup (List.mem_filter.mp hmem).1
        (List.mem_filter.mp hrow).1 (congrArg AttachmentResolution.assertionId heq)
    rw [hcondition]
    by_cases hkind : winner.assertionKind = .deletion
    · refine iff_of_true ⟨fun row _ ↦ ?_, ?_, ?_⟩ fun hne ↦ absurd hkind hne
      · simp [hselect, hresolved, hkind, hdeletion hkind, Assertion.resolution]
      · simp [hselect, hresolved, hkind, hdeletion hkind, Assertion.resolution]
      · simp [hselect, hresolved]
    · rw [if_neg hkind] at hselect
      cases hactive : state.isActive with
      | true =>
        rw [hactive] at hresolved
        refine iff_of_true ⟨fun row hrow ↦ ?_, ?_, ?_⟩ fun _ ↦ rfl
        · simpa [hselect, hresolved] using hsame row hrow
        · simp [hselect, hresolved, Assertion.resolution]
        · simp [hselect, hresolved]
      | false =>
        refine iff_of_false (fun hagree ↦ ?_) fun htrue ↦ by simpa using htrue hkind
        have hnone := hagree.absent.mpr ⟨_, hresolved, by simp [hactive, Assertion.resolution]⟩
        simp [hselect] at hnone
  | first :: second :: rest =>
    have hselect : ∃ failure,
        selectVisibleAssertion (objectRows attachmentId rows) pair = .error failure := by
      rw [selectVisibleAssertion, hvisible]
      exact ⟨_, rfl⟩
    have hresolved : ∃ ambiguity,
        attachmentStateAsOf rows states attachmentId pair = .error ambiguity := by
      rw [attachmentStateAsOf, hlength, hvisible]
      exact ⟨_, rfl⟩
    have hnodup : (first :: second :: rest).Nodup :=
      hvisible ▸ ((hhistory.linked.nodup.of_map _).filter _).filter _
    have hmem : ∀ row ∈ first :: second :: rest, StandsAt (objectRows attachmentId rows) pair row :=
      fun row hrow ↦ (hstands row).mpr (hvisible ▸ hrow)
    obtain ⟨failure, hselect⟩ := hselect
    obtain ⟨ambiguity, hresolved⟩ := hresolved
    refine iff_of_true ⟨?_, ?_, ?_⟩ fun row hrow honly ↦ ?_
    · simp [hselect, hresolved]
    · simp [hselect, hresolved]
    · simp [hselect, hresolved]
    · have hfirst : first = row := honly first (hmem first (by simp))
      have hsecond : second = row := honly second (hmem second (by simp))
      simp [hfirst, hsecond] at hnodup

end Agreement

/-- Sequential calls of the service build linked histories. -/
theorem linked_of_calls {start : Instant} {timeline : Timeline}
    (hrun : Steps Timeline.commit ServiceWrite { history := [], clock := start } timeline) :
    Linked timeline.history := by
  refine hrun.invariant (motive := fun timeline ↦ Linked timeline.history)
    ⟨List.nodup_nil, List.forall_mem_nil _⟩ fun earlier write next hlinked hservice hcommit ↦ ?_
  simp only [Timeline.commit, Option.ite_none_right_eq_some] at hcommit
  obtain ⟨final, hfinal, rfl⟩ := Option.map_eq_some_iff.mp hcommit.2
  exact hlinked.guarded (guarded_of_commit hservice hfinal)

/-! ### A deletion whose interval is closed -/

/-- A registry of attachments. -/
def attachmentObjects : Objects where
  kind _ := some contentAttachmentFamily
  descendants _ := []

/-- A call to a store of attachments that numbers its assertions. -/
def attachmentCall (now : Instant) (call : Call) : Write where
  objects := attachmentObjects
  context := { now, uuid4 := fun rows ↦ BitVec.ofNat 128 (rows.length + 1) }
  writer := .service call

/-- The attachment is created, deleted, and restored. -/
def restoredAttachment : List Write :=
  [attachmentCall 10 (.create 7 10 none none .payload {}),
    attachmentCall 20 (.softDelete [7] false none none none {}),
    attachmentCall 30 (.restore 2 {})]

/-- The attachment is created and deleted, and the deletion is closed. -/
def closedDeletion : List Write :=
  [attachmentCall 10 (.create 7 10 none none .payload {}),
    attachmentCall 20 (.softDelete [7] false none none none {}),
    attachmentCall 30 (.close 2 40 {})]

/-- The timeline that calls leave. -/
def timelineOf (calls : List Write) : Timeline :=
  (replay (guarded Timeline.commit ServiceWrite) { history := [], clock := 0 } calls).getD
    { history := [], clock := 0 }

/-- The state of each of three assertions. -/
def threeStates (third : Bool) : List AttachmentState :=
  [{ assertionId := 1, isActive := true }, { assertionId := 2, isActive := false },
    { assertionId := 3, isActive := third }]

theorem linked_timelineOf {calls : List Write}
    (hpossible : (replay (guarded Timeline.commit ServiceWrite) { history := [], clock := 0 }
      calls).isSome = true) : Linked (timelineOf calls).history :=
  linked_of_calls (steps_of_replay hpossible)

theorem attachmentHistory_of_restoration : AttachmentHistory attachmentObjects
    (timelineOf restoredAttachment).history (threeStates true) 7 :=
  ⟨linked_timelineOf (by decide), by decide, by decide, by decide⟩

theorem attachmentHistory_of_closure : AttachmentHistory attachmentObjects
    (timelineOf closedDeletion).history (threeStates false) 7 :=
  ⟨linked_timelineOf (by decide), by decide, by decide, by decide⟩

/-- After the restoration the two resolvers agree. -/
theorem resolversAgree_after_restoration :
    ResolversAgree (timelineOf restoredAttachment).history (threeStates true) 7
      { actDate := 25, knownAt := 30 } := by
  have hactive : ∀ row ∈ visibleRows (objectRows 7 (timelineOf restoredAttachment).history)
      { actDate := 25, knownAt := 30 }, ∀ state ∈ threeStates true,
        state.assertionId = row.assertionId → state.isActive = true := by decide
  exact (resolversAgree_iff attachmentHistory_of_restoration).mpr fun row hrow _ _ ↦
    hactive row (mem_visibleRows.mpr hrow)

/-- The guard lets the copy that closes a deletion through as inactive, and its kind is no longer
that of a deletion: the reader returns it, and the database says that the attachment is inactive. -/
theorem exists_resolvers_disagree : ∃ rows states pair,
    AttachmentHistory attachmentObjects rows states 7 ∧
      (∃ row, selectVisibleAssertion (objectRows 7 rows) pair = .ok (some row)) ∧
        (∃ resolution, attachmentStateAsOf rows states 7 pair = .ok [resolution] ∧
          resolution.isActive = false) ∧
            ¬ResolversAgree rows states 7 pair := by
  have hselect : selectVisibleAssertion (objectRows 7 (timelineOf closedDeletion).history)
      { actDate := 25, knownAt := 30 } =
        .ok (some ((timelineOf closedDeletion).history.get ⟨2, by decide⟩)) :=
    toOption_eq_some.mp (by decide)
  have hresolved : attachmentStateAsOf (timelineOf closedDeletion).history (threeStates false) 7
      { actDate := 25, knownAt := 30 } =
        .ok [((timelineOf closedDeletion).history.get ⟨2, by decide⟩).resolution false] :=
    toOption_eq_some.mp (by decide)
  refine ⟨(timelineOf closedDeletion).history, threeStates false, { actDate := 25, knownAt := 30 },
    attachmentHistory_of_closure, ⟨_, hselect⟩, ⟨_, hresolved, rfl⟩, fun hagree ↦ ?_⟩
  have hnone := hagree.absent.mpr ⟨_, hresolved, by simp [Assertion.resolution]⟩
  rw [hselect] at hnone
  cases hnone

end DocStore
