import DocStore.Temporal.Resolution

/-!
# Concurrent calls of the service

Transactions of the service run at the isolation level READ COMMITTED. A row is recorded at the time
its transaction started, the registry lock is taken later, and the row becomes visible when the
transaction commits; these are three different orders.

`selectVisibleAssertion_of_later_commits` says when a read is repeatable: when every transaction that
commits after it started later than its known time. `corrections_exclusive` says when corrections of
one assertion exclude each other: when none commits while another one is past its check for a
successor, which is made before the lock is taken.
-/

set_option autoImplicit false
set_option relaxedAutoImplicit false

namespace DocStore

open Foundation

/-- The system of transactions over a history. -/
abbrev Store (ι : Type) := System ι Assertion Uuid Failure Unit Instant

section Calls

variable {ι : Type} (objects : Objects) (uuid4 : ι → History → Uuid) (calls : ι → Call)

/-- The program of the transaction with an index, when it starts at a time. -/
def request (index : ι) (now : Instant) : Tx Unit :=
  (calls index).program objects { now, uuid4 := uuid4 index }

variable [DecidableEq ι]

/-- One step of the store. -/
def Store.step (store : Store ι) (action : Foundation.Action ι Instant) : Option (Store ι) :=
  System.step (request objects uuid4 calls) store action

end Calls

/-- A store in which no transaction has started. -/
def Store.Idle {ι : Type} (store : Store ι) : Prop := ∀ index, store.status index = .waiting

/-! ### What the calls append -/

section Appends

variable {objects : Objects} {context : TxContext} {kept : History → Prop}

theorem silent_guardUnambiguous (objectId : Uuid) (payloadFamily : Text) (interval : Interval)
    (ignore : List Uuid) :
    (guardUnambiguous objectId payloadFamily interval ignore).Silent := by
  refine Program.silent_select_bind fun rows ↦ ?_
  split <;> trivial

theorem silent_deletionPrior (objectId : Uuid) (payloadFamily : Text)
    (effectiveFrom : Option Instant) (effectiveUntil : Option (Option Instant)) :
    (deletionPrior objectId payloadFamily effectiveFrom effectiveUntil).Silent := by
  unfold deletionPrior
  split
  · refine Program.silent_bind (silent_mkInterval _ _) fun window ↦ ?_
    refine Program.silent_select_bind fun rows ↦ ?_
    dsimp only
    split
    · trivial
    · split
      · split <;> trivial
      · trivial
  · refine Program.silent_select_bind fun rows ↦ ?_
    dsimp only
    split
    · trivial
    · split <;> trivial
  · refine Program.silent_select_bind fun rows ↦ ?_
    split <;> trivial

/-- The rows of an append are recorded when its transaction started, with intervals that end behind
their starts. -/
theorem maintains_append
    (hkept : ∀ appended row, row.recordedAt = context.now → row.effective.Proper → kept appended →
      kept (appended ++ [row]))
    (objectId : Uuid) (payloadFamily : Text) (assertionKind : AssertionKind) (interval : Interval)
    (supersedes : Option Uuid) (acceptance : Acceptance) (ignore : List Uuid) :
    (append context objectId payloadFamily assertionKind interval supersedes acceptance
      ignore).Maintains kept :=
  Program.maintains_bind ((silent_guardUnambiguous _ _ _ _).maintains kept) fun _ ↦
    Program.maintains_insert fun _ row appended hrow ↦
      hkept appended row (newAssertion_eq_ok hrow).2.2.2.2.2 (proper_of_newAssertion hrow)

variable (hkept : ∀ appended row, row.recordedAt = context.now → row.effective.Proper →
  kept appended → kept (appended ++ [row]))

include hkept

theorem maintains_appendSegments (prior : Assertion) (acceptance : Acceptance)
    (segments : List (Interval × AssertionKind)) :
    (appendSegments context prior acceptance segments).Maintains kept := by
  induction segments with
  | nil => exact (Program.silent_pure _).maintains kept
  | cons segment segments ih =>
    exact Program.maintains_bind (maintains_append hkept _ _ _ _ _ _ _) fun _ ↦ ih

theorem maintains_split (prior : Assertion) (window : Interval) (correctedKind : AssertionKind)
    (acceptance : Acceptance) :
    (split context prior window correctedKind acceptance).Maintains kept := by
  unfold split
  split
  · exact (Program.silent_fail _).maintains kept
  · exact maintains_appendSegments hkept prior acceptance _

theorem maintains_deleteOne (objectId : Uuid) (kind : Text) (effectiveFrom : Option Instant)
    (effectiveUntil : Option (Option Instant)) (payloadFamily : Option Text)
    (acceptance : Acceptance) :
    (deleteOne context objectId kind effectiveFrom effectiveUntil payloadFamily
      acceptance).Maintains kept := by
  refine Program.maintains_bind ((silent_payloadFamilyOf _ _).maintains kept) fun family ↦ ?_
  refine Program.maintains_bind ((silent_deletionPrior _ _ _ _).maintains kept) fun prior ↦ ?_
  split
  · refine Program.maintains_bind ((silent_mkInterval _ _).maintains kept) fun interval ↦ ?_
    exact Program.maintains_bind (maintains_append hkept _ _ _ _ _ _ _) fun _ ↦
      (Program.silent_pure _).maintains kept
  · exact Program.maintains_bind ((silent_mkInterval _ _).maintains kept) fun window ↦
      maintains_split hkept _ _ _ _

theorem maintains_deleteAll (effectiveFrom : Option Instant)
    (effectiveUntil : Option (Option Instant)) (payloadFamily : Option Text)
    (acceptance : Acceptance) (targets : List (Uuid × Text)) :
    (deleteAll context effectiveFrom effectiveUntil payloadFamily acceptance
      targets).Maintains kept := by
  induction targets with
  | nil => exact (Program.silent_pure _).maintains kept
  | cons target targets ih =>
    exact Program.maintains_bind (maintains_deleteOne hkept _ _ _ _ _ _) fun _ ↦ ih

theorem maintains_supersedeAssertion (assertionId : Uuid) (effectiveFrom : Option Instant)
    (effectiveUntil : Option (Option Instant)) (assertionKind : AssertionKind)
    (acceptance : Acceptance) :
    (supersedeAssertion objects context assertionId effectiveFrom effectiveUntil assertionKind
      acceptance).Maintains kept := by
  refine Program.maintains_bind ((silent_acceptablePrior _).maintains kept) fun prior ↦ ?_
  refine Program.maintains_bind ((silent_lockedObject objects _).maintains kept) fun _ ↦ ?_
  refine Program.maintains_bind ((silent_mkInterval _ _).maintains kept) fun interval ↦ ?_
  exact Program.maintains_bind (maintains_append hkept _ _ _ _ _ _ _) fun _ ↦
    (Program.silent_pure _).maintains kept

/-- **Every row that a call appends is recorded when its transaction started.** What such rows keep,
the call keeps. -/
theorem maintains_call (call : Call) : (call.program objects context).Maintains kept := by
  cases call with
  | create objectId effectiveFrom effectiveUntil payloadFamily assertionKind acceptance =>
    refine Program.maintains_bind ((silent_mkInterval _ _).maintains kept) fun interval ↦ ?_
    refine Program.maintains_bind ((silent_lockedObject objects _).maintains kept) fun kind ↦ ?_
    refine Program.maintains_bind ((silent_payloadFamilyOf _ _).maintains kept) fun family ↦ ?_
    exact Program.maintains_bind (maintains_append hkept _ _ _ _ _ _ _) fun _ ↦
      (Program.silent_pure _).maintains kept
  | supersede assertionId effectiveFrom effectiveUntil assertionKind acceptance =>
    exact maintains_supersedeAssertion hkept _ _ _ _ _
  | close assertionId effectiveUntil acceptance =>
    exact maintains_supersedeAssertion hkept _ _ _ _ _
  | replace assertionId effectiveFrom effectiveUntil acceptance =>
    refine Program.maintains_bind ((silent_mkInterval _ _).maintains kept) fun window ↦ ?_
    refine Program.maintains_bind ((silent_acceptablePrior _).maintains kept) fun prior ↦ ?_
    exact Program.maintains_bind ((silent_lockedObject objects _).maintains kept) fun _ ↦
      maintains_split hkept _ _ _ _
  | softDelete objectIds includeDescendants effectiveFrom effectiveUntil payloadFamily acceptance =>
    exact Program.maintains_bind ((silent_lockedObjects objects _).maintains kept) fun _ ↦
      maintains_deleteAll hkept _ _ _ _ _
  | restore deletionAssertionId acceptance =>
    refine Program.maintains_bind ((silent_acceptablePrior _).maintains kept) fun deletion ↦ ?_
    split
    · exact (Program.silent_fail _).maintains kept
    · refine Program.maintains_bind ((silent_lockedObject objects _).maintains kept) fun _ ↦ ?_
      exact Program.maintains_bind (maintains_append hkept _ _ _ _ _ _ _) fun _ ↦
        (Program.silent_pure _).maintains kept

end Appends

/-! ### Repeatable reads -/

section Reads

variable {ι : Type} [DecidableEq ι] {objects : Objects} {uuid4 : ι → History → Uuid}
  {calls : ι → Call}

/-- The transaction that an action commits, with its start time. -/
def committing (store : Store ι) : Foundation.Action ι Instant → Option (ι × Instant)
  | .statement index =>
    match store.status index with
    | .running { startedAt, program := .done _, .. } => some (index, startedAt)
    | _ => none
  | _ => none

/-- The condition on a step: a transaction that commits has started later than a known time. -/
def CommitsStartedAfter (knownAt : Instant) (store : Store ι)
    (action : Foundation.Action ι Instant) : Prop :=
  ∀ commit ∈ committing store action, knownAt < commit.2

instance (knownAt : Instant) (store : Store ι) (action : Foundation.Action ι Instant) :
    Decidable (CommitsStartedAfter knownAt store action) :=
  inferInstanceAs (Decidable (∀ commit ∈ committing store action, knownAt < commit.2))

omit [DecidableEq ι] in
theorem committing_statement {store : Store ι} {index : ι}
    {session : Session Assertion Uuid Failure Unit Instant}
    (hrunning : store.status index = .running session) {result : Unit}
    (hdone : session.program = .done result) :
    committing store (.statement index) = some (index, session.startedAt) := by
  obtain ⟨startedAt, program, appended⟩ := session
  subst hdone
  simp [committing, hrunning]

/-- What a running transaction has appended is recorded at its start. -/
def RecordedAtStart (_ : ι) (startedAt : Instant) (_ : Unit) (appended : History) : Prop :=
  ∀ row ∈ appended, row.recordedAt = startedAt

omit [DecidableEq ι] in
theorem request_ensures_recordedAtStart (index : ι) (now : Instant) :
    (request objects uuid4 calls index now).Ensures (RecordedAtStart index now) [] := by
  have hmaintains : (request objects uuid4 calls index now).Maintains
      (RecordedAtStart index now ()) := by
    refine maintains_call (fun appended row hrow _ happended other hother ↦ ?_) (calls index)
    rcases List.mem_append.mp hother with hold | hnew
    · exact happended other hold
    · exact List.mem_singleton.mp hnew ▸ hrow
  exact hmaintains [] (by simp [RecordedAtStart])

/-- In every schedule, running transactions record at their start. -/
theorem ensured_of_steps {allowed : Store ι → Foundation.Action ι Instant → Prop}
    {initial store : Store ι} (hinitial : initial.Idle)
    (hrun : Steps (Store.step objects uuid4 calls) allowed initial store) :
    System.Ensured RecordedAtStart store := by
  refine hrun.invariant (fun index session hrunning ↦ ?_) fun earlier action next hensured _ hstep ↦
    hensured.step request_ensures_recordedAtStart hstep
  rw [hinitial index] at hrunning
  cases hrunning

/-- **A read is repeatable when later commits started after its known time.** Whatever the calls and
the schedule, after a run in which every transaction that commits has started later than `knownAt`,
the rows of an object resolve as before. -/
theorem selectVisibleAssertion_of_later_commits {initial before after : Store ι}
    (hinitial : initial.Idle)
    (hbefore : Steps (Store.step objects uuid4 calls) (fun _ _ ↦ True) initial before)
    {pair : ResolvedTimePair}
    (hafter : Steps (Store.step objects uuid4 calls) (CommitsStartedAfter pair.knownAt) before after)
    (objectId : Uuid) :
    selectVisibleAssertion (objectRows objectId after.log) pair =
      selectVisibleAssertion (objectRows objectId before.log) pair := by
  have hadded : System.Ensured RecordedAtStart after ∧
      ∃ added, after.log = before.log ++ added ∧ ∀ row ∈ added, pair.knownAt < row.recordedAt := by
    refine hafter.invariant (motive := fun store ↦ System.Ensured RecordedAtStart store ∧
      ∃ added, store.log = before.log ++ added ∧ ∀ row ∈ added, pair.knownAt < row.recordedAt)
      ⟨ensured_of_steps hinitial hbefore, [], by simp, by simp⟩ ?_
    rintro store action next ⟨hensured, added, hlog, hadded⟩ hallowed hstep
    refine ⟨hensured.step request_ensures_recordedAtStart hstep, ?_⟩
    obtain ⟨index, -, -, rfl⟩ | ⟨index, session, haction, hrunning, hadvance⟩ | ⟨later, -, -, rfl⟩ :=
      System.step_cases hstep
    · exact ⟨added, hlog, hadded⟩
    · obtain ⟨result, hdone, rfl⟩ | ⟨_, rfl, -⟩ | ⟨_, -, rfl⟩ | ⟨_, _, -, -, rfl⟩ |
        ⟨_, _, _, -, -, rfl⟩ := System.advance_cases hadvance
      · have hstarted := hallowed (index, session.startedAt)
          (haction ▸ committing_statement hrunning hdone)
        have hrecorded := hensured index session hrunning
        rw [hdone] at hrecorded
        refine ⟨added ++ session.appended, ?_, fun row hmem ↦ ?_⟩
        · exact (congrArg (· ++ session.appended) hlog).trans (List.append_assoc ..)
        · rcases List.mem_append.mp hmem with hold | hnew
          · exact hadded row hold
          · exact hrecorded row hnew ▸ hstarted
      all_goals exact ⟨added, hlog, hadded⟩
    · exact ⟨added, hlog, hadded⟩
  obtain ⟨-, added, hlog, hlater⟩ := hadded
  have hrows : objectRows objectId after.log =
      objectRows objectId before.log ++ objectRows objectId added := by
    rw [hlog, objectRows, List.filter_append]
    rfl
  have hknown : knownRows pair.knownAt (objectRows objectId after.log) =
      knownRows pair.knownAt (objectRows objectId before.log) := by
    rw [hrows]
    exact knownRows_append_of_forall_lt fun row hmem ↦ hlater row (List.mem_filter.mp hmem).1
  rw [selectVisibleAssertion, selectVisibleAssertion, visibleRows_eq, visibleRows_eq, acceptedAt,
    acceptedAt, hknown]

end Reads

/-- Two transactions that correct one assertion: the first ends it at 10, and the second lets its
successor start at 10. -/
def pairCalls : Fin 2 → Call
  | 0 => .close 1 10 {}
  | 1 => .supersede 1 (some 10) none .supersession {}

/-- The UUIDs that two transactions give to their rows. -/
def pairUuid4 (index : Fin 2) (rows : History) : Uuid :=
  BitVec.ofNat 128 (10 * (index.val + 1) + rows.length)

/-- A store with one open-ended assertion of a document, before the two transactions. -/
def pairStore : Store (Fin 2) where
  log := [{ assertionId := 1, objectId := 7, payloadFamily := lit "document"
            assertionKind := .payload, revisionNo := 1, supersedesAssertionId := none
            effective := { start := 0, stop := none }, recordedAt := 0, acceptance := {} }]
  clock := 5
  status _ := .waiting
  holder _ := none

/-- Where a schedule of the two transactions leads, when all its steps are allowed. -/
def pairReplay (allowed : Store (Fin 2) → Foundation.Action (Fin 2) Instant → Prop)
    [∀ store action, Decidable (allowed store action)] (store : Store (Fin 2))
    (schedule : List (Foundation.Action (Fin 2) Instant)) : Store (Fin 2) :=
  (replay (guarded (Store.step documentObjects pairUuid4 pairCalls) allowed) store schedule).getD
    store

/-- A transaction of the pair that runs through all its statements. -/
def runThrough (index : Fin 2) : List (Foundation.Action (Fin 2) Instant) :=
  .start index :: List.replicate 6 (.statement index)

/-- A read at 15 is repeated after a correction that starts at 20. -/
theorem selectVisibleAssertion_after_correction :
    selectVisibleAssertion
        (objectRows 7 (pairReplay (CommitsStartedAfter 15)
          (pairReplay (fun _ _ ↦ True) pairStore [.wait 20]) (runThrough 0)).log)
        { actDate := 3, knownAt := 15 } =
      selectVisibleAssertion
        (objectRows 7 (pairReplay (fun _ _ ↦ True) pairStore [.wait 20]).log)
        { actDate := 3, knownAt := 15 } :=
  @selectVisibleAssertion_of_later_commits _ _ documentObjects pairUuid4 pairCalls _ _ _
    (fun _ ↦ rfl) (steps_of_replay (by decide)) { actDate := 3, knownAt := 15 }
    (steps_of_replay (by decide)) 7

/-- The condition is needed: a correction that started at 5 and commits after a read at 20 changes
what was known at 15. -/
theorem exists_unrepeatable_read :
    ∃ before after : Store (Fin 2), ∃ pair : ResolvedTimePair,
      Steps (Store.step documentObjects pairUuid4 pairCalls) (fun _ _ ↦ True) pairStore before ∧
        Steps (Store.step documentObjects pairUuid4 pairCalls) (fun _ _ ↦ True) before after ∧
          pair.knownAt ≤ before.clock ∧
            selectVisibleAssertion (objectRows 7 after.log) pair ≠
              selectVisibleAssertion (objectRows 7 before.log) pair := by
  refine ⟨pairReplay (fun _ _ ↦ True) pairStore [.start 0, .wait 20],
    pairReplay (fun _ _ ↦ True) (pairReplay (fun _ _ ↦ True) pairStore [.start 0, .wait 20])
      (List.replicate 6 (.statement 0)), { actDate := 3, knownAt := 15 },
    steps_of_replay (by decide), steps_of_replay (by decide), by decide, fun hsame ↦ ?_⟩
  have hids := congrArg (fun result ↦ (toOption result).map (Option.map Assertion.assertionId)) hsame
  revert hids
  decide

/-! ### Corrections of one assertion -/

/-- A call that corrects an assertion and gets as far as its transaction. The window of a
replacement is checked before. -/
def Corrects (assertionId : Uuid) : Call → Prop
  | .supersede corrected _ _ _ _ => corrected = assertionId
  | .close corrected _ _ => corrected = assertionId
  | .replace corrected effectiveFrom effectiveUntil _ =>
    corrected = assertionId ∧ effectiveUntil.any (fun instant ↦ instant ≤ effectiveFrom) = false
  | .restore corrected _ => corrected = assertionId
  | _ => False

/-- Rows among which an assertion is present and superseded. -/
def SupersededIn (assertionId : Uuid) (rows : History) : Prop :=
  (∃ row ∈ rows, row.assertionId = assertionId) ∧ isSuperseded rows assertionId = true

/-- The failure `ASSERTION_ALREADY_SUPERSEDED` for an assertion. -/
def AlreadySuperseded (assertionId : Uuid) (failure : Failure) : Prop :=
  ∃ successor, failure = .temporal (.assertionAlreadySuperseded assertionId successor)

theorem SupersededIn.mono {assertionId : Uuid} {rows final : History}
    (hsuperseded : SupersededIn assertionId rows) (hleads : rows <+: final) :
    SupersededIn assertionId final := by
  obtain ⟨⟨row, hmem, hid⟩, hsucceeded⟩ := hsuperseded
  exact ⟨⟨row, hleads.subset hmem, hid⟩, isSucceeded_mono hleads hsucceeded⟩

theorem checkSuccessor_refuses (assertionId : Uuid) (prior : Assertion) :
    (checkSuccessor assertionId prior).Refuses (SupersededIn assertionId)
      (AlreadySuperseded assertionId) := by
  refine Program.refuses_select_bind fun rows hrows ↦ ?_
  split
  next successor _ => exact ⟨successor.assertionId, rfl⟩
  next hnone =>
    obtain ⟨row, hmem, hsupersedes⟩ := List.any_eq_true.mp hrows.2
    exact absurd hsupersedes (List.find?_eq_none.mp hnone row hmem)

theorem acceptablePrior_refuses (assertionId : Uuid) :
    (acceptablePrior assertionId).Refuses (SupersededIn assertionId)
      (AlreadySuperseded assertionId) := by
  refine Program.refuses_select_bind fun rows hrows ↦ ?_
  split
  next hnone =>
    obtain ⟨row, hmem, hid⟩ := hrows.1
    simpa [hid] using List.find?_eq_none.mp hnone row hmem
  next => exact checkSuccessor_refuses _ _

/-- What is left of a correction that is not past its check for a successor: the whole check is
ahead, or its second statement, or the check has refused. -/
inductive CheckAhead (assertionId : Uuid) : Tx Unit → Prop where
  | whole (rest : Assertion → Tx Unit) : CheckAhead assertionId (acceptablePrior assertionId >>= rest)
  | successor (prior : Assertion) (rest : Assertion → Tx Unit) :
    CheckAhead assertionId (checkSuccessor assertionId prior >>= rest)
  | refused (successor : Uuid) :
    CheckAhead assertionId (refuse (.assertionAlreadySuperseded assertionId successor))

theorem CheckAhead.refuses {assertionId : Uuid} {program : Tx Unit}
    (hahead : CheckAhead assertionId program) :
    program.Refuses (SupersededIn assertionId) (AlreadySuperseded assertionId) := by
  cases hahead with
  | whole rest => exact (acceptablePrior_refuses assertionId).bind rest
  | successor prior rest => exact (checkSuccessor_refuses assertionId prior).bind rest
  | refused successor => exact ⟨successor, rfl⟩

section Corrections

variable {objects : Objects} {context : TxContext} {assertionId : Uuid}

/-- A correction starts with its check. -/
theorem correction_checkAhead {call : Call} (hcorrects : Corrects assertionId call) :
    CheckAhead assertionId (call.program objects context) := by
  cases call with
  | create => exact hcorrects.elim
  | softDelete => exact hcorrects.elim
  | supersede corrected effectiveFrom effectiveUntil assertionKind acceptance =>
    obtain rfl := hcorrects
    exact .whole _
  | close corrected effectiveUntil acceptance =>
    obtain rfl := hcorrects
    exact .whole _
  | restore corrected acceptance =>
    obtain rfl := hcorrects
    exact .whole _
  | replace corrected effectiveFrom effectiveUntil acceptance =>
    obtain ⟨rfl, hwindow⟩ := hcorrects
    have hinterval : mkInterval effectiveFrom effectiveUntil =
        pure { start := effectiveFrom, stop := effectiveUntil } := by
      simp [mkInterval, hwindow]
    rw [Call.program, replaceInterval, hinterval]
    exact .whole _

/-- Rows with a successor of an assertion among them. -/
def HasSuccessor (assertionId : Uuid) (rows : History) : Prop :=
  ∃ row ∈ rows, row.supersedesAssertionId = some assertionId

theorem acceptablePrior_ensures (assertionId : Uuid) (appended : History) :
    (acceptablePrior assertionId).Ensures
      (fun prior rows ↦ prior.assertionId = assertionId ∧ rows = appended) appended := by
  refine Program.ensures_select_bind fun rows ↦ ?_
  split
  · trivial
  next prior hfound =>
    refine Program.ensures_select_bind fun rows ↦ ?_
    split
    · trivial
    · exact ⟨by simpa using List.find?_some hfound, rfl⟩

theorem append_ensures_successor (objectId : Uuid) (payloadFamily : Text)
    (assertionKind : AssertionKind) (interval : Interval) (acceptance : Acceptance)
    (ignore : List Uuid) (appended : History) :
    (append context objectId payloadFamily assertionKind interval (some assertionId) acceptance
      ignore).Ensures (fun _ rows ↦ HasSuccessor assertionId rows) appended :=
  Program.ensures_bind_of_silent (silent_guardUnambiguous _ _ _ _) fun _ _ row hrow ↦
    ⟨row, by simp, (newAssertion_eq_ok hrow).2.2.2.2.1⟩

/-- Once a successor is appended, it stays. -/
theorem hasSuccessor_kept (appended : History) (row : Assertion) :
    row.recordedAt = context.now → row.effective.Proper → HasSuccessor assertionId appended →
      HasSuccessor assertionId (appended ++ [row]) := by
  rintro - - ⟨successor, hmem, hsupersedes⟩
  exact ⟨successor, List.mem_append_left _ hmem, hsupersedes⟩

theorem split_ensures_successor {prior : Assertion} (window : Interval)
    (correctedKind : AssertionKind) (acceptance : Acceptance) (appended : History) :
    (split context prior window correctedKind acceptance).Ensures
      (fun _ rows ↦ HasSuccessor prior.assertionId rows) appended := by
  unfold split
  split
  · trivial
  next corrected _ =>
    have hsegments : splitSegments prior.effective corrected prior.assertionKind correctedKind ≠
        [] := by
      simp [splitSegments]
    cases hcases : splitSegments prior.effective corrected prior.assertionKind correctedKind with
    | nil => exact absurd hcases hsegments
    | cons segment segments =>
      exact Program.ensures_bind ((append_ensures_successor _ _ _ _ _ _ _).mono fun _ rows hrows ↦
        maintains_appendSegments hasSuccessor_kept prior acceptance segments
          rows hrows)

/-- **A correction that commits has appended a successor.** -/
theorem correction_ensures_successor {call : Call} (hcorrects : Corrects assertionId call) :
    (call.program objects context).Ensures (fun _ rows ↦ HasSuccessor assertionId rows) [] := by
  have hsupersede : ∀ (effectiveFrom : Option Instant) (effectiveUntil : Option (Option Instant))
      (assertionKind : AssertionKind) (acceptance : Acceptance),
      (supersedeAssertion objects context assertionId effectiveFrom effectiveUntil assertionKind
        acceptance).Ensures (fun _ rows ↦ HasSuccessor assertionId rows) [] := by
    intro effectiveFrom effectiveUntil assertionKind acceptance
    refine Program.ensures_bind_of_silent (silent_acceptablePrior _) fun prior ↦ ?_
    refine Program.ensures_bind_of_silent (silent_lockedObject objects _) fun _ ↦ ?_
    refine Program.ensures_bind_of_silent (silent_mkInterval _ _) fun interval ↦ ?_
    exact Program.ensures_bind ((append_ensures_successor _ _ _ _ _ _ _).mono fun _ _ hrows ↦ hrows)
  cases call with
  | create => exact hcorrects.elim
  | softDelete => exact hcorrects.elim
  | supersede corrected effectiveFrom effectiveUntil assertionKind acceptance =>
    obtain rfl := hcorrects
    exact hsupersede _ _ _ _
  | close corrected effectiveUntil acceptance =>
    obtain rfl := hcorrects
    exact hsupersede _ _ _ _
  | replace corrected effectiveFrom effectiveUntil acceptance =>
    obtain rfl := hcorrects.1
    refine Program.ensures_bind_of_silent (silent_mkInterval _ _) fun window ↦ ?_
    refine Program.ensures_bind ((acceptablePrior_ensures corrected []).mono ?_)
    rintro prior _ ⟨rfl, rfl⟩
    exact Program.ensures_bind_of_silent (silent_lockedObject objects _) fun _ ↦
      split_ensures_successor window _ acceptance []
  | restore corrected acceptance =>
    obtain rfl := hcorrects
    refine Program.ensures_bind_of_silent (silent_acceptablePrior _) fun deletion ↦ ?_
    split
    · trivial
    · refine Program.ensures_bind_of_silent (silent_lockedObject objects _) fun _ ↦ ?_
      exact Program.ensures_bind
        ((append_ensures_successor _ _ _ _ _ _ _).mono fun _ _ hrows ↦ hrows)

end Corrections

/-! ### Corrections exclude each other -/

section Exclusion

variable {ι : Type} [DecidableEq ι] {objects : Objects} {uuid4 : ι → History → Uuid}
  {calls : ι → Call} {assertionId : Uuid}

/-- A transaction that has not committed, that gives up if it sees its assertion superseded, and
whose failure is of a certain kind. -/
def Excluded (assertionId : Uuid) (kind : Failure → Prop) (store : Store ι) (index : ι) : Prop :=
  match store.status index with
  | .waiting => True
  | .running session =>
    session.program.Refuses (SupersededIn assertionId) (AlreadySuperseded assertionId)
  | .committed _ => False
  | .failed failure => kind failure

/-- The condition on a step: when it commits a correction of an assertion, no other correction of it
is past its check for a successor. -/
def ChecksPending (assertionId : Uuid) (calls : ι → Call) (store : Store ι)
    (action : Foundation.Action ι Instant) : Prop :=
  ∀ commit ∈ committing store action, Corrects assertionId (calls commit.1) →
    ∀ other, other ≠ commit.1 → Corrects assertionId (calls other) →
      ∀ session, store.status other = .running session → CheckAhead assertionId session.program

/-- A correction that is done has appended a successor. -/
def CorrectedWhenDone (assertionId : Uuid) (calls : ι → Call) (index : ι) (_ : Instant) (_ : Unit)
    (appended : History) : Prop :=
  Corrects assertionId (calls index) → HasSuccessor assertionId appended

omit [DecidableEq ι] in
theorem request_ensures_correctedWhenDone (index : ι) (now : Instant) :
    (request objects uuid4 calls index now).Ensures
      (CorrectedWhenDone assertionId calls index now) [] := by
  by_cases hcorrects : Corrects assertionId (calls index)
  · exact (correction_ensures_successor hcorrects).mono fun _ _ hrows _ ↦ hrows
  · have hmaintains : (request objects uuid4 calls index now).Maintains
        (CorrectedWhenDone assertionId calls index now ()) :=
      maintains_call (fun _ _ _ _ _ hcorrects' ↦ absurd hcorrects' hcorrects) (calls index)
    exact hmaintains [] fun hcorrects' ↦ absurd hcorrects' hcorrects

/-- **An excluded correction stays excluded** once its assertion is superseded. -/
theorem Excluded.step {kind : Failure → Prop} {store next : Store ι}
    {action : Foundation.Action ι Instant}
    {index : ι} (hkind : ∀ failure, AlreadySuperseded assertionId failure → kind failure)
    (hcorrects : Corrects assertionId (calls index))
    (hsuperseded : SupersededIn assertionId store.log)
    (hexcluded : Excluded assertionId kind store index)
    (hstep : store.step objects uuid4 calls action = some next) :
    Excluded assertionId kind next index := by
  obtain ⟨other, -, -, rfl⟩ | ⟨other, session, -, hrunning, hadvance⟩ | ⟨_, -, -, rfl⟩ :=
    System.step_cases hstep
  · by_cases hsame : index = other
    · subst hsame
      simp only [Excluded, System.setStatus, Function.update_self]
      exact (correction_checkAhead hcorrects).refuses
    · simpa [Excluded, System.setStatus, hsame] using hexcluded
  · by_cases hsame : index = other
    · subst hsame
      simp only [Excluded, hrunning] at hexcluded
      obtain ⟨-, ⟨rest, hstatus, hrest⟩ | ⟨failure, hstatus, hfailure⟩⟩ :=
        System.refuses_advance hexcluded (hsuperseded.mono (List.prefix_append _ _)) hadvance
      · simpa only [Excluded, hstatus] using hrest
      · simpa only [Excluded, hstatus] using hkind failure hfailure
    · simpa only [Excluded, System.status_of_advance hsame hadvance] using hexcluded
  · exact hexcluded

/-- What the steps keep: no correction of the assertion has committed, or one has, which supersedes
it, and the others are excluded. -/
def Exclusive (assertionId : Uuid) (calls : ι → Call) (store : Store ι) : Prop :=
  (∀ index, Corrects assertionId (calls index) → (store.status index).isCommitted = false) ∨
    ∃ winner, (store.status winner).isCommitted = true ∧ SupersededIn assertionId store.log ∧
      ∀ other, other ≠ winner → Corrects assertionId (calls other) →
        Excluded assertionId (fun _ ↦ True) store other

/-- The corrections are exclusive and go on to append a successor, and the assertion is there. -/
structure CorrectionState (assertionId : Uuid) (calls : ι → Call) (store : Store ι) : Prop where
  present : ∃ row ∈ store.log, row.assertionId = assertionId
  corrected : System.Ensured (CorrectedWhenDone assertionId calls) store
  exclusive : Exclusive assertionId calls store

/-- A commit of the first correction makes it the winner. -/
theorem exclusive_of_commit {store next : Store ι} {index : ι}
    {session : Session Assertion Uuid Failure Unit Instant} {result : Unit}
    (hstate : CorrectionState assertionId calls store)
    (hnone : ∀ index, Corrects assertionId (calls index) →
      (store.status index).isCommitted = false)
    (hallowed : ChecksPending assertionId calls store (.statement index))
    (hcorrects : Corrects assertionId (calls index))
    (hrunning : store.status index = .running session) (hdone : session.program = .done result)
    (hnext : next = { store with log := store.log ++ session.appended }.finish index
      (.committed result)) : Exclusive assertionId calls next := by
  subst hnext
  refine .inr ⟨index, by simp [System.finish, System.setStatus, Status.isCommitted], ?_, ?_⟩
  · obtain ⟨row, hmem, hid⟩ := hstate.present
    have hdue := hstate.corrected index session hrunning
    rw [hdone] at hdue
    obtain ⟨successor, hsuccessor, hsupersedes⟩ := hdue hcorrects
    exact ⟨⟨row, List.mem_append_left _ hmem, hid⟩, List.any_eq_true.mpr
      ⟨successor, List.mem_append_right _ hsuccessor, by simpa using hsupersedes⟩⟩
  · intro other hne hother
    have hpending := hallowed _ (committing_statement hrunning hdone) hcorrects other hne hother
    have huncommitted := hnone other hother
    simp only [Excluded, System.finish, System.setStatus, Function.update_of_ne hne]
    split
    next => trivial
    next running hstatus => exact (hpending running hstatus).refuses
    next hstatus => simp [hstatus, Status.isCommitted] at huncommitted
    next => trivial

theorem CorrectionState.step {store next : Store ι} {action : Foundation.Action ι Instant}
    (hstate : CorrectionState assertionId calls store)
    (hallowed : ChecksPending assertionId calls store action)
    (hstep : store.step objects uuid4 calls action = some next) :
    CorrectionState assertionId calls next := by
  have hleads : store.log <+: next.log := System.log_prefix_of_step hstep
  refine ⟨?_, hstate.corrected.step request_ensures_correctedWhenDone hstep, ?_⟩
  · obtain ⟨row, hmem, hid⟩ := hstate.present
    exact ⟨row, hleads.subset hmem, hid⟩
  rcases hstate.exclusive with hnone | ⟨winner, hwinner, hsuperseded, hexcluded⟩
  · obtain ⟨index, -, -, rfl⟩ | ⟨index, session, rfl, hrunning, hadvance⟩ | ⟨_, -, -, rfl⟩ :=
      System.step_cases hstep
    · refine .inl fun other hother ↦ ?_
      by_cases hsame : other = index
      · simp [hsame, System.setStatus, Status.isCommitted]
      · simpa [System.setStatus, hsame] using hnone other hother
    · have hothers : ∀ other, other ≠ index → Corrects assertionId (calls other) →
          (next.status other).isCommitted = false := fun other hne hother ↦
        (congrArg Status.isCommitted (System.status_of_advance hne hadvance)).trans
          (hnone other hother)
      have hown : (next.status index).isCommitted = false ∨ ∃ result,
          session.program = .done result ∧
            next = { store with log := store.log ++ session.appended }.finish index
              (.committed result) := by
        obtain ⟨result, hdone, hnext⟩ | ⟨_, rfl, -⟩ | ⟨_, -, rfl⟩ | ⟨_, _, -, -, rfl⟩ |
          ⟨_, _, _, -, -, rfl⟩ := System.advance_cases hadvance
        · exact .inr ⟨result, hdone, hnext⟩
        all_goals exact .inl (by simp [System.finish, System.setStatus, Status.isCommitted])
      by_cases hcorrects : Corrects assertionId (calls index)
      · rcases hown with huncommitted | ⟨result, hdone, hnext⟩
        · refine .inl fun other hother ↦ ?_
          by_cases hsame : other = index
          · exact hsame ▸ huncommitted
          · exact hothers other hsame hother
        · exact exclusive_of_commit hstate hnone hallowed hcorrects hrunning hdone hnext
      · exact .inl fun other hother ↦ hothers other (fun hsame ↦ hcorrects (hsame ▸ hother)) hother
    · exact .inl hnone
  · exact .inr ⟨winner, System.isCommitted_of_step hwinner hstep, hsuperseded.mono hleads,
      fun other hne hother ↦
        (hexcluded other hne hother).step (fun _ _ ↦ trivial) hother hsuperseded hstep⟩

/-- The corrections of a present assertion start exclusive and stay so. -/
theorem correctionState_of_steps {initial store : Store ι} (hinitial : initial.Idle)
    (hpresent : ∃ row ∈ initial.log, row.assertionId = assertionId)
    (hrun : Steps (Store.step objects uuid4 calls) (ChecksPending assertionId calls) initial
      store) : CorrectionState assertionId calls store := by
  refine hrun.invariant ⟨hpresent, fun index session hrunning ↦ ?_, .inl fun index _ ↦ ?_⟩
    fun earlier action next hstate hallowed hstep ↦ hstate.step hallowed hstep
  · rw [hinitial index] at hrunning
    cases hrunning
  · rw [hinitial index]
    rfl

/-- When a correction has committed, it is the winner. -/
theorem CorrectionState.excluded {store : Store ι} (hstate : CorrectionState assertionId calls store)
    {winner : ι} (hcorrects : Corrects assertionId (calls winner))
    (hcommitted : (store.status winner).isCommitted = true) :
    SupersededIn assertionId store.log ∧ ∀ other, other ≠ winner →
      Corrects assertionId (calls other) → Excluded assertionId (fun _ ↦ True) store other := by
  rcases hstate.exclusive with hnone | ⟨first, -, hsuperseded, hexcluded⟩
  · simp [hnone winner hcorrects] at hcommitted
  · by_cases hsame : winner = first
    · exact ⟨hsuperseded, hsame ▸ hexcluded⟩
    · have hwinner := hexcluded winner hsame hcorrects
      unfold Excluded at hwinner
      split at hwinner <;> simp_all [Status.isCommitted]

end Exclusion

/-- A commit while the other transactions are not running. -/
def AloneAtCommit (store : Store (Fin 2)) (action : Foundation.Action (Fin 2) Instant) : Prop :=
  ∀ commit ∈ committing store action, ∀ other, other ≠ commit.1 →
    (store.status other).isRunning = false

instance (store : Store (Fin 2)) (action : Foundation.Action (Fin 2) Instant) :
    Decidable (AloneAtCommit store action) :=
  inferInstanceAs (Decidable (∀ commit ∈ committing store action, ∀ other, other ≠ commit.1 →
    (store.status other).isRunning = false))

theorem AloneAtCommit.checksPending {store : Store (Fin 2)}
    {action : Foundation.Action (Fin 2) Instant}
    (halone : AloneAtCommit store action) : ChecksPending 1 pairCalls store action := by
  intro commit hcommit _ other hne _ session hrunning
  have hidle := halone commit hcommit other hne
  simp [hrunning, Status.isRunning] at hidle

/-- A schedule of the pair in which a transaction commits alone. -/
theorem steps_of_aloneAtCommit {store : Store (Fin 2)}
    {schedule : List (Foundation.Action (Fin 2) Instant)}
    (hpossible : (replay (guarded (Store.step documentObjects pairUuid4 pairCalls) AloneAtCommit)
      store schedule).isSome = true) :
    Steps (Store.step documentObjects pairUuid4 pairCalls) (ChecksPending 1 pairCalls) store
      (pairReplay AloneAtCommit store schedule) :=
  (steps_of_replay hpossible).mono fun _ _ ↦ AloneAtCommit.checksPending

/-- The store after the first correction of the pair. -/
def firstCorrected : Store (Fin 2) := pairReplay AloneAtCommit pairStore (runThrough 0)

/-- The store after the second correction of the pair has followed. -/
def secondRefused : Store (Fin 2) :=
  pairReplay AloneAtCommit firstCorrected (.start 1 :: List.replicate 3 (.statement 1))

/-- Both transactions make their checks before one of them takes the lock. -/
def interleaved : List (Foundation.Action (Fin 2) Instant) :=
  [.start 0, .start 1, .statement 0, .statement 0, .statement 1, .statement 1] ++
    List.replicate 4 (.statement 0) ++ List.replicate 4 (.statement 1)

end DocStore
