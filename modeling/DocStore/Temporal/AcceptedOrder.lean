import DocStore.Foundation.LockedLog
import DocStore.Foundation.Numbering
import DocStore.Temporal.Concurrency
import DocStore.Temporal.Republication

/-!
# Accepted order and transaction time

The revisions of an object are numbered in the order in which transactions take the lock on its
registry row, and a row is recorded at the start of its transaction. `revisions_agree_with_times`
says when the two orders agree: when no transaction takes the lock on an object behind one that
started later.
-/

set_option autoImplicit false
set_option relaxedAutoImplicit false

namespace DocStore

open Foundation

/-! ### What the writers append -/

/-- What a transaction appends among the rows that it sees: an assertion with a new UUID and the
next revision of its object, recorded at the start, which supersedes assertions of its object
only. -/
structure AppendsAssertion (now : Instant) (rows : History) (row : Assertion) : Prop where
  fresh : ∀ old ∈ rows, old.assertionId ≠ row.assertionId
  numbered : row.revisionNo = nextRevision row.objectId rows
  recorded : row.recordedAt = now
  prior : ∀ assertionId, row.supersedesAssertionId = some assertionId →
    ∃ old ∈ rows, old.assertionId = assertionId ∧ old.objectId = row.objectId

/-- A program that appends assertions under the locks on their objects. -/
abbrev Accepts {α : Type} (context : TxContext) (post : α → History → List Uuid → Prop)
    (seen : History) (held : List Uuid) (program : Tx α) : Prop :=
  program.Obeys Assertion.objectId (AppendsAssertion context.now) post seen held

section Programs

variable {objects : Objects} {context : TxContext} {seen : History} {held : List Uuid}

theorem appendsAssertion_of_newAssertion {objectId : Uuid} {payloadFamily : Text}
    {assertionKind : AssertionKind} {interval : Interval} {supersedes : Option Uuid}
    {acceptance : Acceptance} {rows : History} {row : Assertion}
    (hprior : ∀ assertionId, supersedes = some assertionId →
      ∃ old ∈ rows, old.assertionId = assertionId ∧ old.objectId = objectId)
    (hrow : newAssertion context objectId payloadFamily assertionKind interval supersedes acceptance
      rows = .ok row) : row.objectId = objectId ∧ AppendsAssertion context.now rows row := by
  obtain ⟨hfresh, hobject, -, -, hsupersedes, hrecorded⟩ := newAssertion_eq_ok hrow
  refine ⟨hobject, hfresh, ?_, hrecorded, ?_⟩
  · obtain ⟨-, hrow⟩ := raiseIf_bind_eq_ok.mp hrow
    obtain ⟨-, hrow⟩ := raiseIf_bind_eq_ok.mp hrow
    cases hrow
    rfl
  · rw [hsupersedes, hobject]
    exact hprior

theorem accepts_lockedObject (objectId : Uuid) :
    Accepts context (fun _ _ keys ↦ objectId ∈ keys) seen held (lockedObject objects objectId) := by
  unfold lockedObject
  split
  · trivial
  · exact Program.obeys_acquire_bind (Program.obeys_pure List.mem_cons_self)

theorem accepts_acceptablePrior (assertionId : Uuid) :
    Accepts context (fun prior rows _ ↦ prior ∈ rows ∧ prior.assertionId = assertionId) seen held
      (acceptablePrior assertionId) := by
  refine Program.obeys_select_bind fun rows _ ↦ ?_
  split
  · trivial
  next prior hfound =>
    refine Program.obeys_select_bind fun later hlater ↦ ?_
    split
    · trivial
    · refine Program.obeys_pure ⟨hlater (List.mem_of_find?_eq_some hfound), ?_⟩
      simpa using List.find?_some hfound

theorem accepts_append {objectId : Uuid} {payloadFamily : Text} {assertionKind : AssertionKind}
    {interval : Interval} {supersedes : Option Uuid} {acceptance : Acceptance} {ignore : List Uuid}
    (hheld : objectId ∈ held)
    (hprior : ∀ assertionId, supersedes = some assertionId →
      ∃ old ∈ seen, old.assertionId = assertionId ∧ old.objectId = objectId) :
    Accepts context (fun _ _ _ ↦ True) seen held (append context objectId payloadFamily
      assertionKind interval supersedes acceptance ignore) := by
  refine Program.obeys_bind_of_silent (silent_guardUnambiguous _ _ _ _) fun _ rows keys hrows hkeys ↦
    Program.obeys_insert fun visible row hvisible hrow ↦ ?_
  have hknown : ∀ assertionId, supersedes = some assertionId →
      ∃ old ∈ visible, old.assertionId = assertionId ∧ old.objectId = objectId := by
    intro assertionId hsupersedes
    obtain ⟨old, hmem, hold⟩ := hprior assertionId hsupersedes
    exact ⟨old, hvisible (hrows hmem), hold⟩
  obtain ⟨hobject, hmay⟩ := appendsAssertion_of_newAssertion hknown hrow
  exact ⟨hobject ▸ hkeys hheld, hmay, trivial⟩

theorem accepts_appendSegments {prior : Assertion} {acceptance : Acceptance}
    {segments : List (Interval × AssertionKind)} (hheld : prior.objectId ∈ held)
    (hprior : prior ∈ seen) :
    Accepts context (fun _ _ _ ↦ True) seen held
      (appendSegments context prior acceptance segments) := by
  induction segments generalizing seen held with
  | nil => exact Program.obeys_pure trivial
  | cons segment segments ih =>
    refine Program.obeys_bind ((accepts_append hheld ?_).mono fun _ rows keys hrows hkeys _ ↦
      ih (hkeys hheld) (hrows hprior))
    exact fun assertionId hid ↦ ⟨prior, hprior, Option.some.inj hid, rfl⟩

theorem accepts_split {prior : Assertion} {window : Interval} {correctedKind : AssertionKind}
    {acceptance : Acceptance} (hheld : prior.objectId ∈ held) (hprior : prior ∈ seen) :
    Accepts context (fun _ _ _ ↦ True) seen held
      (split context prior window correctedKind acceptance) := by
  unfold split
  split
  · trivial
  · exact accepts_appendSegments hheld hprior

/-- What a correction reads is an assertion of the object. -/
theorem accepts_deletionPrior (objectId : Uuid) (payloadFamily : Text)
    (effectiveFrom : Option Instant) (effectiveUntil : Option (Option Instant)) :
    Accepts context
      (fun prior rows _ ↦ ∀ old ∈ prior, old ∈ rows ∧ old.objectId = objectId) seen held
      (deletionPrior objectId payloadFamily effectiveFrom effectiveUntil) := by
  have hfound : ∀ {rows : History} {old : Assertion},
      old ∈ acceptedPayloadRowsInFamily objectId payloadFamily rows →
        old ∈ rows ∧ old.objectId = objectId := by
    intro rows old hmem
    refine ⟨mem_of_mem_acceptedPayloadRows hmem, ?_⟩
    have hselected := (List.mem_filter.mp hmem).2
    simp only [Bool.and_eq_true, decide_eq_true_eq] at hselected
    exact hselected.1.1
  have hnone : ∀ rows : History, ∀ old ∈ (none : Option Assertion),
      old ∈ rows ∧ old.objectId = objectId :=
    fun _ old hmem ↦ (Option.not_mem_none old hmem).elim
  have hfiltered : ∀ {rows : History} {condition : Assertion → Bool} {prior : Assertion},
      (acceptedPayloadRowsInFamily objectId payloadFamily rows).filter condition = [prior] →
        ∀ old ∈ some prior, old ∈ rows ∧ old.objectId = objectId := by
    intro rows condition prior hfilter old hold
    rw [← Option.some.inj hold]
    exact hfound (List.mem_filter.mp (hfilter ▸ List.mem_singleton_self prior)).1
  unfold deletionPrior
  split
  · refine Program.obeys_bind_of_silent (silent_mkInterval _ _) fun window _ _ _ _ ↦
      Program.obeys_select_bind fun rows _ ↦ ?_
    dsimp only
    split
    · exact Program.obeys_pure (hnone _)
    · split
      next prior hfilter =>
        split
        · exact Program.obeys_pure (hfiltered hfilter)
        · trivial
      next => trivial
  · refine Program.obeys_select_bind fun rows _ ↦ ?_
    dsimp only
    split
    · exact Program.obeys_pure (hnone _)
    · split
      next prior hfilter => exact Program.obeys_pure (hfiltered hfilter)
      next => trivial
  · refine Program.obeys_select_bind fun rows _ ↦ ?_
    split
    next => exact Program.obeys_pure (hnone _)
    next row hrows =>
      refine Program.obeys_pure fun old hold ↦ ?_
      rw [← Option.some.inj hold]
      exact hfound (hrows ▸ List.mem_singleton_self row)
    next => trivial

theorem accepts_deleteOne {objectId : Uuid} {kind : Text} {effectiveFrom : Option Instant}
    {effectiveUntil : Option (Option Instant)} {payloadFamily : Option Text}
    {acceptance : Acceptance} (hheld : objectId ∈ held) :
    Accepts context (fun _ _ _ ↦ True) seen held (deleteOne context objectId kind effectiveFrom
      effectiveUntil payloadFamily acceptance) := by
  refine Program.obeys_bind_of_silent (silent_payloadFamilyOf _ _) fun family rows keys _ hkeys ↦
    Program.obeys_bind ((accepts_deletionPrior _ _ _ _).mono
      fun prior later locked _ hlocked hprior ↦ ?_)
  split
  · refine Program.obeys_bind_of_silent (silent_mkInterval _ _) fun interval _ _ _ hmore ↦ ?_
    refine Program.obeys_bind ((accepts_append (hmore (hlocked (hkeys hheld))) (by simp)).mono ?_)
    exact fun _ _ _ _ _ _ ↦ Program.obeys_pure trivial
  next prior =>
    obtain ⟨hmem, hobject⟩ := hprior prior rfl
    refine Program.obeys_bind_of_silent (silent_mkInterval _ _) fun window _ _ hseen hmore ↦ ?_
    exact accepts_split (hobject.symm ▸ hmore (hlocked (hkeys hheld))) (hseen hmem)

theorem accepts_lockedObjects (objectIds : List Uuid) :
    Accepts context (fun targets _ keys ↦ ∀ target ∈ targets, target.1 ∈ keys) seen held
      (lockedObjects objects objectIds) := by
  induction objectIds generalizing seen held with
  | nil => exact Program.obeys_pure (List.forall_mem_nil _)
  | cons objectId objectIds ih =>
    refine Program.obeys_bind ((accepts_lockedObject objectId).mono fun kind rows keys _ _ hheld ↦
      Program.obeys_bind (ih.mono fun rest _ locked _ hlocked hrest ↦ Program.obeys_pure ?_))
    exact List.forall_mem_cons.mpr ⟨hlocked hheld, hrest⟩

theorem accepts_deleteAll {effectiveFrom : Option Instant}
    {effectiveUntil : Option (Option Instant)} {payloadFamily : Option Text}
    {acceptance : Acceptance} {targets : List (Uuid × Text)}
    (hheld : ∀ target ∈ targets, target.1 ∈ held) :
    Accepts context (fun _ _ _ ↦ True) seen held
      (deleteAll context effectiveFrom effectiveUntil payloadFamily acceptance targets) := by
  induction targets generalizing seen held with
  | nil => exact Program.obeys_pure trivial
  | cons target targets ih =>
    obtain ⟨hfirst, hrest⟩ := List.forall_mem_cons.mp hheld
    exact Program.obeys_bind ((accepts_deleteOne hfirst).mono fun _ _ keys _ hkeys _ ↦
      ih fun other hmem ↦ hkeys (hrest other hmem))

theorem accepts_supersedeAssertion (assertionId : Uuid) (effectiveFrom : Option Instant)
    (effectiveUntil : Option (Option Instant)) (assertionKind : AssertionKind)
    (acceptance : Acceptance) :
    Accepts context (fun _ _ _ ↦ True) seen held (supersedeAssertion objects context assertionId
      effectiveFrom effectiveUntil assertionKind acceptance) := by
  refine Program.obeys_bind ((accepts_acceptablePrior assertionId).mono
    fun prior rows keys _ _ hprior ↦ Program.obeys_bind ((accepts_lockedObject prior.objectId).mono
      fun _ later locked hlater _ hlocked ↦ ?_))
  refine Program.obeys_bind_of_silent (silent_mkInterval _ _) fun interval final kept hfinal hkept ↦ ?_
  refine Program.obeys_bind ((accepts_append (hkept hlocked) ?_).mono ?_)
  · exact fun wanted hwanted ↦
      ⟨prior, hfinal (hlater hprior.1), hprior.2.trans (Option.some.inj hwanted), rfl⟩
  · exact fun _ _ _ _ _ _ ↦ Program.obeys_pure trivial

/-- **Every call appends under the locks on its objects.** -/
theorem accepts_call (call : Call) :
    Accepts context (fun _ _ _ ↦ True) seen held (call.program objects context) := by
  cases call with
  | create objectId effectiveFrom effectiveUntil payloadFamily assertionKind acceptance =>
    refine Program.obeys_bind_of_silent (silent_mkInterval _ _) fun interval _ _ _ _ ↦
      Program.obeys_bind ((accepts_lockedObject objectId).mono fun kind _ _ _ _ hheld ↦ ?_)
    refine Program.obeys_bind_of_silent (silent_payloadFamilyOf _ _) fun family _ _ _ hkeys ↦ ?_
    refine Program.obeys_bind ((accepts_append (hkeys hheld) (by simp)).mono ?_)
    exact fun _ _ _ _ _ _ ↦ Program.obeys_pure trivial
  | supersede assertionId effectiveFrom effectiveUntil assertionKind acceptance =>
    exact accepts_supersedeAssertion _ _ _ _ _
  | close assertionId effectiveUntil acceptance => exact accepts_supersedeAssertion _ _ _ _ _
  | replace assertionId effectiveFrom effectiveUntil acceptance =>
    refine Program.obeys_bind_of_silent (silent_mkInterval _ _) fun window _ _ _ _ ↦
      Program.obeys_bind ((accepts_acceptablePrior assertionId).mono
        fun prior _ _ _ _ hprior ↦ ?_)
    exact Program.obeys_bind ((accepts_lockedObject prior.objectId).mono
      fun _ _ _ hseen _ hheld ↦ accepts_split hheld (hseen hprior.1))
  | softDelete objectIds includeDescendants effectiveFrom effectiveUntil payloadFamily acceptance =>
    refine Program.obeys_bind ((accepts_lockedObjects _).mono fun targets _ _ _ _ hheld ↦
      accepts_deleteAll fun target hmem ↦ hheld target ?_)
    exact (List.mem_insertionSort _).mp hmem
  | restore deletionAssertionId acceptance =>
    refine Program.obeys_bind ((accepts_acceptablePrior deletionAssertionId).mono
      fun deletion _ _ _ _ hdeletion ↦ ?_)
    split
    · trivial
    · refine Program.obeys_bind ((accepts_lockedObject deletion.objectId).mono
        fun _ _ _ hseen _ hheld ↦ Program.obeys_bind ((accepts_append hheld ?_).mono ?_))
      · exact fun wanted hwanted ↦
          ⟨deletion, hseen hdeletion.1, hdeletion.2.trans (Option.some.inj hwanted), rfl⟩
      · exact fun _ _ _ _ _ _ ↦ Program.obeys_pure trivial

/-- **Every writer appends under the locks on its objects.** -/
theorem accepts_writer (writer : Writer) :
    Accepts context (fun _ _ _ ↦ True) [] [] (writer.program objects context) := by
  cases writer with
  | service call => exact accepts_call call
  | ingestion documentId acceptance =>
    have hstate : Accepts context (fun _ _ _ ↦ True) [] []
        (appendSourceState objects context documentId acceptance) := by
      unfold appendSourceState
      split
      · trivial
      · refine Program.obeys_acquire_bind (Program.obeys_select_bind fun rows _ ↦
          Program.obeys_insert fun visible row hvisible hrow ↦ ?_)
        have hprior : ∀ assertionId,
            (latestSourceState documentId rows).map Assertion.assertionId = some assertionId →
              ∃ old ∈ visible, old.assertionId = assertionId ∧ old.objectId = documentId := by
          intro assertionId hnamed
          obtain ⟨old, hlatest, hid⟩ := Option.map_eq_some_iff.mp hnamed
          obtain ⟨hmem, hobject, -⟩ := of_latestSourceState hlatest
          exact ⟨old, hvisible hmem, hid, hobject⟩
        obtain ⟨hobject, hmay⟩ := appendsAssertion_of_newAssertion hprior hrow
        exact ⟨hobject ▸ List.mem_cons_self, hmay, trivial⟩
    exact Program.obeys_bind (hstate.mono fun _ _ _ _ _ _ ↦ Program.obeys_pure trivial)

end Programs

/-! ### Every schedule -/

/-- The rows of an object in the order of the log: revisions rise, times do not fall, UUIDs differ,
and an assertion is superseded by none that is recorded earlier. -/
structure AcceptedInOrder (rows : History) : Prop where
  ordered : rows.Pairwise fun earlier later ↦ earlier.revisionNo < later.revisionNo ∧
    earlier.recordedAt ≤ later.recordedAt ∧ earlier.assertionId ≠ later.assertionId
  prior : ∀ row ∈ rows, ∀ assertionId, row.supersedesAssertionId = some assertionId →
    ∃ old ∈ rows, old.assertionId = assertionId ∧ old.recordedAt ≤ row.recordedAt

/-- Every row is recorded by a time. -/
def RecordedBy (now : Instant) (rows : History) : Prop := ∀ row ∈ rows, row.recordedAt ≤ now

/-- What an append keeps under the lock on its object. -/
theorem AcceptedInOrder.append {now : Instant} {rows : History} {row : Assertion}
    (hmay : AppendsAssertion now rows row)
    (hrows : AcceptedInOrder (ownedRows Assertion.objectId row.objectId rows))
    (hknown : RecordedBy now (ownedRows Assertion.objectId row.objectId rows)) :
    AcceptedInOrder (ownedRows Assertion.objectId row.objectId (rows ++ [row])) ∧
      RecordedBy now (ownedRows Assertion.objectId row.objectId (rows ++ [row])) := by
  have hself : ownedRows Assertion.objectId row.objectId [row] = [row] := by simp [ownedRows]
  rw [ownedRows_append, hself]
  have hnumber : ∀ old ∈ ownedRows Assertion.objectId row.objectId rows,
      old.revisionNo < row.revisionNo := by
    intro old hmem
    rw [hmay.numbered]
    exact lt_nextNumber (List.mem_map_of_mem hmem)
  refine ⟨⟨List.pairwise_append.mpr ⟨hrows.ordered, List.pairwise_singleton _ row, ?_⟩, ?_⟩, ?_⟩
  · intro old hmem new hnew
    rw [List.mem_singleton.mp hnew]
    exact ⟨hnumber old hmem, hmay.recorded.symm ▸ hknown old hmem,
      hmay.fresh old (List.mem_filter.mp hmem).1⟩
  · intro later hmem assertionId hsupersedes
    rcases List.mem_append.mp hmem with hold | hnew
    · obtain ⟨old, hmem, hsame⟩ := hrows.prior later hold assertionId hsupersedes
      exact ⟨old, List.mem_append_left _ hmem, hsame⟩
    · rw [List.mem_singleton.mp hnew] at hsupersedes ⊢
      obtain ⟨old, hmem, hid, hobject⟩ := hmay.prior assertionId hsupersedes
      have hold : old ∈ ownedRows Assertion.objectId row.objectId rows :=
        List.mem_filter.mpr ⟨hmem, decide_eq_true hobject⟩
      exact ⟨old, List.mem_append_left _ hold, hid, hmay.recorded.symm ▸ hknown old hold⟩
  · refine List.forall_mem_append.mpr ⟨hknown, List.forall_mem_singleton.mpr ?_⟩
    exact Int.le_of_eq hmay.recorded

section Schedules

variable {ι : Type} [DecidableEq ι]

/-- One step of a store in which writers of both kinds append. -/
def Store.writeStep (objects : Objects) (uuid4 : ι → History → Uuid) (writers : ι → Writer)
    (store : Store ι) (action : Foundation.Action ι Instant) : Option (Store ι) :=
  System.step (fun index now ↦ (writers index).program objects { now, uuid4 := uuid4 index }) store
    action

/-- The condition on a step: when a transaction takes the lock on an object, no committed assertion
of the object is recorded later than the start of the transaction. -/
def LocksInStartOrder (store : Store ι) (action : Foundation.Action ι Instant) : Prop :=
  System.LocksKnowing Assertion.objectId RecordedBy store action

omit [DecidableEq ι] in
instance (store : Store ι) (action : Foundation.Action ι Instant) :
    Decidable (LocksInStartOrder store action) :=
  inferInstanceAs (Decidable (∀ lock ∈ store.locking action,
    ∀ row ∈ ownedRows Assertion.objectId lock.1 store.log, row.recordedAt ≤ lock.2))

/-- Of two assertions of an object the one with the lower revision is not recorded later, and no
assertion is recorded before the one it supersedes. -/
def RevisionsAgreeWithTimes (rows : History) : Prop :=
  ∀ first ∈ rows, ∀ second ∈ rows, first.objectId = second.objectId →
    (first.revisionNo < second.revisionNo → first.recordedAt ≤ second.recordedAt) ∧
      (second.supersedesAssertionId = some first.assertionId →
        first.recordedAt ≤ second.recordedAt)

instance (rows : History) : Decidable (RevisionsAgreeWithTimes rows) :=
  inferInstanceAs (Decidable (∀ first ∈ rows, ∀ second ∈ rows, _))

/-- **Accepted order and transaction time agree** in every schedule of service calls and
publications in which no transaction takes the lock on an object behind one that started later. -/
theorem revisions_agree_with_times {objects : Objects} {uuid4 : ι → History → Uuid}
    {writers : ι → Writer} {initial final : Store ι} (hidle : initial.Idle)
    (hempty : initial.log = [])
    (hrun : Steps (Store.writeStep objects uuid4 writers) LocksInStartOrder initial final) :
    RevisionsAgreeWithTimes final.log := by
  have hinitial : ∀ objectId,
      AcceptedInOrder (ownedRows Assertion.objectId objectId initial.log) := by
    intro objectId
    rw [hempty]
    exact ⟨List.Pairwise.nil, List.forall_mem_nil _⟩
  have hrequest : ∀ index now, Program.Obeys Assertion.objectId (AppendsAssertion now)
      (fun _ _ _ ↦ True) [] []
        ((writers index).program objects { now, uuid4 := uuid4 index }) :=
    fun index now ↦ @accepts_writer objects { now, uuid4 := uuid4 index } (writers index)
  have hfinal : ∀ objectId, AcceptedInOrder (ownedRows Assertion.objectId objectId final.log) :=
    System.kept_of_steps hrequest (fun _ _ _ ↦ AcceptedInOrder.append) hidle hinitial hrun
  intro first hfirst second hsecond hobject
  have hrows := hfinal second.objectId
  have hfirst : first ∈ ownedRows Assertion.objectId second.objectId final.log :=
    List.mem_filter.mpr ⟨hfirst, decide_eq_true hobject⟩
  have hsecond : second ∈ ownedRows Assertion.objectId second.objectId final.log :=
    List.mem_filter.mpr ⟨hsecond, decide_eq_true rfl⟩
  constructor
  · have hforward : (ownedRows Assertion.objectId second.objectId final.log).Pairwise
        fun earlier later ↦
          earlier.revisionNo < later.revisionNo → earlier.recordedAt ≤ later.recordedAt :=
      hrows.ordered.imp fun hpair _ ↦ hpair.2.1
    have hbackward : (ownedRows Assertion.objectId second.objectId final.log).Pairwise
        fun later earlier ↦
          earlier.revisionNo < later.revisionNo → earlier.recordedAt ≤ later.recordedAt :=
      hrows.ordered.imp fun hpair hlt ↦ absurd hlt (Nat.lt_asymm hpair.1)
    refine List.Pairwise.forall_of_forall_of_flip ?_ hforward hbackward hfirst hsecond
    exact fun row _ hlt ↦ absurd hlt (Nat.lt_irrefl _)
  · intro hsupersedes
    obtain ⟨old, hmem, hid, hle⟩ := hrows.prior second hsecond first.assertionId hsupersedes
    have hnodup : ((ownedRows Assertion.objectId second.objectId final.log).map
        Assertion.assertionId).Nodup :=
      List.pairwise_map.mpr (hrows.ordered.imp fun hpair ↦ hpair.2.2)
    obtain rfl : old = first := List.inj_on_of_nodup_map hnodup hmem hfirst hid
    exact hle

end Schedules

/-! ### Two publications at the same time -/

/-- Two publications of one document. -/
def pairWriters (_ : Fin 2) : Writer := .ingestion 7 {}

/-- A store without assertions. -/
def emptyStore : Store (Fin 2) where
  log := []
  clock := 5
  status _ := .waiting
  holder _ := none

/-- Where a schedule of the two publications leads, when all its steps are allowed. -/
def publishedPair (allowed : Store (Fin 2) → Foundation.Action (Fin 2) Instant → Prop)
    [∀ store action, Decidable (allowed store action)]
    (schedule : List (Foundation.Action (Fin 2) Instant)) : Store (Fin 2) :=
  (replay (guarded (Store.writeStep documentObjects pairUuid4 pairWriters) allowed) emptyStore
    schedule).getD emptyStore

/-- The statements of a publication. -/
def publication (index : Fin 2) : List (Foundation.Action (Fin 2) Instant) :=
  List.replicate 4 (.statement index)

/-- The second publication starts later and takes the lock later. -/
theorem revisions_agree_with_times_in_order :
    RevisionsAgreeWithTimes (publishedPair LocksInStartOrder
      (.start 0 :: .wait 10 :: .start 1 :: (publication 0 ++ publication 1))).log :=
  @revisions_agree_with_times _ _ documentObjects pairUuid4 pairWriters emptyStore _ (fun _ ↦ rfl)
    rfl (steps_of_replay (by decide))

/-- The second publication starts later and takes the lock first: the later revision, which
supersedes the other one, is recorded before it. -/
theorem exists_disagreement : ∃ final : Store (Fin 2),
    Steps (Store.writeStep documentObjects pairUuid4 pairWriters) (fun _ _ ↦ True) emptyStore
        final ∧
      (∀ index, (final.status index).isCommitted = true) ∧ ¬RevisionsAgreeWithTimes final.log :=
  ⟨publishedPair (fun _ _ ↦ True)
      (.start 0 :: .wait 10 :: .start 1 :: (publication 1 ++ publication 0)),
    steps_of_replay (by decide), by decide, by decide⟩

end DocStore
