import DocStore.Temporal.Assertions

/-!
# Temporal unambiguity

A history is unambiguous when no two accepted assertions of one object and family are effective at
the same instant. Every call of the service keeps this, because each of its appends is guarded
against the accepted assertions except the one that it supersedes (`guarded_call`). The append of
the ingestion is not guarded: its open-ended state supersedes the latest source state, and any other
accepted one that is still effective by then overlaps it.
-/

set_option autoImplicit false
set_option relaxedAutoImplicit false

namespace DocStore

open Foundation

/-! ### Disjoint intervals -/

/-- Two intervals without a common instant. -/
def Interval.Disjoint (first second : Interval) : Prop :=
  ∀ instant, ¬(containsInstant first instant = true ∧ containsInstant second instant = true)

theorem before_of_before {first second : Instant} (hle : first ≤ second) {stop : Option Instant}
    (hbefore : before (some second) stop = true) : before (some first) stop = true := by
  cases stop with
  | none => rfl
  | some stop =>
    simp only [before, decide_eq_true_eq] at hbefore ⊢
    exact Int.lt_of_le_of_lt hle hbefore

/-- Intervals that do not overlap have no common instant. -/
theorem Interval.disjoint_of_not_overlaps {first second : Interval}
    (hoverlaps : first.overlaps second = false) : first.Disjoint second := by
  rintro instant ⟨hfirst, hsecond⟩
  simp only [containsInstant, Bool.and_eq_true, decide_eq_true_eq] at hfirst hsecond
  have hcommon : first.overlaps second = true := by
    simp only [Interval.overlaps, Bool.and_eq_true]
    exact ⟨before_of_before hfirst.1 hsecond.2, before_of_before hsecond.1 hfirst.2⟩
  rw [hcommon] at hoverlaps
  cases hoverlaps

/-- An interval that ends behind its start. -/
def Interval.Proper (interval : Interval) : Prop := before (some interval.start) interval.stop = true

instance (interval : Interval) : Decidable interval.Proper :=
  inferInstanceAs (Decidable (_ = true))

/-- Two assertions of one object and family are effective at no common instant. -/
def Compatible (first second : Assertion) : Prop :=
  first.objectId = second.objectId → first.payloadFamily = second.payloadFamily →
    first.effective.Disjoint second.effective

/-- No two accepted assertions of one object and family are effective at a common instant. -/
def Unambiguous (history : History) : Prop := (acceptedRows history).Pairwise Compatible

/-! ### What a call of the service appends -/

/-- A row that a call may append to a history at a time: it has a new UUID, it corrects an assertion
of its own object and family if any, and it overlaps no accepted assertion of these but the one it
corrects. -/
structure GuardedRow (now : Instant) (history : History) (row : Assertion) : Prop where
  fresh : ∀ old ∈ history, old.assertionId ≠ row.assertionId
  prior : ∀ assertionId, row.supersedesAssertionId = some assertionId →
    ∃ old ∈ history, old.assertionId = assertionId ∧ old.objectId = row.objectId ∧
      old.payloadFamily = row.payloadFamily
  clear : ∀ old ∈ acceptedRows history, old.objectId = row.objectId →
    old.payloadFamily = row.payloadFamily → row.supersedesAssertionId ≠ some old.assertionId →
    old.effective.overlaps row.effective = false
  recorded : row.recordedAt = now

/-- A history followed by guarded rows, one behind the other. -/
def Guarded (now : Instant) : History → History → Prop :=
  Relation.ReflTransGen fun history next ↦
    ∃ row, GuardedRow now history row ∧ next = history ++ [row]

/-- What every guarded row keeps, guarded rows keep. -/
theorem Guarded.keeps {now : Instant} {history final : History} (hguarded : Guarded now history final)
    {motive : History → Prop} (hhistory : motive history)
    (hkeep : ∀ log row, motive log → GuardedRow now log row → motive (log ++ [row])) :
    motive final := by
  induction hguarded with
  | refl => exact hhistory
  | tail _ hlast ih =>
    obtain ⟨row, hrow, rfl⟩ := hlast
    exact hkeep _ row ih hrow

theorem Guarded.subset {now : Instant} {history final : History}
    (hguarded : Guarded now history final) {row : Assertion} (hmem : row ∈ history) : row ∈ final :=
  hguarded.keeps (motive := fun log ↦ row ∈ log) hmem fun _ _ hlog _ ↦
    List.mem_append_left _ hlog

theorem guardUnambiguous_eq_ok {objectId : Uuid} {payloadFamily : Text} {interval : Interval}
    {ignore : List Uuid} {log final : History} {result : Unit}
    (hrun : (guardUnambiguous objectId payloadFamily interval ignore).run log = .ok (result, final)) :
    clashes objectId payloadFamily interval ignore log = [] ∧ final = log := by
  unfold guardUnambiguous at hrun
  rw [Program.run_select_bind] at hrun
  cases hclashes : clashes objectId payloadFamily interval ignore log with
  | nil =>
    rw [hclashes] at hrun
    cases hrun
    exact ⟨rfl, rfl⟩
  | cons clash rest =>
    rw [hclashes] at hrun
    cases hrun

/-- What an insertion writes, when it succeeds. -/
theorem newAssertion_eq_ok {context : TxContext} {objectId : Uuid} {payloadFamily : Text}
    {assertionKind : AssertionKind} {interval : Interval} {supersedes : Option Uuid}
    {acceptance : Acceptance} {rows : History} {row : Assertion}
    (hrow : newAssertion context objectId payloadFamily assertionKind interval supersedes acceptance
      rows = .ok row) :
    (∀ old ∈ rows, old.assertionId ≠ row.assertionId) ∧
      row.objectId = objectId ∧ row.payloadFamily = payloadFamily ∧ row.effective = interval ∧
      row.supersedesAssertionId = supersedes ∧ row.recordedAt = context.now := by
  obtain ⟨hfree, hrow⟩ := raiseIf_bind_eq_ok.mp hrow
  obtain ⟨-, hrow⟩ := raiseIf_bind_eq_ok.mp hrow
  cases hrow
  exact ⟨by simpa using hfree, rfl, rfl, rfl, rfl, rfl⟩

/-- An insertion writes no interval that ends where it starts or before. -/
theorem proper_of_newAssertion {context : TxContext} {objectId : Uuid} {payloadFamily : Text}
    {assertionKind : AssertionKind} {interval : Interval} {supersedes : Option Uuid}
    {acceptance : Acceptance} {rows : History} {row : Assertion}
    (hrow : newAssertion context objectId payloadFamily assertionKind interval supersedes acceptance
      rows = .ok row) : row.effective.Proper := by
  obtain ⟨-, hrow⟩ := raiseIf_bind_eq_ok.mp hrow
  obtain ⟨hends, hrow⟩ := raiseIf_bind_eq_ok.mp hrow
  cases hrow
  cases hstop : interval.stop <;> simp_all [Interval.Proper, before]

variable {objects : Objects} {context : TxContext} {log final : History}

/-- **An append that ignores exactly the assertion it supersedes appends a guarded row.** -/
theorem guarded_append {objectId : Uuid} {payloadFamily : Text} {assertionKind : AssertionKind}
    {interval : Interval} (supersedes : Option Uuid) {acceptance : Acceptance} {row : Assertion}
    (hprior : ∀ assertionId, supersedes = some assertionId → ∃ old ∈ log,
      old.assertionId = assertionId ∧ old.objectId = objectId ∧ old.payloadFamily = payloadFamily)
    (hrun : (append context objectId payloadFamily assertionKind interval supersedes acceptance
      supersedes.toList).run log = .ok (row, final)) : Guarded context.now log final := by
  obtain ⟨_, middle, hguard, hinsert⟩ := Program.run_bind_eq_ok.mp hrun
  obtain ⟨hclashes, rfl⟩ := guardUnambiguous_eq_ok hguard
  obtain ⟨hrow, rfl⟩ := Program.run_insert_eq_ok.mp hinsert
  obtain ⟨hfresh, hobject, hfamily, heffective, hsupersedes, hrecorded⟩ := newAssertion_eq_ok hrow
  refine Relation.ReflTransGen.single ⟨row, ⟨hfresh, ?_, ?_, hrecorded⟩, rfl⟩
  · rw [hsupersedes, hobject, hfamily]
    exact hprior
  · intro old hold holdObject holdFamily hnot
    have hignored : supersedes ≠ some old.assertionId := hsupersedes ▸ hnot
    have hclash := List.filter_eq_nil_iff.mp hclashes old hold
    simpa [holdObject, holdFamily, hobject, hfamily, hignored, heffective] using hclash

/-! ### The statements that only read -/

theorem silent_mkInterval (start : Instant) (stop : Option Instant) :
    (mkInterval start stop).Silent := by
  unfold mkInterval
  split <;> trivial

theorem silent_lockedObject (objects : Objects) (objectId : Uuid) :
    (lockedObject objects objectId).Silent := by
  unfold lockedObject
  split <;> trivial

theorem silent_lockedObjects (objects : Objects) (objectIds : List Uuid) :
    (lockedObjects objects objectIds).Silent := by
  induction objectIds with
  | nil => trivial
  | cons objectId objectIds ih =>
    exact Program.silent_bind (silent_lockedObject objects objectId) fun _ ↦
      Program.silent_bind ih fun _ ↦ trivial

theorem silent_payloadFamilyOf (payloadFamily : Option Text) (kind : Text) :
    (payloadFamilyOf payloadFamily kind).Silent := by
  unfold payloadFamilyOf
  split
  · trivial
  · split <;> trivial

theorem silent_checkSuccessor (assertionId : Uuid) (prior : Assertion) :
    (checkSuccessor assertionId prior).Silent := by
  refine Program.silent_select_bind fun rows ↦ ?_
  split <;> trivial

theorem silent_acceptablePrior (assertionId : Uuid) : (acceptablePrior assertionId).Silent := by
  refine Program.silent_select_bind fun rows ↦ ?_
  split
  · trivial
  · exact silent_checkSuccessor _ _

/-- An acceptable prior is in the history under its UUID. -/
theorem acceptablePrior_eq_ok {assertionId : Uuid} {prior : Assertion}
    (hrun : (acceptablePrior assertionId).run log = .ok (prior, final)) :
    final = log ∧ prior ∈ log ∧ prior.assertionId = assertionId := by
  unfold acceptablePrior at hrun
  rw [Program.run_select_bind] at hrun
  split at hrun
  next => cases hrun
  next found hfound =>
    rw [checkSuccessor, Program.run_select_bind] at hrun
    split at hrun
    next => cases hrun
    next =>
      cases hrun
      exact ⟨rfl, List.mem_of_find?_eq_some hfound, by simpa using List.find?_some hfound⟩

theorem mem_of_mem_acceptedPayloadRows {objectId : Uuid} {payloadFamily : Text} {rows : History}
    {row : Assertion} (hmem : row ∈ acceptedPayloadRowsInFamily objectId payloadFamily rows) :
    row ∈ rows := by
  have haccepted : row ∈ acceptedRows rows := (List.mem_filter.mp hmem).1
  exact (List.mem_filter.mp haccepted).1

/-- The assertion that a deletion corrects is in the history. -/
theorem deletionPrior_eq_ok {objectId : Uuid} {payloadFamily : Text}
    {effectiveFrom : Option Instant} {effectiveUntil : Option (Option Instant)}
    {prior : Option Assertion}
    (hrun : (deletionPrior objectId payloadFamily effectiveFrom effectiveUntil).run log =
      .ok (prior, final)) : final = log ∧ ∀ row, prior = some row → row ∈ log := by
  have hsingle : ∀ {condition : Assertion → Bool} {row : Assertion},
      (acceptedPayloadRowsInFamily objectId payloadFamily log).filter condition = [row] →
        row ∈ log := fun hfilter ↦
    mem_of_mem_acceptedPayloadRows (List.mem_filter.mp (hfilter ▸ List.mem_singleton_self _)).1
  unfold deletionPrior at hrun
  split at hrun
  · obtain ⟨window, _, hwindow, hrest⟩ := Program.run_bind_eq_ok.mp hrun
    obtain rfl := (silent_mkInterval _ _).run_eq hwindow
    unfold acceptedInFamilyForWindow at hrest
    rw [Program.run_select_bind] at hrest
    dsimp only at hrest
    split at hrest
    · cases hrest
      exact ⟨rfl, by simp⟩
    · split at hrest
      next row hfilter =>
        split at hrest <;> cases hrest
        exact ⟨rfl, fun _ heq ↦ Option.some.inj heq ▸ hsingle hfilter⟩
      next => cases hrest
  · unfold acceptedInFamilyForInstant at hrun
    rw [Program.run_select_bind] at hrun
    dsimp only at hrun
    split at hrun
    · cases hrun
      exact ⟨rfl, by simp⟩
    · split at hrun
      next row hfilter =>
        cases hrun
        exact ⟨rfl, fun _ heq ↦ Option.some.inj heq ▸ hsingle hfilter⟩
      next => cases hrun
  · unfold acceptedInFamily at hrun
    rw [Program.run_select_bind] at hrun
    split at hrun
    next =>
      cases hrun
      exact ⟨rfl, by simp⟩
    next row hrows =>
      cases hrun
      exact ⟨rfl, fun _ heq ↦ Option.some.inj heq ▸
        mem_of_mem_acceptedPayloadRows (hrows ▸ List.mem_singleton_self _)⟩
    next => cases hrun

/-! ### The calls -/

theorem guarded_appendSegments {prior : Assertion} {acceptance : Acceptance}
    {segments : List (Interval × AssertionKind)} {result : Unit} (hprior : prior ∈ log)
    (hrun : (appendSegments context prior acceptance segments).run log = .ok (result, final)) :
    Guarded context.now log final := by
  induction segments generalizing log with
  | nil =>
    cases hrun
    exact Relation.ReflTransGen.refl
  | cons segment segments ih =>
    obtain ⟨row, middle, hrow, hrest⟩ := Program.run_bind_eq_ok.mp hrun
    have hfirst : Guarded context.now log middle := guarded_append (some prior.assertionId) (by
      rintro _ ⟨⟩
      exact ⟨prior, hprior, rfl, rfl, rfl⟩) hrow
    exact hfirst.trans (ih (hfirst.subset hprior) hrest)

theorem guarded_split {prior : Assertion} {window : Interval} {correctedKind : AssertionKind}
    {acceptance : Acceptance} {result : Unit} (hprior : prior ∈ log)
    (hrun : (split context prior window correctedKind acceptance).run log = .ok (result, final)) :
    Guarded context.now log final := by
  unfold split at hrun
  split at hrun
  · cases hrun
  · exact guarded_appendSegments hprior hrun

theorem guarded_supersedeAssertion {assertionId : Uuid} {effectiveFrom : Option Instant}
    {effectiveUntil : Option (Option Instant)} {assertionKind : AssertionKind}
    {acceptance : Acceptance} {result : Unit}
    (hrun : (supersedeAssertion objects context assertionId effectiveFrom effectiveUntil
      assertionKind acceptance).run log = .ok (result, final)) :
    Guarded context.now log final := by
  obtain ⟨prior, _, hprior, hrest⟩ := Program.run_bind_eq_ok.mp hrun
  obtain ⟨rfl, hmem, hid⟩ := acceptablePrior_eq_ok hprior
  obtain ⟨_, _, hlocked, hthen⟩ := Program.run_bind_eq_ok.mp hrest
  obtain rfl := (silent_lockedObject _ _).run_eq hlocked
  obtain ⟨interval, _, hinterval, hlast⟩ := Program.run_bind_eq_ok.mp hthen
  obtain rfl := (silent_mkInterval _ _).run_eq hinterval
  obtain ⟨row, _, hrow, hdone⟩ := Program.run_bind_eq_ok.mp hlast
  cases hdone
  refine guarded_append (some assertionId) ?_ hrow
  rintro _ ⟨⟩
  exact ⟨prior, hmem, hid, rfl, rfl⟩

theorem guarded_deleteOne {objectId : Uuid} {kind : Text} {effectiveFrom : Option Instant}
    {effectiveUntil : Option (Option Instant)} {payloadFamily : Option Text}
    {acceptance : Acceptance} {result : Unit}
    (hrun : (deleteOne context objectId kind effectiveFrom effectiveUntil payloadFamily
      acceptance).run log = .ok (result, final)) : Guarded context.now log final := by
  obtain ⟨family, _, hfamily, hrest⟩ := Program.run_bind_eq_ok.mp hrun
  obtain rfl := (silent_payloadFamilyOf _ _).run_eq hfamily
  obtain ⟨prior, _, hprior, hthen⟩ := Program.run_bind_eq_ok.mp hrest
  obtain ⟨rfl, hmem⟩ := deletionPrior_eq_ok hprior
  cases prior with
  | none =>
    obtain ⟨interval, _, hinterval, hlast⟩ := Program.run_bind_eq_ok.mp hthen
    obtain rfl := (silent_mkInterval _ _).run_eq hinterval
    obtain ⟨row, _, hrow, hdone⟩ := Program.run_bind_eq_ok.mp hlast
    cases hdone
    exact guarded_append none (by simp) hrow
  | some prior =>
    obtain ⟨window, _, hwindow, hlast⟩ := Program.run_bind_eq_ok.mp hthen
    obtain rfl := (silent_mkInterval _ _).run_eq hwindow
    exact guarded_split (hmem prior rfl) hlast

theorem guarded_deleteAll {effectiveFrom : Option Instant}
    {effectiveUntil : Option (Option Instant)} {payloadFamily : Option Text}
    {acceptance : Acceptance} {targets : List (Uuid × Text)} {result : Unit}
    (hrun : (deleteAll context effectiveFrom effectiveUntil payloadFamily acceptance targets).run
      log = .ok (result, final)) : Guarded context.now log final := by
  induction targets generalizing log with
  | nil =>
    cases hrun
    exact Relation.ReflTransGen.refl
  | cons target targets ih =>
    obtain ⟨_, middle, hfirst, hrest⟩ := Program.run_bind_eq_ok.mp hrun
    exact (guarded_deleteOne hfirst).trans (ih hrest)

/-- **Every call of the service appends guarded rows and nothing else.** -/
theorem guarded_call {call : Call} {result : Unit}
    (hrun : (call.program objects context).run log = .ok (result, final)) :
    Guarded context.now log final := by
  cases call with
  | create objectId effectiveFrom effectiveUntil payloadFamily assertionKind acceptance =>
    obtain ⟨interval, _, hinterval, hrest⟩ := Program.run_bind_eq_ok.mp hrun
    obtain rfl := (silent_mkInterval _ _).run_eq hinterval
    obtain ⟨kind, _, hkind, hthen⟩ := Program.run_bind_eq_ok.mp hrest
    obtain rfl := (silent_lockedObject _ _).run_eq hkind
    obtain ⟨family, _, hfamily, hlast⟩ := Program.run_bind_eq_ok.mp hthen
    obtain rfl := (silent_payloadFamilyOf _ _).run_eq hfamily
    obtain ⟨row, _, hrow, hdone⟩ := Program.run_bind_eq_ok.mp hlast
    cases hdone
    exact guarded_append none (by simp) hrow
  | supersede assertionId effectiveFrom effectiveUntil assertionKind acceptance =>
    exact guarded_supersedeAssertion hrun
  | close assertionId effectiveUntil acceptance => exact guarded_supersedeAssertion hrun
  | replace assertionId effectiveFrom effectiveUntil acceptance =>
    obtain ⟨window, _, hwindow, hrest⟩ := Program.run_bind_eq_ok.mp hrun
    obtain rfl := (silent_mkInterval _ _).run_eq hwindow
    obtain ⟨prior, _, hprior, hthen⟩ := Program.run_bind_eq_ok.mp hrest
    obtain ⟨rfl, hmem, -⟩ := acceptablePrior_eq_ok hprior
    obtain ⟨_, _, hlocked, hlast⟩ := Program.run_bind_eq_ok.mp hthen
    obtain rfl := (silent_lockedObject _ _).run_eq hlocked
    exact guarded_split hmem hlast
  | softDelete objectIds includeDescendants effectiveFrom effectiveUntil payloadFamily acceptance =>
    obtain ⟨targets, _, htargets, hrest⟩ := Program.run_bind_eq_ok.mp hrun
    obtain rfl := (silent_lockedObjects _ _).run_eq htargets
    exact guarded_deleteAll hrest
  | restore deletionAssertionId acceptance =>
    obtain ⟨deletion, _, hdeletion, hrest⟩ := Program.run_bind_eq_ok.mp hrun
    obtain ⟨rfl, hmem, hid⟩ := acceptablePrior_eq_ok hdeletion
    split at hrest
    · cases hrest
    · obtain ⟨_, _, hlocked, hthen⟩ := Program.run_bind_eq_ok.mp hrest
      obtain rfl := (silent_lockedObject _ _).run_eq hlocked
      obtain ⟨row, _, hrow, hdone⟩ := Program.run_bind_eq_ok.mp hthen
      cases hdone
      refine guarded_append (some deletionAssertionId) ?_ hrow
      rintro _ ⟨⟩
      exact ⟨deletion, hmem, hid, rfl, rfl⟩

/-! ### Guarded rows keep a history unambiguous -/

/-- An insertion whose interval meets no accepted assertion but the superseded one keeps a history
unambiguous. -/
theorem Unambiguous.insert {history : History} (hunambiguous : Unambiguous history)
    {row : Assertion}
    (hclear : ∀ old ∈ acceptedRows history, old.objectId = row.objectId →
      old.payloadFamily = row.payloadFamily → row.supersedesAssertionId ≠ some old.assertionId →
      old.effective.overlaps row.effective = false) :
    Unambiguous (history ++ [row]) :=
  pairwise_live_append_singleton hunambiguous fun old hold hsupersedes hobject hfamily ↦
    Interval.disjoint_of_not_overlaps (hclear old hold hobject hfamily hsupersedes)

theorem Unambiguous.guarded {now : Instant} {history final : History}
    (hunambiguous : Unambiguous history) (hguarded : Guarded now history final) :
    Unambiguous final :=
  hguarded.keeps hunambiguous fun _ _ hlog hrow ↦ hlog.insert hrow.clear

/-! ### The append of the ingestion -/

/-- What the ingestion relies on when it appends a state: every accepted source state of the
document other than the one it supersedes has ended by then. Deletions count as source states. -/
def EarlierStatesEnded (documentId : Uuid) (now : Instant) (history : History) : Prop :=
  ∀ row ∈ acceptedRows history, row.objectId = documentId →
    row.payloadFamily = sourceStatePayloadFamily →
    (latestSourceState documentId history).map Assertion.assertionId ≠ some row.assertionId →
    row.effective.stop.any fun stop ↦ stop ≤ now

instance (documentId : Uuid) (now : Instant) (history : History) :
    Decidable (EarlierStatesEnded documentId now history) :=
  inferInstanceAs (Decidable (∀ row ∈ acceptedRows history, _))

/-- The condition on a write: an append of the ingestion finds the earlier states ended. -/
def WriteClear (history : History) (write : Write) : Prop :=
  match write.writer with
  | .service _ => True
  | .ingestion documentId _ => EarlierStatesEnded documentId write.context.now history

instance : ∀ history write, Decidable (WriteClear history write)
  | _, { writer := .service _, .. } => inferInstanceAs (Decidable True)
  | history, { context, writer := .ingestion documentId _, .. } =>
    inferInstanceAs (Decidable (EarlierStatesEnded documentId context.now history))

theorem unambiguous_appendSourceState {documentId : Uuid} {acceptance : Acceptance}
    {history final : History} {row : Assertion} (hunambiguous : Unambiguous history)
    (hended : EarlierStatesEnded documentId context.now history)
    (hrun : (appendSourceState objects context documentId acceptance).run history =
      .ok (row, final)) : Unambiguous final := by
  unfold appendSourceState at hrun
  split at hrun
  · cases hrun
  · rw [Program.run_acquire_bind, Program.run_select_bind] at hrun
    obtain ⟨hrow, rfl⟩ := Program.run_insert_eq_ok.mp hrun
    obtain ⟨-, hobject, hfamily, heffective, hsupersedes, -⟩ := newAssertion_eq_ok hrow
    refine hunambiguous.insert fun old hold holdObject holdFamily hnot ↦ ?_
    have hstopped := hended old hold (holdObject.trans hobject) (holdFamily.trans hfamily)
      (hsupersedes ▸ hnot)
    obtain ⟨stop, hstop, hle⟩ := (Option.any_eq_true _ _).mp hstopped
    simp only [Interval.overlaps, heffective, before, hstop, Bool.true_and, decide_eq_false_iff_not]
    exact Int.not_lt.mpr (of_decide_eq_true hle)

/-- What one committed write preserves. -/
theorem Unambiguous.commit {history final : History} {write : Write}
    (hunambiguous : Unambiguous history) (hclear : WriteClear history write)
    (hcommit : commit history write = some final) : Unambiguous final := by
  unfold DocStore.commit at hcommit
  cases hrun : (write.writer.program write.objects write.context).run history with
  | error failure => simp [hrun] at hcommit
  | ok result =>
    obtain ⟨value, rows⟩ := result
    simp only [hrun, toOption_ok, Option.map_some, Option.some.injEq] at hcommit
    subst hcommit
    obtain ⟨objects, context, writer⟩ := write
    cases writer with
    | service call => exact hunambiguous.guarded (guarded_call hrun)
    | ingestion documentId acceptance =>
      obtain ⟨row, middle, hrow, hdone⟩ := Program.run_bind_eq_ok.mp hrun
      cases hdone
      exact unambiguous_appendSourceState hunambiguous hclear hrow

/-- **Histories stay unambiguous as long as the ingestion finds the earlier states ended.** Whatever
the calls of the service and the appends of the ingestion, in every history they commit no two
accepted assertions of one object and family are effective at the same instant. -/
theorem unambiguous_of_writes {history : History} (hrun : Steps commit WriteClear [] history) :
    Unambiguous history :=
  hrun.invariant List.Pairwise.nil fun _ _ _ hunambiguous hclear hcommit ↦
    hunambiguous.commit hclear hcommit

/-- The objects of a store with one kind. -/
def documentObjects : Objects where
  kind _ := some (lit "document")
  descendants _ := []

/-- A write to a store of documents that numbers its assertions. -/
def numberedWrite (now : Instant) (writer : Writer) : Write where
  objects := documentObjects
  context := { now, uuid4 := fun rows ↦ BitVec.ofNat 128 (rows.length + 1) }
  writer := writer

/-- Two publications one behind the other. -/
def twoPublications : List Write :=
  [numberedWrite 10 (.ingestion 7 {}), numberedWrite 20 (.ingestion 7 {})]

/-- Two publications leave an unambiguous history. -/
theorem unambiguous_of_two_publications :
    Unambiguous ((replay (guarded commit WriteClear) [] twoPublications).getD []) :=
  unambiguous_of_writes (steps_of_replay (by decide))

/-- A publication, a correction of a part of its source state, and a publication within that
part. -/
def overlappingWrites : List Write :=
  [numberedWrite 10 (.ingestion 7 {}),
    numberedWrite 12 (.service (.replace 1 20 (some 30) {})),
    numberedWrite 25 (.ingestion 7 {})]

/-- The history that these writes leave. -/
def overlappingHistory : History :=
  (replay (guarded commit fun _ _ ↦ True) [] overlappingWrites).getD []

/-- The condition is needed: the state appended at 25 supersedes the right copy and overlaps the
corrected part from 20 to 30. -/
theorem exists_ambiguous_history :
    ∃ history, Steps commit (fun _ _ ↦ True) [] history ∧ ¬Unambiguous history := by
  refine ⟨overlappingHistory, steps_of_replay (by decide), fun hunambiguous ↦ ?_⟩
  have hrows : (acceptedRows overlappingHistory).map
      (fun row ↦ (row.assertionId, row.effective)) =
        [(2, ⟨10, some 20⟩), (3, ⟨20, some 30⟩), (5, ⟨25, none⟩)] := by decide
  have hfamilies : ∀ row ∈ acceptedRows overlappingHistory,
      row.objectId = 7 ∧ row.payloadFamily = sourceStatePayloadFamily := by decide
  have hpairs : (acceptedRows overlappingHistory).Pairwise fun first second ↦
      first.effective.Disjoint second.effective :=
    hunambiguous.imp_of_mem fun {first second} hfirst hsecond hcompatible ↦
      hcompatible ((hfamilies first hfirst).1.trans (hfamilies second hsecond).1.symm)
        ((hfamilies first hfirst).2.trans (hfamilies second hsecond).2.symm)
  have hintervals := (List.pairwise_map (f := fun row : Assertion ↦ (row.assertionId, row.effective))
    (R := fun first second ↦ first.2.Disjoint second.2)).mpr hpairs
  rw [hrows] at hintervals
  have hdisjoint : Interval.Disjoint ⟨20, some 30⟩ ⟨25, none⟩ := by
    simpa using (List.pairwise_cons.mp (List.pairwise_cons.mp hintervals).2).1
  exact hdisjoint 25 ⟨by decide, by decide⟩

end DocStore
