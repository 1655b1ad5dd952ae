import DocStore.Temporal.Ambiguity
import Mathlib.Data.List.Nodup

/-!
# Resolution of a history

A reader asks what was effective at one instant as known at another. `selectVisibleAssertion` derives
supersession from the rows known by then and refuses to choose among several survivors.

The writer guards each payload family of an object by itself, while the reader looks at all rows of
an object. `resolvesCorrectly_iff` says what follows for the histories that sequential calls of the
service build: the reader answers, and rightly, exactly when the assertions known and effective at
the pair belong to one family. The argument is that a history stays unambiguous as known at every
instant (`Timeline.Sound`), because transaction times do not decrease.
-/

set_option autoImplicit false
set_option relaxedAutoImplicit false

namespace DocStore

open Foundation

/-! ### The reader -/

/-- `ResolvedTimePair`. -/
structure ResolvedTimePair where
  actDate : Instant
  knownAt : Instant
deriving DecidableEq, Repr

/-- `_is_visible`: recorded by then, and effective at the instant asked for. -/
def isVisible (row : Assertion) (pair : ResolvedTimePair) : Bool :=
  row.recordedAt ≤ pair.knownAt && containsInstant row.effective pair.actDate

/-- The UUIDs that a row recorded by then supersedes. -/
def supersededAt (knownAt : Instant) (rows : History) : List Uuid :=
  (rows.filter fun row ↦ row.recordedAt ≤ knownAt).filterMap Assertion.supersedesAssertionId

/-- The visible rows that nothing known by then supersedes. -/
def visibleRows (rows : History) (pair : ResolvedTimePair) : History :=
  rows.filter fun row ↦ isVisible row pair &&
    !(supersededAt pair.knownAt rows).contains row.assertionId

/-- `select_visible_assertion`. -/
def selectVisibleAssertion (rows : History) (pair : ResolvedTimePair) :
    Except Failure (Option Assertion) :=
  match visibleRows rows pair with
  | [] => .ok none
  | [winner] => .ok (if winner.assertionKind = .deletion then none else some winner)
  | first :: _ :: rest => .error (.ambiguousAssertion (rest.length + 2) first.objectId
      pair.actDate pair.knownAt)

/-- The rows of one object. -/
def objectRows (objectId : Uuid) (rows : History) : History :=
  rows.filter fun row ↦ row.objectId = objectId

/-- The group of an object, resolved. -/
def resolveObject (rows : History) (pair : ResolvedTimePair) (objectId : Uuid) :
    Except Failure (Option (Uuid × Assertion)) := do
  let winner ← selectVisibleAssertion (objectRows objectId rows) pair
  return winner.map fun row ↦ (objectId, row)

/-- `resolve_visible_versions`: the visible assertion of each object that has one. -/
def resolveVisibleVersions (rows : History) (pair : ResolvedTimePair) :
    Except Failure (List (Uuid × Assertion)) := do
  let winners ← (rows.map Assertion.objectId).eraseDups.mapM (resolveObject rows pair)
  return winners.filterMap id

/-! ### What a history says at an instant -/

/-- The rows recorded by an instant. -/
def knownRows (knownAt : Instant) (rows : History) : History :=
  rows.filter fun row ↦ row.recordedAt ≤ knownAt

/-- The assertions accepted by the rows known by an instant. -/
def acceptedAt (knownAt : Instant) (rows : History) : History :=
  acceptedRows (knownRows knownAt rows)

/-- The reader sees the assertions accepted at known time that are effective at the act date. -/
theorem visibleRows_eq (rows : History) (pair : ResolvedTimePair) :
    visibleRows rows pair = (acceptedAt pair.knownAt rows).filter fun row ↦
      containsInstant row.effective pair.actDate := by
  rw [acceptedAt, acceptedRows, liveRows, List.filter_filter, knownRows, List.filter_filter,
    visibleRows]
  refine List.filter_congr fun row _ ↦ ?_
  have hsuperseded : (supersededAt pair.knownAt rows).contains row.assertionId =
      isSucceeded Assertion.supersedesAssertionId
        (rows.filter fun row ↦ row.recordedAt ≤ pair.knownAt) row.assertionId := by
    rw [Bool.eq_iff_iff]
    simp [supersededAt, isSucceeded, and_assoc]
  rw [hsuperseded, isVisible]
  cases containsInstant row.effective pair.actDate <;> simp [Bool.and_comm]

/-! ### Histories of sequential calls -/

/-- A history with the latest transaction time. -/
structure Timeline where
  history : History
  clock : Instant

/-- Commits a write whose transaction starts no earlier than the previous one. -/
def Timeline.commit (timeline : Timeline) (write : Write) : Option Timeline :=
  if timeline.clock ≤ write.context.now then
    (DocStore.commit timeline.history write).map fun history ↦
      { history, clock := write.context.now }
  else none

/-- A write that is a call of the service. -/
def ServiceWrite (_ : Timeline) (write : Write) : Prop :=
  match write.writer with
  | .service _ => True
  | .ingestion _ _ => False

instance : ∀ timeline write, Decidable (ServiceWrite timeline write)
  | _, { writer := .service _, .. } => inferInstanceAs (Decidable True)
  | _, { writer := .ingestion _ _, .. } => inferInstanceAs (Decidable False)

/-- What sequential calls keep: nothing is recorded in the future, no UUID is used twice, an
assertion is superseded by assertions of its own object, and the history is unambiguous as known at
every instant. -/
structure Timeline.Sound (timeline : Timeline) : Prop where
  recorded : ∀ row ∈ timeline.history, row.recordedAt ≤ timeline.clock
  nodup : (timeline.history.map Assertion.assertionId).Nodup
  linked : ∀ row ∈ timeline.history, ∀ assertionId, row.supersedesAssertionId = some assertionId →
    ∃ old ∈ timeline.history, old.assertionId = assertionId ∧ old.objectId = row.objectId
  unambiguous : ∀ instant, Unambiguous (knownRows instant timeline.history)

/-- A guarded extension adds rows recorded at its transaction time. -/
theorem Guarded.added {now : Instant} {history final : History}
    (hguarded : Guarded now history final) :
    ∃ added, final = history ++ added ∧ ∀ row ∈ added, row.recordedAt = now := by
  refine hguarded.keeps (motive := fun log ↦ ∃ added, log = history ++ added ∧
    ∀ row ∈ added, row.recordedAt = now) ⟨[], by simp, by simp⟩ ?_
  rintro _ row ⟨added, rfl, hadded⟩ hrow
  refine ⟨added ++ [row], List.append_assoc .., fun other hother ↦ ?_⟩
  rcases List.mem_append.mp hother with hold | hnew
  · exact hadded other hold
  · exact List.mem_singleton.mp hnew ▸ hrow.recorded

theorem knownRows_of_forall_le {instant : Instant} {rows : History}
    (hrecorded : ∀ row ∈ rows, row.recordedAt ≤ instant) : knownRows instant rows = rows :=
  List.filter_eq_self.mpr fun row hmem ↦ decide_eq_true (hrecorded row hmem)

/-- Rows recorded later are not known. -/
theorem knownRows_append_of_forall_lt {instant : Instant} {rows added : History}
    (hlater : ∀ row ∈ added, instant < row.recordedAt) :
    knownRows instant (rows ++ added) = knownRows instant rows := by
  have hnone : added.filter (fun row ↦ decide (row.recordedAt ≤ instant)) = [] :=
    List.filter_eq_nil_iff.mpr fun row hmem ↦ by simpa using hlater row hmem
  rw [knownRows, List.filter_append, hnone, List.append_nil, knownRows]

/-- What one guarded extension preserves. -/
theorem Timeline.Sound.guarded {timeline : Timeline} (hsound : timeline.Sound) {now : Instant}
    {final : History} (hclock : timeline.clock ≤ now)
    (hguarded : Guarded now timeline.history final) :
    Timeline.Sound { history := final, clock := now } := by
  obtain ⟨added, hfinal, hadded⟩ := hguarded.added
  have hrecorded : ∀ row ∈ final, row.recordedAt ≤ now := by
    intro row hmem
    rcases List.mem_append.mp (hfinal ▸ hmem) with hold | hnew
    · exact Int.le_trans (hsound.recorded row hold) hclock
    · exact Int.le_of_eq (hadded row hnew)
  refine ⟨hrecorded, ?_, ?_, ?_⟩
  · refine hguarded.keeps (motive := fun log ↦ (log.map Assertion.assertionId).Nodup)
      hsound.nodup fun log row hlog hrow ↦ ?_
    rw [List.map_append, List.map_singleton, List.nodup_append]
    refine ⟨hlog, by simp, ?_⟩
    rintro _ hold _ hnew rfl
    obtain ⟨old, hmem, hid⟩ := List.mem_map.mp hold
    exact hrow.fresh old hmem (hid.trans (List.mem_singleton.mp hnew))
  · refine hguarded.keeps (motive := fun log ↦ ∀ row ∈ log, ∀ assertionId,
      row.supersedesAssertionId = some assertionId →
        ∃ old ∈ log, old.assertionId = assertionId ∧ old.objectId = row.objectId)
      hsound.linked fun log new hlog hnew row hmem assertionId hsupersedes ↦ ?_
    rcases List.mem_append.mp hmem with hold | hadd
    · obtain ⟨old, holdMem, hold⟩ := hlog row hold assertionId hsupersedes
      exact ⟨old, List.mem_append_left _ holdMem, hold⟩
    · obtain rfl := List.mem_singleton.mp hadd
      obtain ⟨old, holdMem, hid, hobject, -⟩ := hnew.prior assertionId hsupersedes
      exact ⟨old, List.mem_append_left _ holdMem, hid, hobject⟩
  · intro instant
    by_cases hearlier : instant < now
    · have hlater : ∀ row ∈ added, instant < row.recordedAt := fun row hmem ↦
        hadded row hmem ▸ hearlier
      rw [hfinal, knownRows_append_of_forall_lt hlater]
      exact hsound.unambiguous instant
    · have hle : now ≤ instant := Int.not_lt.mp hearlier
      have hnow := hsound.unambiguous now
      rw [knownRows_of_forall_le fun row hmem ↦
        Int.le_trans (hsound.recorded row hmem) hclock] at hnow
      rw [knownRows_of_forall_le fun row hmem ↦ Int.le_trans (hrecorded row hmem) hle]
      exact hnow.guarded hguarded

/-- The history of a committed call is a guarded extension. -/
theorem guarded_of_commit {timeline : Timeline} {history final : History} {write : Write}
    (hservice : ServiceWrite timeline write) (hcommit : commit history write = some final) :
    Guarded write.context.now history final := by
  obtain ⟨objects, context, writer⟩ := write
  cases writer with
  | ingestion documentId acceptance => exact hservice.elim
  | service call =>
    simp only [commit, Writer.program] at hcommit
    cases hrun : (call.program objects context).run history with
    | error failure => simp [hrun] at hcommit
    | ok result =>
      simp only [hrun, toOption_ok, Option.map_some, Option.some.injEq] at hcommit
      subst hcommit
      exact guarded_call hrun

/-- Sequential calls of the service build sound timelines. -/
theorem Timeline.sound_of_calls {start : Instant} {timeline : Timeline}
    (hrun : Steps Timeline.commit ServiceWrite { history := [], clock := start } timeline) :
    timeline.Sound := by
  refine hrun.invariant ⟨by simp, by simp, by simp, fun _ ↦ List.Pairwise.nil⟩ ?_
  intro earlier write next hsound hservice hcommit
  simp only [Timeline.commit, Option.ite_none_right_eq_some] at hcommit
  obtain ⟨hclock, hnext⟩ := hcommit
  obtain ⟨final, hfinal, rfl⟩ := Option.map_eq_some_iff.mp hnext
  exact hsound.guarded hclock (guarded_of_commit hservice hfinal)

/-! ### The reader's answer -/

/-- Among sound rows, an assertion is superseded by rows of its own object only. -/
theorem Timeline.Sound.isSucceeded_objectRows {timeline : Timeline} (hsound : timeline.Sound)
    {row : Assertion} (hmem : row ∈ timeline.history) (instant : Instant) :
    isSucceeded Assertion.supersedesAssertionId
        (knownRows instant (objectRows row.objectId timeline.history)) row.assertionId =
      isSucceeded Assertion.supersedesAssertionId (knownRows instant timeline.history)
        row.assertionId := by
  rw [Bool.eq_iff_iff]
  simp only [isSucceeded, knownRows, objectRows, List.any_eq_true, List.mem_filter,
    decide_eq_true_eq]
  constructor
  · rintro ⟨later, ⟨⟨hlater, -⟩, hknown⟩, hsupersedes⟩
    exact ⟨later, ⟨hlater, hknown⟩, hsupersedes⟩
  · rintro ⟨later, ⟨hlater, hknown⟩, hsupersedes⟩
    obtain ⟨old, hold, hid, hobject⟩ := hsound.linked later hlater row.assertionId hsupersedes
    have hsame : old = row := List.inj_on_of_nodup_map hsound.nodup hold hmem hid
    exact ⟨later, ⟨⟨hlater, hsame ▸ hobject.symm⟩, hknown⟩, hsupersedes⟩

/-- The assertions accepted by the rows of one object are the accepted ones of that object. -/
theorem Timeline.Sound.acceptedAt_objectRows {timeline : Timeline} (hsound : timeline.Sound)
    (objectId : Uuid) (instant : Instant) :
    acceptedAt instant (objectRows objectId timeline.history) =
      (acceptedAt instant timeline.history).filter fun row ↦ row.objectId = objectId := by
  rw [acceptedAt, acceptedAt, acceptedRows, acceptedRows, liveRows, liveRows]
  have hleft : knownRows instant (objectRows objectId timeline.history) =
      timeline.history.filter fun row ↦
        decide (row.recordedAt ≤ instant) && decide (row.objectId = objectId) :=
    List.filter_filter
  have hright : knownRows instant timeline.history =
      timeline.history.filter fun row ↦ decide (row.recordedAt ≤ instant) :=
    rfl
  rw [hleft, hright, List.filter_filter, List.filter_filter, List.filter_filter, ← hleft, ← hright]
  refine List.filter_congr fun row hmem ↦ ?_
  by_cases hobject : row.objectId = objectId
  · subst hobject
    rw [hsound.isSucceeded_objectRows hmem]
    simp
  · simp [hobject]

/-- The assertions of an object that are known and effective at a pair belong to one family. -/
def OneFamily (rows : History) (pair : ResolvedTimePair) : Prop :=
  ∀ first ∈ acceptedAt pair.knownAt rows, ∀ second ∈ acceptedAt pair.knownAt rows,
    containsInstant first.effective pair.actDate = true →
    containsInstant second.effective pair.actDate = true →
    first.payloadFamily = second.payloadFamily

/-- The reader answers, and names a row exactly when the history known by then has an accepted
assertion that is no deletion and is effective at the act date. -/
def ResolvesCorrectly (rows : History) (objectId : Uuid) (pair : ResolvedTimePair) : Prop :=
  ∃ resolved, resolveVisibleVersions rows pair = .ok resolved ∧
    ((∃ row, (objectId, row) ∈ resolved) ↔
      ∃ row ∈ acceptedAt pair.knownAt rows, row.assertionKind ≠ .deletion ∧
        containsInstant row.effective pair.actDate = true)

/-- Among the assertions of one family, at most one is visible. -/
theorem Timeline.Sound.length_visibleRows_le_one {timeline : Timeline} (hsound : timeline.Sound)
    {objectId : Uuid} {pair : ResolvedTimePair}
    (hfamily : OneFamily (objectRows objectId timeline.history) pair) :
    (visibleRows (objectRows objectId timeline.history) pair).length ≤ 1 := by
  rw [OneFamily] at hfamily
  rw [visibleRows_eq]
  rw [hsound.acceptedAt_objectRows] at hfamily ⊢
  have hpairs : ((acceptedAt pair.knownAt timeline.history).filter fun row ↦
      row.objectId = objectId).Pairwise Compatible := (hsound.unambiguous pair.knownAt).filter _
  have hvisible := hpairs.filter fun row ↦ containsInstant row.effective pair.actDate
  generalize hrows : ((acceptedAt pair.knownAt timeline.history).filter fun row ↦
    row.objectId = objectId).filter (fun row ↦ containsInstant row.effective pair.actDate) = rows
    at hvisible ⊢
  match rows, hvisible with
  | [], _ => simp
  | [_], _ => simp
  | first :: second :: rest, hvisible =>
    have hmem : ∀ row ∈ first :: second :: rest,
        (row ∈ acceptedAt pair.knownAt timeline.history ∧ row.objectId = objectId) ∧
          containsInstant row.effective pair.actDate = true := by
      intro row hrow
      obtain ⟨haccepted, heffective⟩ := List.mem_filter.mp (hrows.symm ▸ hrow)
      exact ⟨by simpa [List.mem_filter] using haccepted, heffective⟩
    have hfirst := hmem first (by simp)
    have hsecond := hmem second (by simp)
    have hdisjoint := (List.pairwise_cons.mp hvisible).1 second (by simp)
      (hfirst.1.2.trans hsecond.1.2.symm)
      (hfamily first (by simpa [List.mem_filter] using hfirst.1) second
        (by simpa [List.mem_filter] using hsecond.1) hfirst.2 hsecond.2)
    exact absurd ⟨hfirst.2, hsecond.2⟩ (hdisjoint pair.actDate)

/-- The rows of one object form one group. -/
theorem eraseDups_objectIds {rows : History} {objectId : Uuid}
    (hobject : ∀ row ∈ rows, row.objectId = objectId) :
    (rows.map Assertion.objectId).eraseDups = if rows.isEmpty then [] else [objectId] := by
  cases rows with
  | nil => rfl
  | cons row rows =>
    have hrest : (rows.map Assertion.objectId).filter (fun other ↦ !other == row.objectId) = [] := by
      simp only [List.filter_eq_nil_iff, List.mem_map]
      rintro _ ⟨other, hmem, rfl⟩
      simp [hobject row (by simp), hobject other (List.mem_cons_of_mem _ hmem)]
    rw [List.map_cons, List.eraseDups_cons, hrest]
    simp [hobject row (by simp)]

/-- Over the rows of one object, the reader answers with the visible assertion of that object. -/
theorem resolveVisibleVersions_of_one_object {rows : History} {objectId : Uuid}
    (hobject : ∀ row ∈ rows, row.objectId = objectId) (pair : ResolvedTimePair) :
    resolveVisibleVersions rows pair =
      (selectVisibleAssertion rows pair).map fun winner ↦
        (winner.map fun row ↦ (objectId, row)).toList := by
  have hrows : objectRows objectId rows = rows :=
    List.filter_eq_self.mpr fun row hmem ↦ decide_eq_true (hobject row hmem)
  rw [resolveVisibleVersions, eraseDups_objectIds hobject]
  cases hempty : rows.isEmpty with
  | true =>
    rw [List.isEmpty_iff.mp hempty]
    rfl
  | false =>
    simp only [Bool.false_eq_true, if_false, List.mapM_cons, List.mapM_nil, resolveObject, hrows]
    cases hselect : selectVisibleAssertion rows pair with
    | error failure => rfl
    | ok winner => cases winner <;> rfl

/-- **The reader agrees with the writer exactly within one family.** Over all rows of an object in a
history that sequential calls of the service have built, at non-decreasing transaction times, the
reader answers correctly if and only if the assertions known and effective at the pair belong to one
payload family. -/
theorem resolvesCorrectly_iff {start : Instant} {timeline : Timeline}
    (hrun : Steps Timeline.commit ServiceWrite { history := [], clock := start } timeline)
    (objectId : Uuid) (pair : ResolvedTimePair) :
    ResolvesCorrectly (objectRows objectId timeline.history) objectId pair ↔
      OneFamily (objectRows objectId timeline.history) pair := by
  have hsound := Timeline.sound_of_calls hrun
  have hobject : ∀ row ∈ objectRows objectId timeline.history, row.objectId = objectId :=
    fun row hmem ↦ of_decide_eq_true (List.mem_filter.mp hmem).2
  have hlength : OneFamily (objectRows objectId timeline.history) pair →
      (visibleRows (objectRows objectId timeline.history) pair).length ≤ 1 :=
    hsound.length_visibleRows_le_one
  rw [ResolvesCorrectly, resolveVisibleVersions_of_one_object hobject, selectVisibleAssertion]
  have hmem : ∀ row, row ∈ visibleRows (objectRows objectId timeline.history) pair ↔
      row ∈ acceptedAt pair.knownAt (objectRows objectId timeline.history) ∧
        containsInstant row.effective pair.actDate = true := by
    intro row
    rw [visibleRows_eq, List.mem_filter]
  rw [OneFamily]
  match hvisible : visibleRows (objectRows objectId timeline.history) pair with
  | [] =>
    have hnone : ∀ row ∈ acceptedAt pair.knownAt (objectRows objectId timeline.history),
        containsInstant row.effective pair.actDate ≠ true := fun row hrow heffective ↦ by
      simpa [hvisible] using (hmem row).mpr ⟨hrow, heffective⟩
    refine iff_of_true ⟨[], rfl, ?_⟩ fun first hfirst _ _ heffective ↦
      absurd heffective (hnone first hfirst)
    simp only [List.not_mem_nil, exists_false, false_iff]
    rintro ⟨row, hrow, -, heffective⟩
    exact hnone row hrow heffective
  | [winner] =>
    have honly : ∀ row ∈ acceptedAt pair.knownAt (objectRows objectId timeline.history),
        containsInstant row.effective pair.actDate = true → row = winner := fun row hrow heffective ↦
      by simpa [hvisible] using (hmem row).mpr ⟨hrow, heffective⟩
    have hwinner := (hmem winner).mp (by simp [hvisible])
    refine iff_of_true ⟨_, rfl, ?_⟩ fun first hfirst second hsecond heffective heffective' ↦ by
      rw [honly first hfirst heffective, honly second hsecond heffective']
    by_cases hdeletion : winner.assertionKind = .deletion
    · simp only [hdeletion, if_true, Option.map_none, Option.toList_none, List.not_mem_nil,
        exists_false, false_iff]
      rintro ⟨row, hrow, hkind, heffective⟩
      exact hkind (honly row hrow heffective ▸ hdeletion)
    · simp only [hdeletion, if_false, Option.map_some, Option.toList_some, List.mem_singleton,
        Prod.mk.injEq, true_and, exists_eq, true_iff]
      exact ⟨winner, hwinner.1, hdeletion, hwinner.2⟩
  | first :: second :: rest =>
    refine iff_of_false ?_ fun hfamily ↦ ?_
    · rintro ⟨_, hresolved, -⟩
      cases hresolved
    · simpa [hvisible] using hlength hfamily

/-- A write of the service to a store of documents that numbers its assertions. -/
def numberedCall (now : Instant) (call : Call) : Write := numberedWrite now (.service call)

/-- Two assertions of one object over the same time, in two families. -/
def twoFamilies : List Write :=
  [numberedCall 1 (.create 7 0 none none .payload {}),
    numberedCall 2 (.create 7 5 (some 9) (some (lit "content_attachment")) .payload {})]

/-- The timeline that they leave. -/
def twoFamiliesTimeline : Timeline :=
  (replay (guarded Timeline.commit ServiceWrite) { history := [], clock := 0 } twoFamilies).getD
    { history := [], clock := 0 }

theorem twoFamilies_run :
    Steps Timeline.commit ServiceWrite { history := [], clock := 0 } twoFamiliesTimeline :=
  steps_of_replay (by decide)

/-- Before the second family starts, the reader answers. -/
theorem resolvesCorrectly_before_second_family :
    ResolvesCorrectly (objectRows 7 twoFamiliesTimeline.history) 7
      { actDate := 4, knownAt := 2 } :=
  (resolvesCorrectly_iff twoFamilies_run 7 { actDate := 4, knownAt := 2 }).mpr
    (by unfold OneFamily; decide)

/-- The writer accepts assertions of two families over one instant, and the reader refuses them. -/
theorem exists_unresolved_history :
    ∃ timeline : Timeline,
      Steps Timeline.commit ServiceWrite { history := [], clock := 0 } timeline ∧
        ¬ResolvesCorrectly (objectRows 7 timeline.history) 7 { actDate := 6, knownAt := 2 } := by
  refine ⟨twoFamiliesTimeline, twoFamilies_run, ?_⟩
  rintro ⟨resolved, hresolved, -⟩
  have hrefused : toOption (resolveVisibleVersions
      (objectRows 7 twoFamiliesTimeline.history) { actDate := 6, knownAt := 2 }) = none := by
    rfl
  rw [hresolved] at hrefused
  cases hrefused

end DocStore
