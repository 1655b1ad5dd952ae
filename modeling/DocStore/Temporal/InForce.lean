import DocStore.Temporal.AcceptedOrder
import DocStore.Temporal.Concurrency
import DocStore.Temporal.Intervals

/-!
# What is in force

The accepted assertions of an object and a family, each over its interval, say what is in force at an
instant. As long as no two of them have a common instant, the reader of that family answers with
the assertion in force, or with nothing when that is a deletion (`selectVisibleAssertion_familyRows`).

A correction appends successors of at most one assertion (`Successors`). It takes that assertion out
of the accepted ones and puts the successors in (`Successors.familyAccepted`), so that what is in
force afterwards follows from what the successors cover.
-/

set_option autoImplicit false
set_option relaxedAutoImplicit false

namespace DocStore

open Foundation

/-- Every history is known at some time. -/
theorem exists_recordedBy (rows : History) : ∃ knownAt, RecordedBy knownAt rows := by
  induction rows with
  | nil => exact ⟨0, List.forall_mem_nil _⟩
  | cons row rows ih =>
    obtain ⟨knownAt, hknown⟩ := ih
    exact ⟨max row.recordedAt knownAt, List.forall_mem_cons.mpr ⟨le_max_left _ _, fun other hmem ↦
      le_max_of_le_right (hknown other hmem)⟩⟩

/-! ### Stored histories -/

/-- A history as the table keeps it: linked, with intervals that end behind their starts. -/
structure Stored (history : History) : Prop extends Linked history where
  proper : ∀ row ∈ history, row.effective.Proper

section Writers

variable {objects : Objects} {context : TxContext} {log final : History}

/-- A call appends rows with proper intervals. -/
theorem proper_of_call {call : Call} {result : Unit} (hlog : ∀ row ∈ log, row.effective.Proper)
    (hrun : (call.program objects context).run log = .ok (result, final)) :
    ∀ row ∈ final, row.effective.Proper := by
  have hmaintains := @maintains_call objects context (fun rows ↦ ∀ row ∈ rows, row.effective.Proper)
    (fun appended row _ hproper happended ↦
      List.forall_mem_append.mpr ⟨happended, List.forall_mem_singleton.mpr hproper⟩) call
  obtain ⟨added, rfl, hadded⟩ := (hmaintains [] (List.forall_mem_nil _)).of_run hrun
  exact List.forall_mem_append.mpr ⟨hlog, hadded⟩

/-- What a committed write keeps. -/
theorem Stored.commit {write : Write} (hlog : Stored log) (hcommit : commit log write = some final) :
    Stored final := by
  obtain ⟨objects, context, writer⟩ := write
  obtain ⟨⟨value, rows⟩, hresult, rfl⟩ := Option.map_eq_some_iff.mp hcommit
  cases writer with
  | service call =>
    have hrun := toOption_eq_some.mp hresult
    exact ⟨hlog.toLinked.guarded (guarded_call hrun), proper_of_call hlog.proper hrun⟩
  | ingestion documentId acceptance =>
    obtain ⟨row, middle, hrun, hdone⟩ :=
      Program.run_bind_eq_ok.mp (toOption_eq_some.mp hresult)
    cases hdone
    refine ⟨hlog.toLinked.publish hrun, ?_⟩
    obtain ⟨hrow, rfl⟩ := appendSourceState_eq_ok hrun
    exact List.forall_mem_append.mpr
      ⟨hlog.proper, List.forall_mem_singleton.mpr (proper_of_newAssertion hrow)⟩

/-- Every history that writes have left is stored. -/
theorem stored_of_writes {history : History} {allowed : History → Write → Prop}
    (hrun : Steps commit allowed [] history) : Stored history :=
  hrun.invariant ⟨⟨List.nodup_nil, by simp⟩, by simp⟩ fun _ _ _ hstored _ hcommit ↦
    hstored.commit hcommit

end Writers

/-! ### The assertions of a family -/

/-- The rows of an object and a family. -/
def familyRows (objectId : Uuid) (payloadFamily : Text) (rows : History) : History :=
  rows.filter fun row ↦ row.objectId = objectId && row.payloadFamily = payloadFamily

/-- The accepted assertions of an object and a family. -/
def familyAccepted (objectId : Uuid) (payloadFamily : Text) (rows : History) : History :=
  familyRows objectId payloadFamily (acceptedRows rows)

/-- Whether an assertion is effective at an instant. -/
def effectiveAt (row : Assertion) (instant : Instant) : Bool :=
  containsInstant row.effective instant

/-- No two accepted assertions of an object and a family are effective at a common instant. -/
def FamilyApart (objectId : Uuid) (payloadFamily : Text) (rows : History) : Prop :=
  Apart effectiveAt (familyAccepted objectId payloadFamily rows)

/-- The assertion of an object and a family that is in force at an instant. -/
def inForce (objectId : Uuid) (payloadFamily : Text) (rows : History) (instant : Instant) :
    Option Assertion :=
  rowAt effectiveAt (familyAccepted objectId payloadFamily rows) instant

/-- The assertion in force, unless it is a deletion. -/
def inSight (objectId : Uuid) (payloadFamily : Text) (rows : History) (instant : Instant) :
    Option Assertion :=
  (inForce objectId payloadFamily rows instant).filter fun row ↦ row.assertionKind ≠ .deletion

section Families

variable {history added : History} {objectId : Uuid} {payloadFamily : Text} {row : Assertion}

theorem mem_familyRows : row ∈ familyRows objectId payloadFamily history ↔
    row ∈ history ∧ row.objectId = objectId ∧ row.payloadFamily = payloadFamily := by
  simp [familyRows]

theorem mem_acceptedRows : row ∈ acceptedRows history ↔
    row ∈ history ∧ ∀ later ∈ history, later.supersedesAssertionId ≠ some row.assertionId :=
  mem_liveRows

/-- What is accepted behind an append was accepted before, or is new. -/
theorem acceptedRows_of_append (hrow : row ∈ acceptedRows (history ++ added)) :
    row ∈ acceptedRows history ∨ row ∈ added := by
  obtain ⟨hmem, hlive⟩ := mem_acceptedRows.mp hrow
  refine (List.mem_append.mp hmem).imp_left fun hold ↦ mem_acceptedRows.mpr ⟨hold, fun later hlater ↦ ?_⟩
  exact hlive later (List.mem_append_left _ hlater)

theorem mem_familyAccepted : row ∈ familyAccepted objectId payloadFamily history ↔
    row ∈ acceptedRows history ∧ row.objectId = objectId ∧ row.payloadFamily = payloadFamily :=
  mem_familyRows

/-- The accepted rows among those of a family are the accepted assertions of the family. -/
theorem Linked.acceptedRows_familyRows (hlinked : Linked history) :
    acceptedRows (familyRows objectId payloadFamily history) =
      familyAccepted objectId payloadFamily history := by
  rw [acceptedRows, liveRows, familyAccepted, acceptedRows, liveRows, familyRows, familyRows,
    List.filter_filter, List.filter_filter]
  refine List.filter_congr fun row hmem ↦ ?_
  by_cases hfamily : row.objectId = objectId ∧ row.payloadFamily = payloadFamily
  · have hsame : isSucceeded Assertion.supersedesAssertionId
        (familyRows objectId payloadFamily history) row.assertionId =
          isSucceeded Assertion.supersedesAssertionId history row.assertionId := by
      rw [Bool.eq_iff_iff, isSucceeded, isSucceeded, List.any_eq_true, List.any_eq_true]
      constructor
      · rintro ⟨later, hlater, hsupersedes⟩
        exact ⟨later, (List.mem_filter.mp hlater).1, hsupersedes⟩
      · rintro ⟨later, hlater, hsupersedes⟩
        obtain ⟨old, hold, hid, hobject, hfamily'⟩ :=
          hlinked.prior later hlater row.assertionId (of_decide_eq_true hsupersedes)
        obtain rfl : old = row := List.inj_on_of_nodup_map hlinked.nodup hold hmem hid
        exact ⟨later, mem_familyRows.mpr
          ⟨hlater, hobject.symm.trans hfamily.1, hfamily'.symm.trans hfamily.2⟩, hsupersedes⟩
    rw [familyRows] at hsame
    rw [hsame, Bool.and_comm]
  · have hnot : (decide (row.objectId = objectId) && decide (row.payloadFamily = payloadFamily)) =
        false := by simpa using hfamily
    rw [hnot, Bool.and_false, Bool.false_and]

/-- When everything is known, the assertion in force is the only one left to the reader of its
family. -/
theorem visibleRows_familyRows (hlinked : Linked history)
    (hapart : FamilyApart objectId payloadFamily history) {pair : ResolvedTimePair}
    (hknown : RecordedBy pair.knownAt history) :
    visibleRows (familyRows objectId payloadFamily history) pair =
      (inForce objectId payloadFamily history pair.actDate).toList := by
  have hall : knownRows pair.knownAt (familyRows objectId payloadFamily history) =
      familyRows objectId payloadFamily history :=
    knownRows_of_forall_le fun row hmem ↦ hknown row (mem_familyRows.mp hmem).1
  rw [visibleRows_eq, acceptedAt, hall, hlinked.acceptedRows_familyRows]
  exact filter_covers hapart pair.actDate

/-- **The reader of a family answers with the assertion in force**, or with nothing when it is a
deletion. -/
theorem selectVisibleAssertion_familyRows (hlinked : Linked history)
    (hapart : FamilyApart objectId payloadFamily history) {pair : ResolvedTimePair}
    (hknown : RecordedBy pair.knownAt history) :
    selectVisibleAssertion (familyRows objectId payloadFamily history) pair =
      .ok (inSight objectId payloadFamily history pair.actDate) := by
  rw [selectVisibleAssertion, visibleRows_familyRows hlinked hapart hknown, inSight]
  cases hwinner : inForce objectId payloadFamily history pair.actDate with
  | none => rfl
  | some winner =>
    by_cases hdeletion : winner.assertionKind = .deletion <;> simp [hdeletion, Option.filter_some]

end Families

/-! ### Successors -/

/-- What a correction appends to a history: new rows of an object and a family that all supersede
the same assertion of it, if any. -/
structure Successors (history : History) (objectId : Uuid) (payloadFamily : Text)
    (prior : Option Assertion) (added : History) : Prop where
  fresh : ∀ new ∈ added, ∀ old ∈ history, old.assertionId ≠ new.assertionId
  owned : ∀ new ∈ added, new.objectId = objectId ∧ new.payloadFamily = payloadFamily
  supersedes : ∀ new ∈ added, new.supersedesAssertionId = prior.map Assertion.assertionId
  prior : ∀ old, prior = some old →
    old ∈ history ∧ old.objectId = objectId ∧ old.payloadFamily = payloadFamily

section Corrections

variable {history added : History} {objectId other : Uuid} {payloadFamily family : Text}
  {prior : Option Assertion}

/-- The accepted rows behind a correction: the old ones but the corrected one, and the new ones. -/
theorem Successors.acceptedRows (hsuccessors : Successors history objectId payloadFamily prior added)
    (hlinked : Linked history) (hadded : added ≠ []) :
    acceptedRows (history ++ added) =
      (acceptedRows history).filter (fun row ↦ prior.map Assertion.assertionId ≠
        some row.assertionId) ++ added := by
  rw [DocStore.acceptedRows, liveRows, List.filter_append, DocStore.acceptedRows, liveRows,
    List.filter_filter]
  congr 1
  · refine List.filter_congr fun row _ ↦ ?_
    have hnew : isSucceeded Assertion.supersedesAssertionId added row.assertionId =
        decide (prior.map Assertion.assertionId = some row.assertionId) := by
      rw [Bool.eq_iff_iff, isSucceeded, List.any_eq_true, decide_eq_true_eq]
      constructor
      · rintro ⟨new, hnew, hsupersedes⟩
        exact (hsuccessors.supersedes new hnew).symm.trans (of_decide_eq_true hsupersedes)
      · intro hprior
        obtain ⟨new, hnew⟩ := List.exists_mem_of_ne_nil added hadded
        exact ⟨new, hnew, decide_eq_true ((hsuccessors.supersedes new hnew).trans hprior)⟩
    rw [isSucceeded_append, hnew, Bool.not_or, Bool.and_comm, ← decide_not]
  · refine List.filter_eq_self.mpr fun new hnew ↦ ?_
    rw [isSucceeded_append, Bool.not_eq_true', Bool.or_eq_false_iff]
    constructor
    · refine List.any_eq_false.mpr fun later hlater hsupersedes ↦ ?_
      obtain ⟨old, hold, hid, -⟩ :=
        hlinked.prior later hlater new.assertionId (of_decide_eq_true hsupersedes)
      exact hsuccessors.fresh new hnew old hold hid
    · refine List.any_eq_false.mpr fun later hlater hsupersedes ↦ ?_
      have hprior := (hsuccessors.supersedes later hlater).symm.trans
        (of_decide_eq_true hsupersedes)
      obtain ⟨old, hold, hid⟩ := Option.map_eq_some_iff.mp hprior
      exact hsuccessors.fresh new hnew old (hsuccessors.prior old hold).1 hid

/-- The accepted assertions of the corrected family. -/
theorem Successors.familyAccepted
    (hsuccessors : Successors history objectId payloadFamily prior added)
    (hlinked : Linked history) (hadded : added ≠ []) :
    familyAccepted objectId payloadFamily (history ++ added) =
      (familyAccepted objectId payloadFamily history).filter (fun row ↦
        prior.map Assertion.assertionId ≠ some row.assertionId) ++ added := by
  have hown : familyRows objectId payloadFamily added = added :=
    List.filter_eq_self.mpr fun new hnew ↦ by simpa using hsuccessors.owned new hnew
  rw [DocStore.familyAccepted, hsuccessors.acceptedRows hlinked hadded, familyRows,
    List.filter_append, ← familyRows, ← familyRows, hown, DocStore.familyAccepted, familyRows,
    familyRows, List.filter_filter, List.filter_filter]
  simp only [Bool.and_comm]

/-- A correction leaves the accepted assertions of other objects as they are. -/
theorem Successors.familyAccepted_of_ne {old : Assertion}
    (hsuccessors : Successors history objectId payloadFamily (some old) added)
    (hlinked : Linked history) (hadded : added ≠ []) (hne : other ≠ objectId) :
    DocStore.familyAccepted other family (history ++ added) =
      DocStore.familyAccepted other family history := by
  obtain ⟨hold, hobject, -⟩ := hsuccessors.prior old rfl
  have hown : familyRows other family added = [] :=
    List.filter_eq_nil_iff.mpr fun new hnew ↦ by
      simp [(hsuccessors.owned new hnew).1, hne.symm]
  rw [DocStore.familyAccepted, hsuccessors.acceptedRows hlinked hadded, familyRows,
    List.filter_append, ← familyRows, ← familyRows, hown, List.append_nil, DocStore.familyAccepted,
    familyRows, familyRows, List.filter_filter]
  refine List.filter_congr fun row hrow ↦ ?_
  by_cases hother : row.objectId = other
  · have hid : (some old).map Assertion.assertionId ≠ some row.assertionId := by
      intro heq
      have hsame := List.inj_on_of_nodup_map hlinked.nodup hold (mem_acceptedRows.mp hrow).1
        (Option.some.inj heq)
      exact hne (hother.symm.trans (hsame ▸ hobject))
    rw [decide_eq_true hid, Bool.and_true]
  · simp [hother]

/-- **What is in force behind a correction** whose successors lie within the corrected assertion:
over its interval one of the successors if any, elsewhere what was in force before. -/
theorem Successors.inForce {old : Assertion}
    (hsuccessors : Successors history objectId payloadFamily (some old) added)
    (hstored : Stored history) (hapart : FamilyApart objectId payloadFamily history)
    (hold : old ∈ DocStore.familyAccepted objectId payloadFamily history) (hadded : added ≠ [])
    (hseparate : Apart effectiveAt added)
    (hwithin : ∀ new ∈ added, ∀ instant, effectiveAt new instant = true →
      containsInstant old.effective instant = true) :
    FamilyApart objectId payloadFamily (history ++ added) ∧ ∀ instant,
      inForce objectId payloadFamily (history ++ added) instant =
        if containsInstant old.effective instant then rowAt effectiveAt added instant
        else inForce objectId payloadFamily history instant := by
  have hmem := (mem_acceptedRows.mp (mem_familyAccepted.mp hold).1).1
  have hrows := hsuccessors.familyAccepted hstored.toLinked hadded
  have hdropped : decide ((some old).map Assertion.assertionId ≠ some old.assertionId) = false := by
    simp
  have honly : ∀ row ∈ DocStore.familyAccepted objectId payloadFamily history,
      decide ((some old).map Assertion.assertionId ≠ some row.assertionId) = false →
        row = old := by
    intro row hrow hid
    have hsame := Option.some.inj (not_not.mp (of_decide_eq_false hid))
    exact List.inj_on_of_nodup_map hstored.nodup
      (mem_acceptedRows.mp (mem_familyAccepted.mp hrow).1).1 hmem hsame.symm
  refine ⟨?_, fun instant ↦ ?_⟩
  · rw [FamilyApart, hrows]
    exact hapart.replace hseparate fun new hnew instant hinstant ↦
      ⟨old, hold, hdropped, hwithin new hnew instant hinstant⟩
  · rw [DocStore.inForce, hrows]
    split
    next hcovers => exact rowAt_replace_of_covers hapart hold hdropped hcovers
    next hcovers =>
      refine rowAt_replace_of_not_covers (fun row hrow hid ↦ honly row hrow hid ▸ hcovers) ?_
      exact fun new hnew hinstant ↦ hcovers (hwithin new hnew instant hinstant)

end Corrections

/-! ### Answers before and behind a correction -/

/-- An assertion goes on as itself, or as one of the same object and family that supersedes it. -/
def Continues (old new : Assertion) : Prop :=
  new = old ∨ new.supersedesAssertionId = some old.assertionId ∧ new.objectId = old.objectId ∧
    new.payloadFamily = old.payloadFamily

/-- An assertion goes on as itself, or as a copy of the same kind. -/
def GoesOn (old new : Assertion) : Prop :=
  Continues old new ∧ new.assertionKind = old.assertionKind

/-- Two answers of the reader: both nothing, or assertions of which the first goes on as the
second. -/
def AnswersAlike (goesOn : Assertion → Assertion → Prop)
    (before behind : Except Failure (Option Assertion)) : Prop :=
  ∃ old new, before = .ok old ∧ behind = .ok new ∧ Option.Rel goesOn old new

theorem optionRel_refl {goesOn : Assertion → Assertion → Prop} (hrefl : ∀ row, goesOn row row)
    (answer : Option Assertion) : Option.Rel goesOn answer answer := by
  cases answer with
  | none => exact .none
  | some row => exact .some (hrefl row)

theorem answersAlike_ok {goesOn : Assertion → Assertion → Prop} {old new : Option Assertion} :
    AnswersAlike goesOn (.ok old) (.ok new) ↔ Option.Rel goesOn old new := by
  constructor
  · rintro ⟨_, _, ⟨⟩, ⟨⟩, hrel⟩
    exact hrel
  · exact fun hrel ↦ ⟨old, new, rfl, rfl, hrel⟩

end DocStore
