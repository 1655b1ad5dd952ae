import DocStore.Temporal.Splitting

/-!
# Closing an interval

Closing an assertion appends a boundary that supersedes it and ends earlier. `closesExactly_iff`
says when that only shortens. Two things go wrong: the boundary of a deletion is no deletion, so
that closing a deletion shows the object where it was hidden; and an end behind the end of the
assertion is refused only when another accepted assertion stands in the way.
-/

set_option autoImplicit false
set_option relaxedAutoImplicit false

namespace DocStore

open Foundation

/-- An end inside an interval: behind its start, and no later than its own end. -/
def EndsInside (interval : Interval) (effectiveUntil : Instant) : Prop :=
  interval.start < effectiveUntil ∧ ∀ stop, interval.stop = some stop → effectiveUntil ≤ stop

/-- What closing an assertion has to do.
- `inside`: an end inside the interval is accepted. Once everything is known, the reader of the
  family answers as before at every act date before the new end, and with nothing from there to the
  old end;
- `outside`: any other end is refused. -/
structure ClosesExactly (objects : Objects) (context : TxContext) (history : History)
    (prior : Assertion) (effectiveUntil : Instant) (acceptance : Acceptance) : Prop where
  inside : EndsInside prior.effective effectiveUntil → ∃ final,
    (closeInterval objects context prior.assertionId effectiveUntil acceptance).run history =
        .ok ((), final) ∧
      ∀ pair : ResolvedTimePair, RecordedBy pair.knownAt final →
        (pair.actDate < effectiveUntil → AnswersAlike Continues
          (selectVisibleAssertion (familyRows prior.objectId prior.payloadFamily history) pair)
          (selectVisibleAssertion (familyRows prior.objectId prior.payloadFamily final) pair)) ∧
        (effectiveUntil ≤ pair.actDate → containsInstant prior.effective pair.actDate = true →
          selectVisibleAssertion (familyRows prior.objectId prior.payloadFamily final) pair =
            .ok none)
  outside : ¬EndsInside prior.effective effectiveUntil → ∃ failure,
    (closeInterval objects context prior.assertionId effectiveUntil acceptance).run history =
      .error failure

variable {objects : Objects} {context : TxContext} {history : History} {prior : Assertion}
  {effectiveUntil : Instant} {acceptance : Acceptance}

/-- A closing appends a boundary when the new end is behind the start. -/
theorem closeInterval_eq_ok {kind : Text} {final : History} (hlinked : Linked history)
    (hprior : prior ∈ acceptedRows history) (hkind : objects.kind prior.objectId = some kind) :
    (closeInterval objects context prior.assertionId effectiveUntil acceptance).run history =
        .ok ((), final) ↔
      prior.effective.start < effectiveUntil ∧ ∃ row,
        (append context prior.objectId prior.payloadFamily .intervalBoundary
          { start := prior.effective.start, stop := some effectiveUntil } (some prior.assertionId)
          acceptance [prior.assertionId]).run history = .ok (row, final) := by
  rw [closeInterval, supersedeAssertion,
    Program.run_bind_of_ok (acceptablePrior_run hlinked hprior),
    Program.run_bind_of_ok (lockedObject_run hkind), Program.run_bind_eq_ok]
  constructor
  · rintro ⟨interval, middle, hinterval, hrest⟩
    obtain ⟨rfl, hproper, rfl⟩ := mkInterval_eq_ok.mp hinterval
    obtain ⟨row, last, hrow, hdone⟩ := Program.run_bind_eq_ok.mp hrest
    cases hdone
    exact ⟨Interval.proper_iff.mp hproper _ rfl, row, hrow⟩
  · rintro ⟨hends, row, hrow⟩
    have hproper : Interval.Proper { start := prior.effective.start, stop := some effectiveUntil } :=
      decide_eq_true hends
    exact ⟨_, history, mkInterval_eq_ok.mpr ⟨rfl, hproper, rfl⟩,
      Program.run_bind_eq_ok.mpr ⟨row, final, hrow, rfl⟩⟩

/-- A closing succeeds when the new end is behind the start and the boundary meets no other
accepted assertion of the family. -/
theorem exists_closeInterval_iff {kind : Text} (hlinked : Linked history)
    (hprior : prior ∈ acceptedRows history) (hkind : objects.kind prior.objectId = some kind)
    (hfresh : context.Fresh 1 history) :
    (∃ final, (closeInterval objects context prior.assertionId effectiveUntil acceptance).run
        history = .ok ((), final)) ↔
      prior.effective.start < effectiveUntil ∧
        ∀ other ∈ familyAccepted prior.objectId prior.payloadFamily history,
          other.assertionId ≠ prior.assertionId → other.effective.overlaps
            { start := prior.effective.start, stop := some effectiveUntil } = false := by
  simp only [closeInterval_eq_ok hlinked hprior hkind, append_eq_ok, clashes_eq_nil,
    List.mem_singleton]
  constructor
  · rintro ⟨final, hends, row, hclear, -⟩
    exact ⟨hends, hclear⟩
  · rintro ⟨hends, hclear⟩
    have hproper : Interval.Proper { start := prior.effective.start, stop := some effectiveUntil } :=
      decide_eq_true hends
    obtain ⟨row, hrow⟩ := exists_newAssertion prior.objectId prior.payloadFamily .intervalBoundary
      (some prior.assertionId) acceptance hfresh.1 hproper
    exact ⟨_, hends, row, hclear, hrow, rfl⟩

/-! ### What closing does -/

/-- A boundary inside an assertion leaves the rest of its interval empty. -/
theorem inForce_of_closeInterval {kind : Text} {final : History} (hstored : Stored history)
    (hprior : prior ∈ acceptedRows history)
    (hapart : FamilyApart prior.objectId prior.payloadFamily history)
    (hkind : objects.kind prior.objectId = some kind)
    (hinside : EndsInside prior.effective effectiveUntil)
    (hrun : (closeInterval objects context prior.assertionId effectiveUntil acceptance).run history =
      .ok ((), final)) :
    Linked final ∧ FamilyApart prior.objectId prior.payloadFamily final ∧ ∃ row,
      row.assertionKind = .intervalBoundary ∧ Continues prior row ∧ ∀ instant,
        inForce prior.objectId prior.payloadFamily final instant =
          if containsInstant prior.effective instant then
            if instant < effectiveUntil then some row else none
          else inForce prior.objectId prior.payloadFamily history instant := by
  obtain ⟨-, row, happend⟩ := (closeInterval_eq_ok hstored.toLinked hprior hkind).mp hrun
  obtain ⟨-, hrow, rfl⟩ := append_eq_ok.mp happend
  obtain ⟨hfresh, hobject, hfamily, heffective, hsupersedes, -⟩ := newAssertion_eq_ok hrow
  have hmem := (mem_acceptedRows.mp hprior).1
  have hsuccessors : Successors history prior.objectId prior.payloadFamily (some prior) [row] :=
    ⟨List.forall_mem_singleton.mpr hfresh, List.forall_mem_singleton.mpr ⟨hobject, hfamily⟩,
      List.forall_mem_singleton.mpr hsupersedes, fun old hold ↦
        Option.some.inj hold ▸ ⟨hmem, rfl, rfl⟩⟩
  have hcovers : ∀ instant, effectiveAt row instant = true ↔
      containsInstant prior.effective instant = true ∧ instant < effectiveUntil := by
    intro instant
    rw [effectiveAt, heffective, containsInstant_iff, containsInstant_iff]
    constructor
    · rintro ⟨hstart, hstop⟩
      have hbefore := hstop _ rfl
      exact ⟨⟨hstart, fun stop heq ↦ Int.lt_of_lt_of_le hbefore (hinside.2 stop heq)⟩, hbefore⟩
    · rintro ⟨⟨hstart, -⟩, hbefore⟩
      exact ⟨hstart, fun stop heq ↦ Option.some.inj heq ▸ hbefore⟩
  obtain ⟨hapart', hinForce⟩ := hsuccessors.inForce hstored hapart
    (mem_familyAccepted.mpr ⟨hprior, rfl, rfl⟩) (List.cons_ne_nil _ _)
    (List.pairwise_singleton _ _) (List.forall_mem_singleton.mpr fun instant hinstant ↦
      ((hcovers instant).mp hinstant).1)
  refine ⟨hstored.toLinked.append hfresh fun assertionId hid ↦ ?_, hapart', row,
    (kind_of_newAssertion hrow).1, .inr ⟨hsupersedes, hobject, hfamily⟩, fun instant ↦ ?_⟩
  · exact ⟨prior, hmem, Option.some.inj (hsupersedes.symm.trans hid), hobject.symm, hfamily.symm⟩
  · rw [hinForce instant]
    split
    next hcontains =>
      rw [rowAt, List.find?_singleton]
      congr 1
      rw [hcovers, and_iff_right hcontains]
    next => rfl

/-- A closing that only shortens closes no deletion, because its boundary would show what the
deletion hides. -/
theorem ClosesExactly.ne_deletion {kind : Text} (hstored : Stored history)
    (hprior : prior ∈ acceptedRows history)
    (hapart : FamilyApart prior.objectId prior.payloadFamily history)
    (hkind : objects.kind prior.objectId = some kind)
    (hcloses : ClosesExactly objects context history prior effectiveUntil acceptance)
    (hinside : EndsInside prior.effective effectiveUntil) : prior.assertionKind ≠ .deletion := by
  intro hdeletion
  obtain ⟨final, hrun, hanswers⟩ := hcloses.inside hinside
  obtain ⟨hlinked, hapart', row, hrow, -, hinForce⟩ :=
    inForce_of_closeInterval hstored hprior hapart hkind hinside hrun
  obtain ⟨knownAt, hknown⟩ := exists_recordedBy final
  have hstart := (hstored.proper prior (mem_acceptedRows.mp hprior).1).containsInstant_start
  have hstanding := mem_familyAccepted.mpr ⟨hprior, rfl, rfl⟩
  have hknown' : RecordedBy knownAt history := fun old hold ↦
    hknown old ((Program.prefix_of_run hrun).subset hold)
  have halike := (hanswers { actDate := prior.effective.start, knownAt } hknown).1 hinside.1
  rw [selectVisibleAssertion_familyRows hstored.toLinked hapart hknown',
    selectVisibleAssertion_familyRows hlinked hapart' hknown, answersAlike_ok, inSight, inSight,
    hinForce, if_pos hstart, if_pos hinside.1, inForce,
    (rowAt_eq_some hapart).mpr ⟨hstanding, hstart⟩] at halike
  simp [Option.filter_some, hdeletion, hrow] at halike

/-- The deletion of a document from 10 to 30. -/
def boundedDeletion : Assertion := { boundedAssertion with assertionKind := .deletion }

end DocStore
