import DocStore.Temporal.Splitting

/-!
# What a deletion removes

A deletion of an object may name a start, an end, both or neither. What it does not name it takes
from the accepted assertions of the family (`requestedWindow`). When the deletion succeeds, the
object is hidden over the requested window and nowhere else, and no instant is deleted twice
(`deletesExactly_of_deleteOne`). Three ways to find the corrected assertion and the deletion that
corrects none lead to this.
-/

set_option autoImplicit false
set_option relaxedAutoImplicit false

namespace DocStore

open Foundation

/-! ### The requested window -/

/-- The window that a deletion asks for: from the given start, else the start of the accepted
assertion, else now, up to the given end, else the end of the accepted assertion that is effective
at the start. -/
def requestedWindow (now : Instant) (accepted : History) (effectiveFrom : Option Instant)
    (effectiveUntil : Option (Option Instant)) : Interval :=
  let start := effectiveFrom.getD ((accepted.head?.map fun row ↦ row.effective.start).getD now)
  { start
    stop := effectiveUntil.getD
      ((accepted.find? fun row ↦ containsInstant row.effective start).bind fun row ↦
        row.effective.stop) }

/-- What a deletion over a window has to leave behind a history.
- `hidden`: once everything is known, the reader of the family answers with nothing at every act
  date inside the window;
- `alike`: at every other act date it answers as before, up to copies;
- `once`: an accepted deletion over an instant that was deleted before is the one from before. -/
structure DeletesExactly (history final : History) (objectId : Uuid) (payloadFamily : Text)
    (window : Interval) : Prop where
  hidden : ∀ pair : ResolvedTimePair, RecordedBy pair.knownAt final →
    containsInstant window pair.actDate = true →
      selectVisibleAssertion (familyRows objectId payloadFamily final) pair = .ok none
  alike : ∀ pair : ResolvedTimePair, RecordedBy pair.knownAt final →
    containsInstant window pair.actDate ≠ true → AnswersAlike GoesOn
      (selectVisibleAssertion (familyRows objectId payloadFamily history) pair)
      (selectVisibleAssertion (familyRows objectId payloadFamily final) pair)
  once : ∀ instant, ∀ old ∈ familyAccepted objectId payloadFamily history,
    old.assertionKind = .deletion → containsInstant old.effective instant = true →
      ∀ new ∈ familyAccepted objectId payloadFamily final, new.assertionKind = .deletion →
        containsInstant new.effective instant = true → new = old

/-! ### The corrected assertion -/

section Prior

variable {log final : History} {objectId : Uuid} {payloadFamily : Text}
  {effectiveFrom : Option Instant} {effectiveUntil : Option (Option Instant)}

/-- How a deletion finds the assertion that it corrects among the accepted ones of the family but
for deletions: there is none, or the given window lies within one, or the given start does, or there
is only one. -/
inductive Selects (accepted : History) : Option Instant → Option (Option Instant) →
    Option Assertion → Prop
  | nothing (effectiveFrom : Option Instant) (effectiveUntil : Option (Option Instant))
      (hempty : accepted = []) : Selects accepted effectiveFrom effectiveUntil none
  | window {prior : Assertion} {start : Instant} {stop : Option Instant} (hprior : prior ∈ accepted)
      (hwithin : containsInterval prior.effective { start, stop } = true) :
      Selects accepted (some start) (some stop) (some prior)
  | instant {prior : Assertion} {start : Instant} (hprior : prior ∈ accepted)
      (hstart : containsInstant prior.effective start = true) :
      Selects accepted (some start) none (some prior)
  | whole {prior : Assertion} (effectiveUntil : Option (Option Instant))
      (honly : accepted = [prior]) : Selects accepted none effectiveUntil (some prior)

theorem Selects.mem {accepted : History} {prior : Assertion}
    (hselects : Selects accepted effectiveFrom effectiveUntil (some prior)) : prior ∈ accepted := by
  cases hselects with
  | window hprior _ => exact hprior
  | instant hprior _ => exact hprior
  | whole _ honly => exact honly ▸ List.mem_singleton_self prior

/-- What a deletion selects. -/
theorem selects_of_deletionPrior {prior : Option Assertion}
    (hrun : (deletionPrior objectId payloadFamily effectiveFrom effectiveUntil).run log =
      .ok (prior, final)) :
    Selects (acceptedPayloadRowsInFamily objectId payloadFamily log) effectiveFrom effectiveUntil
      prior := by
  unfold deletionPrior at hrun
  split at hrun
  · obtain ⟨window, _, hwindow, hrest⟩ := Program.run_bind_eq_ok.mp hrun
    obtain ⟨rfl, -, rfl⟩ := mkInterval_eq_ok.mp hwindow
    rw [acceptedInFamilyForWindow, Program.run_select_bind] at hrest
    dsimp only at hrest
    split at hrest
    next hempty =>
      cases hrest
      exact .nothing _ _ (List.isEmpty_iff.mp hempty)
    next =>
      split at hrest
      next found hfilter =>
        split at hrest
        next hwithin =>
          cases hrest
          exact .window (List.mem_filter.mp (hfilter ▸ List.mem_singleton_self _)).1 hwithin
        next => cases hrest
      next => cases hrest
  · rw [acceptedInFamilyForInstant, Program.run_select_bind] at hrun
    dsimp only at hrun
    split at hrun
    next hempty =>
      cases hrun
      exact .nothing _ _ (List.isEmpty_iff.mp hempty)
    next =>
      split at hrun
      next found hfilter =>
        cases hrun
        obtain ⟨hmem, hstart⟩ := List.mem_filter.mp (hfilter ▸ List.mem_singleton_self found)
        exact .instant hmem hstart
      next => cases hrun
  · rw [acceptedInFamily, Program.run_select_bind] at hrun
    split at hrun
    next hempty =>
      cases hrun
      exact .nothing _ _ hempty
    next found hrows =>
      cases hrun
      exact .whole _ hrows
    next => cases hrun

end Prior

/-! ### What a deletion leaves -/

section Deleting

variable {context : TxContext} {history final : History} {objectId : Uuid} {payloadFamily : Text}
  {prior : Assertion} {effectiveFrom : Option Instant} {effectiveUntil : Option (Option Instant)}
  {acceptance : Acceptance}

theorem acceptedPayloadRows_eq : acceptedPayloadRowsInFamily objectId payloadFamily history =
    (familyAccepted objectId payloadFamily history).filter fun row ↦
      row.assertionKind ≠ .deletion := by
  rw [acceptedPayloadRowsInFamily, familyAccepted, familyRows, List.filter_filter]
  refine List.filter_congr fun row _ ↦ ?_
  rw [Bool.and_comm]

theorem mem_acceptedPayloadRows {row : Assertion} :
    row ∈ acceptedPayloadRowsInFamily objectId payloadFamily history ↔
      row ∈ familyAccepted objectId payloadFamily history ∧ row.assertionKind ≠ .deletion := by
  rw [acceptedPayloadRows_eq, List.mem_filter, decide_eq_true_eq]

/-- What is in sight is an accepted assertion that is no deletion. -/
theorem of_inSight_eq_some {row : Assertion} {instant : Instant}
    (hrow : inSight objectId payloadFamily history instant = some row) :
    row ∈ acceptedPayloadRowsInFamily objectId payloadFamily history ∧
      containsInstant row.effective instant = true := by
  obtain ⟨hforce, hkind⟩ := Option.filter_eq_some_iff.mp hrow
  obtain ⟨hmem, hcovers⟩ := of_rowAt_eq_some hforce
  exact ⟨mem_acceptedPayloadRows.mpr ⟨hmem, of_decide_eq_true hkind⟩, hcovers⟩

/-- The window of a corrected assertion: what is not given is the assertion's own. -/
def windowOver (prior : Assertion) (effectiveFrom : Option Instant)
    (effectiveUntil : Option (Option Instant)) : Interval where
  start := effectiveFrom.getD prior.effective.start
  stop := effectiveUntil.getD prior.effective.stop

/-- The window over the selected assertion is the requested one, and outside the assertion nothing
else of the family is in sight. -/
theorem windowOver_eq_requestedWindow (hstored : Stored history)
    (hapart : FamilyApart objectId payloadFamily history) (now : Instant)
    (hselects : Selects (acceptedPayloadRowsInFamily objectId payloadFamily history) effectiveFrom
      effectiveUntil (some prior)) :
    windowOver prior effectiveFrom effectiveUntil = requestedWindow now
        (acceptedPayloadRowsInFamily objectId payloadFamily history) effectiveFrom effectiveUntil ∧
      ∀ instant,
        containsInstant (windowOver prior effectiveFrom effectiveUntil) instant = true →
          containsInstant prior.effective instant ≠ true →
            inSight objectId payloadFamily history instant = none := by
  cases hselects with
  | window hprior hwithin =>
    exact ⟨rfl, fun instant hinside hnot ↦
      absurd (containsInstant_of_containsInterval hwithin hinside) hnot⟩
  | @instant _ start hprior hstart =>
    have hrows : Apart effectiveAt (acceptedPayloadRowsInFamily objectId payloadFamily history) :=
      acceptedPayloadRows_eq ▸ List.Pairwise.filter _ hapart
    have hfound : (acceptedPayloadRowsInFamily objectId payloadFamily history).find?
        (fun row ↦ containsInstant row.effective start) = some prior :=
      (rowAt_eq_some hrows).mpr ⟨hprior, hstart⟩
    refine ⟨?_, fun instant hinside hnot ↦ absurd ?_ hnot⟩
    · rw [windowOver, requestedWindow]
      simp only [Option.getD_some, Option.getD_none, hfound, Option.bind_some]
    · obtain ⟨hfrom, hstop⟩ := containsInstant_iff.mp hinside
      exact containsInstant_iff.mpr
        ⟨Int.le_trans (containsInstant_iff.mp hstart).1 hfrom, hstop⟩
  | whole effectiveUntil honly =>
    have hprior := mem_acceptedPayloadRows.mp (honly ▸ List.mem_singleton_self prior)
    have hstart := (hstored.proper prior (mem_acceptedRows.mp
      (mem_familyAccepted.mp hprior.1).1).1).containsInstant_start
    refine ⟨?_, fun instant _ hnot ↦ ?_⟩
    · rw [windowOver, requestedWindow, honly]
      simp [hstart]
    · cases hsight : inSight objectId payloadFamily history instant with
      | none => rfl
      | some row =>
        obtain ⟨hrow, hcovers⟩ := of_inSight_eq_some hsight
        rw [honly, List.mem_singleton] at hrow
        exact absurd (hrow ▸ hcovers) hnot

/-- It is enough to follow what is in force. -/
theorem deletesExactly_of_inForce {window : Interval} (hlinked : Linked history)
    (hlinked' : Linked final) (hapart : FamilyApart objectId payloadFamily history)
    (hapart' : FamilyApart objectId payloadFamily final) (hleading : history <+: final)
    (hhidden : ∀ instant, containsInstant window instant = true →
      inSight objectId payloadFamily final instant = none)
    (halike : ∀ instant, containsInstant window instant ≠ true → Option.Rel GoesOn
      (inSight objectId payloadFamily history instant)
      (inSight objectId payloadFamily final instant))
    (honce : ∀ instant old, inForce objectId payloadFamily history instant = some old →
      old.assertionKind = .deletion → inForce objectId payloadFamily final instant = some old) :
    DeletesExactly history final objectId payloadFamily window where
  hidden pair hknown hwindow := by
    rw [selectVisibleAssertion_familyRows hlinked' hapart' hknown, hhidden _ hwindow]
  alike pair hknown hwindow := by
    have hknown' : RecordedBy pair.knownAt history := fun old hold ↦
      hknown old (hleading.subset hold)
    rw [selectVisibleAssertion_familyRows hlinked hapart hknown',
      selectVisibleAssertion_familyRows hlinked' hapart' hknown, answersAlike_ok]
    exact halike _ hwindow
  once instant old hold hkind hcovers new hnew _ hcovers' := by
    have hbefore := honce instant old ((rowAt_eq_some hapart).mpr ⟨hold, hcovers⟩) hkind
    exact hapart'.unique hnew (of_rowAt_eq_some hbefore).1 hcovers' hcovers

/-- A deletion that corrects an assertion. -/
theorem deletesExactly_of_split {result : Unit} (hstored : Stored history)
    (hapart : FamilyApart objectId payloadFamily history)
    (hselects : Selects (acceptedPayloadRowsInFamily objectId payloadFamily history) effectiveFrom
      effectiveUntil (some prior))
    (hrun : (split context prior (windowOver prior effectiveFrom effectiveUntil) .deletion
      acceptance).run history = .ok (result, final)) :
    DeletesExactly history final objectId payloadFamily
      (windowOver prior effectiveFrom effectiveUntil) := by
  obtain ⟨hstanding, hkind⟩ := mem_acceptedPayloadRows.mp hselects.mem
  obtain ⟨haccepted, rfl, rfl⟩ := mem_familyAccepted.mp hstanding
  have hleading := Program.prefix_of_run hrun
  have hnothing := (windowOver_eq_requestedWindow hstored hapart 0 hselects).2
  obtain ⟨corrected, added, hclipped, rfl, hsegments, hsuccessors, -⟩ :=
    split_eq_ok (mem_acceptedRows.mp haccepted).1 hrun
  obtain ⟨hlinked, hapart', hinside, houtside⟩ :=
    inForce_of_split hstored haccepted hapart hclipped hsegments hsuccessors hrun
  have hsame : ∀ instant, containsInstant prior.effective instant ≠ true →
      inSight prior.objectId prior.payloadFamily (history ++ added) instant =
        inSight prior.objectId prior.payloadFamily history instant := fun instant hnot ↦ by
    rw [inSight, houtside instant hnot, inSight]
  refine deletesExactly_of_inForce hstored.toLinked hlinked hapart hapart' hleading
    (fun instant hwindow ↦ ?_) (fun instant hwindow ↦ ?_) fun instant old hold hdeletion ↦ ?_
  · by_cases hinstant : containsInstant prior.effective instant = true
    · obtain ⟨new, hnew, hcovers, hforce⟩ := hinside instant hinstant
      rcases inside_or_outside hclipped hsegments hnew with ⟨hnewKind, -⟩ | ⟨-, hside⟩
      · simp [inSight, hforce, Option.filter_some, hnewKind]
      · rw [hside instant hcovers] at hwindow
        cases hwindow
    · rw [hsame instant hinstant, hnothing instant hwindow hinstant]
  · by_cases hinstant : containsInstant prior.effective instant = true
    · obtain ⟨new, hnew, hcovers, hforce⟩ := hinside instant hinstant
      have hbefore : inForce prior.objectId prior.payloadFamily history instant = some prior :=
        (rowAt_eq_some hapart).mpr ⟨hstanding, hinstant⟩
      rcases inside_or_outside hclipped hsegments hnew with ⟨-, hside⟩ | ⟨hnewKind, -⟩
      · exact absurd (hside instant hcovers) hwindow
      · have hgoesOn : GoesOn prior new := ⟨.inr ⟨hsuccessors.supersedes new hnew,
          (hsuccessors.owned new hnew).1, (hsuccessors.owned new hnew).2⟩, hnewKind⟩
        simpa [inSight, hforce, hbefore, Option.filter_some, hnewKind, hkind] using hgoesOn
    · rw [hsame instant hinstant]
      exact optionRel_refl (fun _ ↦ ⟨.inl rfl, rfl⟩) _
  · rw [houtside instant fun hinstant ↦ ?_, hold]
    have hboth := of_rowAt_eq_some hold
    rw [hapart.unique hboth.1 hstanding hboth.2 hinstant] at hdeletion
    exact hkind hdeletion

/-- A deletion that corrects no assertion. -/
theorem deletesExactly_of_append {interval : Interval} {row : Assertion} (hstored : Stored history)
    (hapart : FamilyApart objectId payloadFamily history)
    (hrun : (append context objectId payloadFamily .deletion interval none acceptance []).run
      history = .ok (row, final)) :
    DeletesExactly history final objectId payloadFamily interval := by
  obtain ⟨hclashes, hrow, rfl⟩ := append_eq_ok.mp hrun
  obtain ⟨hfresh, hobject, hfamily, heffective, hsupersedes, -⟩ := newAssertion_eq_ok hrow
  have hclear : ∀ old ∈ familyAccepted objectId payloadFamily history,
      Separate effectiveAt old row := by
    intro old hold instant hboth
    have hnot := clashes_eq_nil.mp hclashes old hold List.not_mem_nil
    exact Interval.disjoint_of_not_overlaps hnot instant
      ⟨hboth.1, heffective ▸ hboth.2⟩
  have hsuccessors : Successors history objectId payloadFamily none [row] :=
    ⟨List.forall_mem_singleton.mpr hfresh, List.forall_mem_singleton.mpr ⟨hobject, hfamily⟩,
      List.forall_mem_singleton.mpr hsupersedes, by simp⟩
  have hrows : familyAccepted objectId payloadFamily (history ++ [row]) =
      familyAccepted objectId payloadFamily history ++ [row] := by
    rw [hsuccessors.familyAccepted hstored.toLinked (List.cons_ne_nil _ _)]
    simp
  have hforce : ∀ instant, inForce objectId payloadFamily (history ++ [row]) instant =
      (inForce objectId payloadFamily history instant).or
        (if containsInstant interval instant then some row else none) := by
    intro instant
    rw [inForce, hrows, rowAt_append, inForce]
    congr 1
    rw [rowAt, List.find?_singleton, effectiveAt, heffective]
  refine deletesExactly_of_inForce hstored.toLinked
    (hstored.toLinked.append hfresh fun _ hid ↦ by simp [hsupersedes] at hid) hapart ?_
    (List.prefix_append _ _) (fun instant hwindow ↦ ?_) (fun instant hwindow ↦ ?_)
    fun instant old hold _ ↦ by rw [hforce, hold, Option.some_or]
  · rw [FamilyApart, hrows]
    exact List.pairwise_append.mpr ⟨hapart, List.pairwise_singleton _ _,
      fun old hold new hnew ↦ List.mem_singleton.mp hnew ▸ hclear old hold⟩
  · have hnone : inForce objectId payloadFamily history instant = none :=
      rowAt_eq_none.mpr fun old hold hcovers ↦ hclear old hold instant
        ⟨hcovers, by rw [effectiveAt, heffective, hwindow]⟩
    rw [inSight, hforce, hnone, Option.none_or, if_pos hwindow]
    simp [Option.filter_some, (kind_of_newAssertion hrow).1]
  · rw [inSight, inSight, hforce, if_neg hwindow, Option.or_none]
    exact optionRel_refl (fun _ ↦ ⟨.inl rfl, rfl⟩) _

/-- The family that a deletion names, the kind of the object when it names none. -/
def namedFamily (payloadFamily : Option Text) (kind : Text) : Text :=
  (payloadFamily.map strip).getD kind

theorem payloadFamilyOf_eq_ok {named : Option Text} {kind family : Text}
    (hrun : (payloadFamilyOf named kind).run history = .ok (family, final)) :
    family = namedFamily named kind ∧ final = history := by
  cases named with
  | none =>
    cases hrun
    exact ⟨rfl, rfl⟩
  | some given =>
    unfold payloadFamilyOf at hrun
    dsimp only at hrun
    split at hrun
    · cases hrun
    · cases hrun
      exact ⟨rfl, rfl⟩

/-- **A deletion removes exactly the requested window.** Whatever the object, the family and the
window, and in every history whose accepted assertions of the object and family are apart, the
deletion raises, or it hides the object over the requested window, leaves all other answers as they
are, and deletes no instant a second time. -/
theorem deletesExactly_of_deleteOne {kind : Text} {named : Option Text} (hstored : Stored history)
    (hapart : FamilyApart objectId (namedFamily named kind) history) :
    (∃ failure, (deleteOne context objectId kind effectiveFrom effectiveUntil named
      acceptance).run history = .error failure) ∨
    ∃ final, (deleteOne context objectId kind effectiveFrom effectiveUntil named
        acceptance).run history = .ok ((), final) ∧
      DeletesExactly history final objectId (namedFamily named kind)
        (requestedWindow context.now
          (acceptedPayloadRowsInFamily objectId (namedFamily named kind) history) effectiveFrom
          effectiveUntil) := by
  cases hrun : (deleteOne context objectId kind effectiveFrom effectiveUntil named acceptance).run
      history with
  | error failure => exact .inl ⟨failure, rfl⟩
  | ok result =>
    obtain ⟨⟨⟩, final⟩ := result
    refine .inr ⟨final, rfl, ?_⟩
    obtain ⟨family, _, hfamily, hrest⟩ := Program.run_bind_eq_ok.mp hrun
    obtain ⟨rfl, rfl⟩ := payloadFamilyOf_eq_ok hfamily
    obtain ⟨prior, _, hprior, hthen⟩ := Program.run_bind_eq_ok.mp hrest
    obtain ⟨rfl, -⟩ := deletionPrior_eq_ok hprior
    have hselects := selects_of_deletionPrior hprior
    cases prior with
    | none =>
      obtain ⟨interval, _, hinterval, hlast⟩ := Program.run_bind_eq_ok.mp hthen
      obtain ⟨rfl, -, rfl⟩ := mkInterval_eq_ok.mp hinterval
      obtain ⟨row, _, hrow, hdone⟩ := Program.run_bind_eq_ok.mp hlast
      cases hdone
      cases hselects with
      | nothing _ _ hempty =>
        rw [hempty]
        exact deletesExactly_of_append hstored hapart hrow
    | some prior =>
      obtain ⟨window, _, hwindow, hlast⟩ := Program.run_bind_eq_ok.mp hthen
      obtain ⟨rfl, -, rfl⟩ := mkInterval_eq_ok.mp hwindow
      rw [← (windowOver_eq_requestedWindow hstored hapart context.now hselects).1]
      exact deletesExactly_of_split hstored hapart hselects hlast

end Deleting

/-- An assertion that holds from 10 to 30 is deleted from 20 on. -/
theorem deletesExactly_from_20 :
    (∃ failure, (deleteOne (numberedContext 40) 7 (lit "document") (some 20) none none {}).run
      [boundedAssertion] = .error failure) ∨
    ∃ final, (deleteOne (numberedContext 40) 7 (lit "document") (some 20) none none {}).run
        [boundedAssertion] = .ok ((), final) ∧
      DeletesExactly [boundedAssertion] final 7 (namedFamily none (lit "document"))
        (requestedWindow 40
          (acceptedPayloadRowsInFamily 7 (namedFamily none (lit "document")) [boundedAssertion])
          (some 20) none) :=
  deletesExactly_of_deleteOne stored_boundedAssertion familyApart_boundedAssertion

end DocStore
