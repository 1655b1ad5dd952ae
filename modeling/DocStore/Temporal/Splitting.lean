import DocStore.Temporal.InForce

/-!
# Splits

A correction of a part of an assertion appends up to three segments one behind the other, each
guarded against the accepted assertions as the one before has left them. The guards never fire in a
history whose accepted assertions are apart, because the segments divide the interval of an
assertion that is accepted, and a segment that has been appended meets none of the later ones
(`exists_appendSegments`). `split_exactly` is the law of a split: it refuses exactly the windows
without a common instant, and otherwise says for every instant of the interval what is in force
there.
-/

set_option autoImplicit false
set_option relaxedAutoImplicit false

namespace DocStore

open Foundation

variable {objects : Objects} {context : TxContext} {log final : History}

/-! ### One append -/

/-- The next UUIDs of a transaction are new, each behind the rows appended before. -/
def TxContext.Fresh (context : TxContext) : ℕ → History → Prop
  | 0, _ => True
  | count + 1, rows => (∀ old ∈ rows, old.assertionId ≠ context.uuid4 rows) ∧
      ∀ row : Assertion, row.assertionId = context.uuid4 rows → context.Fresh count (rows ++ [row])

theorem TxContext.Fresh.mono {fewer more : ℕ} (hle : fewer ≤ more)
    (hfresh : context.Fresh more log) : context.Fresh fewer log := by
  induction fewer generalizing more log with
  | zero => trivial
  | succ fewer ih =>
    obtain ⟨more, rfl⟩ : ∃ rest, more = rest + 1 :=
      Nat.exists_eq_succ_of_ne_zero (Nat.ne_of_gt (Nat.lt_of_lt_of_le fewer.succ_pos hle))
    exact ⟨hfresh.1, fun row hrow ↦ ih (Nat.le_of_succ_le_succ hle) (hfresh.2 row hrow)⟩

theorem kind_of_newAssertion {objectId : Uuid} {payloadFamily : Text}
    {assertionKind : AssertionKind} {interval : Interval} {supersedes : Option Uuid}
    {acceptance : Acceptance} {rows : History} {row : Assertion}
    (hrow : newAssertion context objectId payloadFamily assertionKind interval supersedes acceptance
      rows = .ok row) :
    row.assertionKind = assertionKind ∧ row.assertionId = context.uuid4 rows := by
  obtain ⟨-, hrow⟩ := raiseIf_bind_eq_ok.mp hrow
  obtain ⟨-, hrow⟩ := raiseIf_bind_eq_ok.mp hrow
  cases hrow
  exact ⟨rfl, rfl⟩

/-- An insertion under a new UUID and over a proper interval succeeds. -/
theorem exists_newAssertion (objectId : Uuid) (payloadFamily : Text) (assertionKind : AssertionKind)
    {interval : Interval} (supersedes : Option Uuid) (acceptance : Acceptance) {rows : History}
    (hfresh : ∀ old ∈ rows, old.assertionId ≠ context.uuid4 rows) (hproper : interval.Proper) :
    ∃ row, newAssertion context objectId payloadFamily assertionKind interval supersedes acceptance
      rows = .ok row := by
  have hfree : (rows.any fun row ↦ row.assertionId = context.uuid4 rows) = false := by
    simpa using hfresh
  have hends : (interval.stop.any fun instant ↦ instant ≤ interval.start) = false := by
    have hstops := Interval.proper_iff.mp hproper
    cases hstop : interval.stop with
    | none => rfl
    | some stop => simpa using hstops stop hstop
  exact ⟨_, raiseIf_bind_eq_ok.mpr ⟨hfree, raiseIf_bind_eq_ok.mpr ⟨hends, rfl⟩⟩⟩

theorem append_eq_ok {objectId : Uuid} {payloadFamily : Text} {assertionKind : AssertionKind}
    {interval : Interval} {supersedes : Option Uuid} {acceptance : Acceptance} {ignore : List Uuid}
    {row : Assertion} :
    (append context objectId payloadFamily assertionKind interval supersedes acceptance ignore).run
        log = .ok (row, final) ↔
      clashes objectId payloadFamily interval ignore log = [] ∧
        newAssertion context objectId payloadFamily assertionKind interval supersedes acceptance
          log = .ok row ∧ final = log ++ [row] := by
  constructor
  · intro hrun
    obtain ⟨_, middle, hguard, hinsert⟩ := Program.run_bind_eq_ok.mp hrun
    obtain ⟨hclashes, rfl⟩ := guardUnambiguous_eq_ok hguard
    exact ⟨hclashes, Program.run_insert_eq_ok.mp hinsert⟩
  · rintro ⟨hclashes, hrow⟩
    refine Program.run_bind_eq_ok.mpr ⟨(), log, ?_, Program.run_insert_eq_ok.mpr hrow⟩
    rw [guardUnambiguous, Program.run_select_bind, hclashes]
    rfl

/-- No accepted assertion of the family clashes but the ignored ones. -/
theorem clashes_eq_nil {objectId : Uuid} {payloadFamily : Text} {interval : Interval}
    {ignore : List Uuid} :
    clashes objectId payloadFamily interval ignore log = [] ↔
      ∀ old ∈ familyAccepted objectId payloadFamily log, old.assertionId ∉ ignore →
        old.effective.overlaps interval = false := by
  rw [clashes, List.filter_eq_nil_iff]
  constructor
  · intro hclashes old hold hignored
    obtain ⟨haccepted, hobject, hfamily⟩ := mem_familyAccepted.mp hold
    simpa [hobject, hfamily, hignored] using hclashes old haccepted
  · intro hclear old haccepted hclash
    simp only [Bool.and_eq_true, decide_eq_true_eq, Bool.not_eq_true', List.contains_eq_mem,
      decide_eq_false_iff_not] at hclash
    have hfree := hclear old (mem_familyAccepted.mpr ⟨haccepted, hclash.1.1.1, hclash.1.1.2⟩)
      hclash.1.2
    rw [hclash.2] at hfree
    cases hfree

/-! ### The statements in front of a correction -/

section Statements

variable {history : History} {prior : Assertion}

/-- An accepted assertion may be corrected. -/
theorem acceptablePrior_run (hlinked : Linked history) (hprior : prior ∈ acceptedRows history) :
    (acceptablePrior prior.assertionId).run history = .ok (prior, history) := by
  obtain ⟨hmem, hlive⟩ := mem_acceptedRows.mp hprior
  have hfound : history.find? (fun row ↦ row.assertionId = prior.assertionId) = some prior :=
    (lookup_eq_some hlinked.nodup).mpr ⟨hmem, rfl⟩
  have hfree : history.find? (fun row ↦ row.supersedesAssertionId = some prior.assertionId) =
      none := List.find?_eq_none.mpr fun row hrow ↦ by simpa using hlive row hrow
  rw [acceptablePrior, Program.run_select_bind, hfound]
  show (checkSuccessor prior.assertionId prior).run history = _
  rw [checkSuccessor, Program.run_select_bind, hfree]
  rfl

theorem lockedObject_run {objectId : Uuid} {kind : Text} (hkind : objects.kind objectId = some kind) :
    (lockedObject objects objectId).run history = .ok (kind, history) := by
  rw [lockedObject, hkind]
  rfl

theorem mkInterval_eq_ok {start : Instant} {stop : Option Instant} {interval : Interval}
    {final : History} : (mkInterval start stop).run history = .ok (interval, final) ↔
      interval = { start, stop } ∧ interval.Proper ∧ final = history := by
  have hproper : (stop.any fun instant ↦ instant ≤ start) = true ↔
      ¬Interval.Proper { start, stop } := by
    cases stop <;> simp [Interval.Proper, before]
  unfold mkInterval
  split
  next hends =>
    constructor
    · intro hrun
      cases hrun
    · rintro ⟨rfl, hcorrect, -⟩
      exact absurd hcorrect (hproper.mp hends)
  next hends =>
    rw [Program.run_pure, Except.ok.injEq, Prod.mk.injEq, eq_comm, eq_comm (a := history)]
    exact and_congr_right fun heq ↦ heq ▸ (and_iff_right (not_not.mp (mt hproper.mpr hends))).symm

end Statements

/-! ### Segments one behind the other -/

/-- The interval and the kind of an assertion. -/
def Assertion.segment (row : Assertion) : Interval × AssertionKind :=
  (row.effective, row.assertionKind)

/-- What appended segments look like. -/
theorem appendSegments_eq_ok {prior : Assertion} {acceptance : Acceptance}
    {segments : List (Interval × AssertionKind)} {result : Unit}
    (hprior : prior ∈ log)
    (hrun : (appendSegments context prior acceptance segments).run log = .ok (result, final)) :
    ∃ added, final = log ++ added ∧ added.map Assertion.segment = segments ∧
      Successors log prior.objectId prior.payloadFamily (some prior) added ∧
      ∀ new ∈ added, new.recordedAt = context.now := by
  induction segments generalizing log with
  | nil =>
    cases hrun
    exact ⟨[], by simp, rfl, ⟨by simp, by simp, by simp, fun old hold ↦
      Option.some.inj hold ▸ ⟨hprior, rfl, rfl⟩⟩, by simp⟩
  | cons segment segments ih =>
    obtain ⟨row, middle, happend, hrest⟩ := Program.run_bind_eq_ok.mp hrun
    obtain ⟨-, hrow, rfl⟩ := append_eq_ok.mp happend
    obtain ⟨hfresh, hobject, hfamily, heffective, hsupersedes, hrecorded⟩ := newAssertion_eq_ok hrow
    obtain ⟨added, rfl, rfl, hadded, hnow⟩ := ih (List.mem_append_left _ hprior) hrest
    refine ⟨row :: added, by simp, ?_, ⟨?_, ?_, ?_, fun old hold ↦
      Option.some.inj hold ▸ ⟨hprior, rfl, rfl⟩⟩, List.forall_mem_cons.mpr ⟨hrecorded, hnow⟩⟩
    · rw [List.map_cons, Assertion.segment, heffective, (kind_of_newAssertion hrow).1]
    · exact List.forall_mem_cons.mpr ⟨hfresh, fun new hnew old hold ↦
        hadded.fresh new hnew old (List.mem_append_left _ hold)⟩
    · exact List.forall_mem_cons.mpr ⟨⟨hobject, hfamily⟩, hadded.owned⟩
    · exact List.forall_mem_cons.mpr ⟨hsupersedes, hadded.supersedes⟩

/-- **Segments that are apart from each other and from the accepted assertions that stay are all
appended**: no guard fires. -/
theorem exists_appendSegments {prior : Assertion} {acceptance : Acceptance}
    {segments : List (Interval × AssertionKind)} (hstored : Stored log) (hprior : prior ∈ log)
    (hproper : ∀ segment ∈ segments, segment.1.Proper) (hapart : Apart segmentCovers segments)
    (hclear : ∀ old ∈ familyAccepted prior.objectId prior.payloadFamily log,
      old.assertionId ≠ prior.assertionId → ∀ segment ∈ segments,
        old.effective.Disjoint segment.1)
    (hfresh : context.Fresh segments.length log) :
    ∃ final, (appendSegments context prior acceptance segments).run log = .ok ((), final) := by
  induction segments generalizing log with
  | nil => exact ⟨log, rfl⟩
  | cons segment segments ih =>
    obtain ⟨hsegment, hsegments⟩ := List.forall_mem_cons.mp hproper
    obtain ⟨hfirst, hrest⟩ := List.pairwise_cons.mp hapart
    obtain ⟨row, hrow⟩ := exists_newAssertion prior.objectId prior.payloadFamily segment.2
      (some prior.assertionId) acceptance hfresh.1 hsegment
    have hclashes : clashes prior.objectId prior.payloadFamily segment.1 [prior.assertionId] log =
        [] := by
      refine clashes_eq_nil.mpr fun old hold hignored ↦ ?_
      have hmem := (mem_acceptedRows.mp (mem_familyAccepted.mp hold).1).1
      exact Interval.not_overlaps_of_disjoint (hstored.proper old hmem) hsegment
        (hclear old hold (by simpa using hignored) segment List.mem_cons_self)
    have happend := append_eq_ok.mpr ⟨hclashes, hrow, rfl⟩
    obtain ⟨hnew, hobject, hfamily, heffective, hsupersedes, -⟩ := newAssertion_eq_ok hrow
    have hsuccessors : Successors log prior.objectId prior.payloadFamily (some prior) [row] :=
      ⟨List.forall_mem_singleton.mpr hnew, List.forall_mem_singleton.mpr ⟨hobject, hfamily⟩,
        List.forall_mem_singleton.mpr hsupersedes, fun old hold ↦
          Option.some.inj hold ▸ ⟨hprior, rfl, rfl⟩⟩
    have hstored' : Stored (log ++ [row]) := by
      refine ⟨hstored.toLinked.append hnew fun assertionId hid ↦ ?_, List.forall_mem_append.mpr
        ⟨hstored.proper, List.forall_mem_singleton.mpr (heffective ▸ hsegment)⟩⟩
      exact ⟨prior, hprior, Option.some.inj (hsupersedes.symm.trans hid), hobject.symm,
        hfamily.symm⟩
    obtain ⟨final, hfinal⟩ := ih hstored' (List.mem_append_left _ hprior) hsegments hrest
      (fun old hold hne other hother ↦ by
        rw [hsuccessors.familyAccepted hstored.toLinked (List.cons_ne_nil _ _)] at hold
        rcases List.mem_append.mp hold with hkept | hadded
        · exact hclear old (List.mem_filter.mp hkept).1 hne other (List.mem_cons_of_mem _ hother)
        · rw [List.mem_singleton.mp hadded, heffective]
          exact hfirst other hother)
      (hfresh.2 row (kind_of_newAssertion hrow).2)
    exact ⟨final, Program.run_bind_eq_ok.mpr ⟨row, log ++ [row], happend, hfinal⟩⟩

/-! ### The law of a split -/

/-- What a split of an assertion over a window has to leave behind a history.
- `divides`: the appended segments are not empty, no two have a common instant, and together they
  cover exactly the interval of the assertion;
- `successors`: each is an assertion of the same object and family that supersedes it;
- `resolved`: at an instant of the interval, once everything is known, the reader finds one
  survivor. It is one of the segments, with the corrected kind inside the window and the kind of the
  assertion outside, and it lies on one side of the window as a whole;
- `unchanged`: the other accepted assertions are the ones there were. -/
structure SplitsExactly (history : History) (prior : Assertion) (window : Interval)
    (correctedKind : AssertionKind) (added : History) : Prop where
  divides : Divides effectiveAt (containsInstant prior.effective) added
  successors : ∀ new ∈ added, new.objectId = prior.objectId ∧
    new.payloadFamily = prior.payloadFamily ∧ new.supersedesAssertionId = some prior.assertionId
  resolved : ∀ pair : ResolvedTimePair, RecordedBy pair.knownAt (history ++ added) →
    containsInstant prior.effective pair.actDate = true →
      ∃ new ∈ added, visibleRows (familyRows prior.objectId prior.payloadFamily (history ++ added))
          pair = [new] ∧
        new.assertionKind =
          (if containsInstant window pair.actDate then correctedKind else prior.assertionKind) ∧
        ∀ instant, containsInstant new.effective instant = true →
          containsInstant window instant = containsInstant window pair.actDate
  unchanged : acceptedRows (history ++ added) =
    (acceptedRows history).filter (fun row ↦ row.assertionId ≠ prior.assertionId) ++ added

section Splits

variable {history added : History} {prior : Assertion} {window corrected : Interval}
  {correctedKind : AssertionKind} {acceptance : Acceptance}

/-- What a split appends, when it succeeds. -/
theorem split_eq_ok {result : Unit} (hprior : prior ∈ log)
    (hrun : (split context prior window correctedKind acceptance).run log = .ok (result, final)) :
    ∃ corrected added, window.clippedTo prior.effective = some corrected ∧
      final = log ++ added ∧
      added.map Assertion.segment =
        splitSegments prior.effective corrected prior.assertionKind correctedKind ∧
      Successors log prior.objectId prior.payloadFamily (some prior) added ∧
      ∀ new ∈ added, new.recordedAt = context.now := by
  unfold split at hrun
  split at hrun
  next => cases hrun
  next corrected hclipped => exact ⟨corrected, _, hclipped, (appendSegments_eq_ok hprior hrun).choose_spec⟩

/-- Segments of a split divide the interval of the assertion. -/
theorem divides_of_segments (hclipped : window.clippedTo prior.effective = some corrected)
    (hsegments : added.map Assertion.segment =
      splitSegments prior.effective corrected prior.assertionKind correctedKind) :
    Divides effectiveAt (containsInstant prior.effective) added := by
  obtain ⟨hproper, hwithin, -⟩ := of_clippedTo_eq_some hclipped
  have hview : Divides segmentCovers (containsInstant prior.effective)
      (added.map Assertion.segment) ↔ Divides effectiveAt (containsInstant prior.effective) added :=
    divides_map fun _ _ ↦ rfl
  rw [← hview, hsegments]
  exact divides_splitSegments hproper hwithin _ _

/-- An appended segment lies inside the window with the corrected kind, or outside with the old
kind. -/
theorem inside_or_outside (hclipped : window.clippedTo prior.effective = some corrected)
    (hsegments : added.map Assertion.segment =
      splitSegments prior.effective corrected prior.assertionKind correctedKind)
    {new : Assertion} (hnew : new ∈ added) :
    (new.assertionKind = correctedKind ∧ ∀ instant, containsInstant new.effective instant = true →
        containsInstant window instant = true) ∨
      (new.assertionKind = prior.assertionKind ∧ ∀ instant,
        containsInstant new.effective instant = true → containsInstant window instant = false) := by
  have hmem : new.segment ∈
      splitSegments prior.effective corrected prior.assertionKind correctedKind :=
    hsegments ▸ List.mem_map_of_mem hnew
  obtain ⟨-, -, hcorrected⟩ := of_clippedTo_eq_some hclipped
  rcases corrected_or_copy hmem with hpart | ⟨hkind, hdisjoint⟩
  · obtain ⟨heffective, hkind⟩ := Prod.mk.inj hpart
    refine .inl ⟨hkind, fun instant hinstant ↦ ?_⟩
    exact ((hcorrected instant).mp (heffective ▸ hinstant)).1
  · refine .inr ⟨hkind, fun instant hinstant ↦ Bool.eq_false_iff.mpr fun hwindow ↦ ?_⟩
    have hprior : containsInstant prior.effective instant = true :=
      ((divides_of_segments hclipped hsegments).covered instant).mpr ⟨new, hnew, hinstant⟩
    exact hdisjoint instant ⟨hinstant, (hcorrected instant).mpr ⟨hwindow, hprior⟩⟩

/-- The segments of a split are all appended. -/
theorem exists_split (hstored : Stored history) (hprior : prior ∈ acceptedRows history)
    (hapart : FamilyApart prior.objectId prior.payloadFamily history)
    (hfresh : context.Fresh 3 history)
    (hclipped : window.clippedTo prior.effective = some corrected) :
    ∃ final, (split context prior window correctedKind acceptance).run history =
      .ok ((), final) := by
  obtain ⟨hproper, hwithin, -⟩ := of_clippedTo_eq_some hclipped
  have hdivides := divides_splitSegments hproper hwithin prior.assertionKind correctedKind
  have hmem := mem_familyAccepted.mpr ⟨hprior, rfl, rfl⟩
  rw [split, hclipped]
  refine exists_appendSegments hstored (mem_acceptedRows.mp hprior).1 ?_ hdivides.apart ?_ ?_
  · intro segment hsegment
    obtain ⟨instant, hinstant⟩ := hdivides.inhabited segment hsegment
    exact Interval.proper_of_containsInstant hinstant
  · intro old hold hne segment hsegment instant hboth
    have horiginal := (hdivides.covered instant).mpr ⟨segment, hsegment, hboth.2⟩
    exact hapart.separate hold hmem (fun heq ↦ hne (heq ▸ rfl)) instant ⟨hboth.1, horiginal⟩
  · exact TxContext.Fresh.mono (length_splitSegments_le _ _ _ _) hfresh

/-- What is in force behind a split that succeeds: a segment over the interval of the assertion, and
what was in force before elsewhere. -/
theorem inForce_of_split {result : Unit} (hstored : Stored history)
    (hprior : prior ∈ acceptedRows history)
    (hapart : FamilyApart prior.objectId prior.payloadFamily history)
    (hclipped : window.clippedTo prior.effective = some corrected)
    (hsegments : added.map Assertion.segment =
      splitSegments prior.effective corrected prior.assertionKind correctedKind)
    (hsuccessors : Successors history prior.objectId prior.payloadFamily (some prior) added)
    (hrun : (split context prior window correctedKind acceptance).run history =
      .ok (result, history ++ added)) :
    Linked (history ++ added) ∧
      FamilyApart prior.objectId prior.payloadFamily (history ++ added) ∧
      (∀ instant, containsInstant prior.effective instant = true → ∃ new ∈ added,
        effectiveAt new instant = true ∧
          inForce prior.objectId prior.payloadFamily (history ++ added) instant = some new) ∧
      ∀ instant, containsInstant prior.effective instant ≠ true →
        inForce prior.objectId prior.payloadFamily (history ++ added) instant =
          inForce prior.objectId prior.payloadFamily history instant := by
  have hmem := (mem_acceptedRows.mp hprior).1
  have hdivides := divides_of_segments hclipped hsegments
  obtain ⟨hapart', hinForce⟩ := hsuccessors.inForce hstored hapart
    (mem_familyAccepted.mpr ⟨hprior, rfl, rfl⟩)
    (hdivides.ne_nil (hstored.proper prior hmem).containsInstant_start) hdivides.apart
    fun new hnew instant hcovers ↦ (hdivides.covered instant).mpr ⟨new, hnew, hcovers⟩
  refine ⟨hstored.toLinked.guarded (guarded_split hmem hrun), hapart', fun instant hinstant ↦ ?_,
    fun instant hinstant ↦ (hinForce instant).trans (if_neg hinstant)⟩
  obtain ⟨new, hnew, hcovers⟩ := (hdivides.covered instant).mp hinstant
  refine ⟨new, hnew, hcovers, ?_⟩
  rw [hinForce, if_pos hinstant]
  exact (rowAt_eq_some hdivides.apart).mpr ⟨hnew, hcovers⟩

/-- A split that succeeds leaves the segments in the place of the assertion. -/
theorem splitsExactly_of_run {result : Unit} (hstored : Stored history)
    (hprior : prior ∈ acceptedRows history)
    (hapart : FamilyApart prior.objectId prior.payloadFamily history)
    (hrun : (split context prior window correctedKind acceptance).run history =
      .ok (result, final)) :
    ∃ added, final = history ++ added ∧
      SplitsExactly history prior window correctedKind added := by
  have hmem := (mem_acceptedRows.mp hprior).1
  obtain ⟨corrected, added, hclipped, rfl, hsegments, hsuccessors, -⟩ := split_eq_ok hmem hrun
  obtain ⟨hlinked, hapart', hinside, -⟩ :=
    inForce_of_split hstored hprior hapart hclipped hsegments hsuccessors hrun
  have hdivides := divides_of_segments hclipped hsegments
  refine ⟨added, rfl, hdivides, fun new hnew ↦ ?_, fun pair hknown hinstant ↦ ?_, ?_⟩
  · exact ⟨(hsuccessors.owned new hnew).1, (hsuccessors.owned new hnew).2,
      hsuccessors.supersedes new hnew⟩
  · obtain ⟨new, hnew, hcovers, hwinner⟩ := hinside pair.actDate hinstant
    refine ⟨new, hnew, ?_, ?_⟩
    · rw [visibleRows_familyRows hlinked hapart' hknown, hwinner]
      rfl
    · rcases inside_or_outside hclipped hsegments hnew with ⟨hkind, hside⟩ | ⟨hkind, hside⟩
      · rw [hside _ hcovers]
        exact ⟨hkind, hside⟩
      · rw [hside _ hcovers]
        exact ⟨hkind, hside⟩
  · rw [hsuccessors.acceptedRows hstored.toLinked
      (hdivides.ne_nil (hstored.proper prior hmem).containsInstant_start)]
    congr 1
    refine List.filter_congr fun row _ ↦ ?_
    rw [Bool.eq_iff_iff, decide_eq_true_eq, decide_eq_true_eq, Option.map_some, ne_eq,
      Option.some.injEq, ne_comm]

/-- **The law of a split.** Whatever the window and the accepted assertion of a history whose
accepted assertions of that object and family are apart, a split refuses exactly when the two have
no common instant, without a statement, and otherwise replaces the assertion by its segments. -/
theorem split_exactly (hstored : Stored history) (hprior : prior ∈ acceptedRows history)
    (hapart : FamilyApart prior.objectId prior.payloadFamily history)
    (hfresh : context.Fresh 3 history) :
    ((∀ instant, containsInstant prior.effective instant = true →
        containsInstant window instant ≠ true) →
      split context prior window correctedKind acceptance =
        refuse (.disjointReplacementWindow prior.assertionId window)) ∧
    ((∃ instant, containsInstant prior.effective instant = true ∧
        containsInstant window instant = true) →
      ∃ added, (split context prior window correctedKind acceptance).run history =
          .ok ((), history ++ added) ∧
        SplitsExactly history prior window correctedKind added) := by
  constructor
  · intro hnone
    rw [split, clippedTo_eq_none_iff.mpr hnone]
  · rintro ⟨common, horiginal, hwindow⟩
    obtain ⟨corrected, hclipped⟩ : ∃ corrected, window.clippedTo prior.effective = some corrected :=
      Option.ne_none_iff_exists'.mp fun hnone ↦
        clippedTo_eq_none_iff.mp hnone common horiginal hwindow
    obtain ⟨final, hrun⟩ :=
      @exists_split _ _ _ _ _ correctedKind acceptance hstored hprior hapart hfresh hclipped
    obtain ⟨added, rfl, hsplits⟩ := splitsExactly_of_run hstored hprior hapart hrun
    exact ⟨added, hrun, hsplits⟩

end Splits

/-- A transaction that numbers its assertions. -/
def numberedContext (now : Instant) : TxContext where
  now := now
  uuid4 rows := BitVec.ofNat 128 (rows.length + 1)

/-- An assertion about a document, effective from 10 to 30. -/
def boundedAssertion : Assertion where
  assertionId := 1
  objectId := 7
  payloadFamily := lit "document"
  assertionKind := .payload
  revisionNo := 1
  supersedesAssertionId := none
  effective := { start := 10, stop := some 30 }
  recordedAt := 1
  acceptance := {}

theorem stored_boundedAssertion : Stored [boundedAssertion] where
  nodup := List.nodup_singleton _
  prior := by simp [boundedAssertion]
  proper := by decide

theorem familyApart_boundedAssertion : FamilyApart 7 (lit "document") [boundedAssertion] := by
  have hrows : familyAccepted 7 (lit "document") [boundedAssertion] = [boundedAssertion] := by
    decide
  rw [FamilyApart, hrows]
  exact List.pairwise_singleton _ _

theorem fresh_numberedContext : (numberedContext 40).Fresh 3 [boundedAssertion] := by
  refine ⟨by decide, fun first hfirst ↦ ⟨?_, fun second hsecond ↦ ⟨?_, fun _ _ ↦ trivial⟩⟩⟩
  · simp [hfirst, numberedContext, boundedAssertion]
  · simp [hfirst, hsecond, numberedContext, boundedAssertion]

/-- The split of an assertion from 10 to 30 over a window from 20 on. -/
theorem split_exactly_from_20 : ∃ added,
    (split (numberedContext 40) boundedAssertion { start := 20, stop := none } .deletion {}).run
        [boundedAssertion] = .ok ((), [boundedAssertion] ++ added) ∧
      SplitsExactly [boundedAssertion] boundedAssertion { start := 20, stop := none } .deletion
        added :=
  (split_exactly stored_boundedAssertion (by decide) familyApart_boundedAssertion
    fresh_numberedContext).2 ⟨20, by decide, by decide⟩

end DocStore
