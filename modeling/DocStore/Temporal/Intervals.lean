import DocStore.Foundation.Coverage
import DocStore.Temporal.Ambiguity
import Mathlib.Order.MinMax

/-!
# Effective intervals

Intervals are half-open and may have no end. The comparisons of the service are read here as
statements about instants: proper intervals overlap exactly when they have a common instant
(`Interval.overlaps_iff`), clipping keeps the common instants (`containsInstant_of_clippedTo`), and
the segments of a split divide the original interval (`divides_splitSegments`).
-/

set_option autoImplicit false
set_option relaxedAutoImplicit false

namespace DocStore

open Foundation

/-! ### Instants of an interval -/

theorem containsInstant_iff {interval : Interval} {instant : Instant} :
    containsInstant interval instant = true ↔
      interval.start ≤ instant ∧ ∀ stop, interval.stop = some stop → instant < stop := by
  cases hstop : interval.stop <;> simp [containsInstant, before, hstop]

theorem Interval.proper_iff {interval : Interval} :
    interval.Proper ↔ ∀ stop, interval.stop = some stop → interval.start < stop := by
  cases hstop : interval.stop <;> simp [Interval.Proper, before, hstop]

/-- A proper interval contains its start. -/
theorem Interval.Proper.containsInstant_start {interval : Interval} (hproper : interval.Proper) :
    containsInstant interval interval.start = true :=
  containsInstant_iff.mpr ⟨le_rfl, Interval.proper_iff.mp hproper⟩

theorem Interval.proper_of_containsInstant {interval : Interval} {instant : Instant}
    (hinstant : containsInstant interval instant = true) : interval.Proper := by
  obtain ⟨hstart, hstop⟩ := containsInstant_iff.mp hinstant
  exact Interval.proper_iff.mpr fun stop heq ↦ Int.lt_of_le_of_lt hstart (hstop stop heq)

/-- Proper intervals overlap exactly when they have a common instant. -/
theorem Interval.overlaps_iff {first second : Interval} (hfirst : first.Proper)
    (hsecond : second.Proper) : first.overlaps second = true ↔
      ∃ instant, containsInstant first instant = true ∧ containsInstant second instant = true := by
  constructor
  · intro hoverlaps
    have hbefore : (∀ stop, second.stop = some stop → first.start < stop) ∧
        ∀ stop, first.stop = some stop → second.start < stop := by
      cases hstop : first.stop <;> cases hstop' : second.stop <;>
        simp_all [Interval.overlaps, before]
    refine ⟨max first.start second.start, containsInstant_iff.mpr ⟨le_max_left _ _, ?_⟩,
      containsInstant_iff.mpr ⟨le_max_right _ _, ?_⟩⟩
    · exact fun stop hstop ↦ max_lt (Interval.proper_iff.mp hfirst stop hstop)
        (hbefore.2 stop hstop)
    · exact fun stop hstop ↦ max_lt (hbefore.1 stop hstop)
        (Interval.proper_iff.mp hsecond stop hstop)
  · rintro ⟨instant, hcontains, hcontains'⟩
    by_contra hnot
    exact Interval.disjoint_of_not_overlaps (Bool.eq_false_iff.mpr hnot) instant
      ⟨hcontains, hcontains'⟩

/-- Proper intervals without a common instant do not overlap. -/
theorem Interval.not_overlaps_of_disjoint {first second : Interval} (hfirst : first.Proper)
    (hsecond : second.Proper) (hdisjoint : first.Disjoint second) :
    first.overlaps second = false := by
  by_contra hoverlaps
  obtain ⟨instant, hboth⟩ :=
    (Interval.overlaps_iff hfirst hsecond).mp (Bool.not_eq_false _ ▸ hoverlaps)
  exact hdisjoint instant hboth

/-- The instants of a contained interval. -/
theorem containsInstant_of_containsInterval {outer inner : Interval}
    (hcontains : containsInterval outer inner = true) {instant : Instant}
    (hinstant : containsInstant inner instant = true) : containsInstant outer instant = true := by
  obtain ⟨hstart, hstop⟩ := containsInstant_iff.mp hinstant
  simp only [containsInterval, Bool.and_eq_true, decide_eq_true_eq] at hcontains
  refine containsInstant_iff.mpr ⟨Int.le_trans hcontains.1 hstart, fun stop heq ↦ ?_⟩
  cases hinner : inner.stop with
  | none => simp [heq, hinner] at hcontains
  | some innerStop =>
    have hle : innerStop ≤ stop := by simpa [heq, hinner] using hcontains.2
    exact Int.lt_of_lt_of_le (hstop innerStop hinner) hle

/-! ### Clipping -/

theorem earliest_eq {first second : Option Instant} {instant : Instant} :
    (∀ stop, earliest first second = some stop → instant < stop) ↔
      (∀ stop, first = some stop → instant < stop) ∧
        ∀ stop, second = some stop → instant < stop := by
  cases first <;> cases second <;> simp [earliest]

theorem containsInstant_clip {window original : Interval} {instant : Instant} :
    containsInstant ⟨max window.start original.start, earliest window.stop original.stop⟩ instant =
        true ↔
      containsInstant window instant = true ∧ containsInstant original instant = true := by
  simp only [containsInstant_iff, earliest_eq, max_le_iff]
  exact and_and_and_comm

/-- A clipped window is proper and has the common instants. -/
theorem of_clippedTo_eq_some {window original corrected : Interval}
    (hclipped : window.clippedTo original = some corrected) :
    corrected.Proper ∧ containsInterval original corrected = true ∧
      ∀ instant, containsInstant corrected instant = true ↔
        containsInstant window instant = true ∧ containsInstant original instant = true := by
  simp only [Interval.clippedTo, Option.ite_none_right_eq_some, Option.some.injEq] at hclipped
  obtain ⟨hproper, rfl⟩ := hclipped
  refine ⟨hproper, ?_, fun _ ↦ containsInstant_clip⟩
  cases hwindow : window.stop <;> cases hstop : original.stop <;>
    simp [containsInterval, earliest, hstop]

/-- Clipping fails exactly when there is no common instant. -/
theorem clippedTo_eq_none_iff {window original : Interval} :
    window.clippedTo original = none ↔ ∀ instant, containsInstant original instant = true →
      containsInstant window instant ≠ true := by
  simp only [Interval.clippedTo, ite_eq_right_iff, reduceCtorEq, imp_false]
  constructor
  · intro hnot instant horiginal hwindow
    exact hnot (Interval.proper_of_containsInstant (containsInstant_clip.mpr ⟨hwindow, horiginal⟩))
  · intro hnone hproper
    have hstart : containsInstant
        ⟨max window.start original.start, earliest window.stop original.stop⟩
        (max window.start original.start) = true :=
      Interval.Proper.containsInstant_start hproper
    obtain ⟨hwindow, horiginal⟩ := containsInstant_clip.mp hstart
    exact hnone _ horiginal hwindow

/-! ### Segments -/

/-- Whether a segment with its kind covers an instant. -/
def segmentCovers (segment : Interval × AssertionKind) (instant : Instant) : Bool :=
  containsInstant segment.1 instant

/-- The segments of a split. -/
theorem mem_splitSegments {original corrected : Interval} {priorKind correctedKind : AssertionKind}
    {segment : Interval × AssertionKind} :
    segment ∈ splitSegments original corrected priorKind correctedKind ↔
      (original.start < corrected.start ∧
        segment = (⟨original.start, some corrected.start⟩, priorKind)) ∨
      segment = (corrected, correctedKind) ∨
      ∃ stop, corrected.stop = some stop ∧ before (some stop) original.stop = true ∧
        segment = (⟨stop, original.stop⟩, priorKind) := by
  have hleft : segment ∈ (if original.start < corrected.start then
      [((⟨original.start, some corrected.start⟩ : Interval), priorKind)] else []) ↔
        original.start < corrected.start ∧
          segment = (⟨original.start, some corrected.start⟩, priorKind) := by
    split <;> simp_all
  cases hstop : corrected.stop with
  | none => simp [splitSegments, hstop, hleft]
  | some stop =>
    by_cases hbefore : before (some stop) original.stop = true <;>
      simp [splitSegments, hstop, hleft, hbefore]

theorem length_splitSegments_le (original corrected : Interval)
    (priorKind correctedKind : AssertionKind) :
    (splitSegments original corrected priorKind correctedKind).length ≤ 3 := by
  have hleft : (if original.start < corrected.start then
      [((⟨original.start, some corrected.start⟩ : Interval), priorKind)] else []).length ≤ 1 := by
    split <;> simp
  cases hstop : corrected.stop with
  | none =>
    simp only [splitSegments, hstop, List.length_append, List.length_singleton, List.length_nil]
    omega
  | some stop =>
    by_cases hbefore : before (some stop) original.stop = true <;>
      simp only [splitSegments, hstop, hbefore, List.length_append, List.length_singleton,
        if_true, if_false, Bool.false_eq_true, List.length_nil] <;>
      omega

/-- **The segments of a split divide the original interval.** -/
theorem divides_splitSegments {original corrected : Interval} (hproper : corrected.Proper)
    (hwithin : containsInterval original corrected = true) (priorKind correctedKind : AssertionKind) :
    Divides segmentCovers (containsInstant original)
      (splitSegments original corrected priorKind correctedKind) where
  inhabited segment hmem := by
    have hsegment : segment.1.Proper := by
      obtain ⟨hbefore, rfl⟩ | rfl | ⟨stop, -, hbefore, rfl⟩ := mem_splitSegments.mp hmem
      · simpa [Interval.Proper, before] using hbefore
      · exact hproper
      · exact hbefore
    exact ⟨_, hsegment.containsInstant_start⟩
  apart := by
    have hstart := Interval.proper_iff.mp hproper
    have hpairs : ∀ first second : Interval × AssertionKind, ∀ boundary : Instant,
        first.1.stop = some boundary → boundary ≤ second.1.start →
          Separate segmentCovers first second := by
      rintro first second boundary hstop hle instant ⟨hfirst, hsecond⟩
      have hbefore := (containsInstant_iff.mp hfirst).2 boundary hstop
      exact absurd (Int.le_trans hle (containsInstant_iff.mp hsecond).1) (Int.not_le.mpr hbefore)
    refine List.pairwise_append.mpr ⟨List.pairwise_append.mpr ⟨?_, List.pairwise_singleton _ _, ?_⟩,
      ?_, ?_⟩
    · split
      · exact List.pairwise_singleton _ _
      · exact List.Pairwise.nil
    · intro first hfirst second hsecond
      rw [List.mem_singleton.mp hsecond]
      split at hfirst
      · exact hpairs _ _ corrected.start (List.mem_singleton.mp hfirst ▸ rfl) le_rfl
      · cases hfirst
    · split
      · exact List.Pairwise.nil
      · split
        · exact List.pairwise_singleton _ _
        · exact List.Pairwise.nil
    · intro first hfirst second hsecond
      split at hsecond
      next => cases hsecond
      next stop hstop =>
        split at hsecond
        · rw [List.mem_singleton.mp hsecond]
          rcases List.mem_append.mp hfirst with hleft | hmiddle
          · split at hleft
            · exact hpairs _ _ corrected.start (List.mem_singleton.mp hleft ▸ rfl)
                (Int.le_of_lt (hstart stop hstop))
            · cases hleft
          · exact hpairs _ _ stop (List.mem_singleton.mp hmiddle ▸ hstop) le_rfl
        · cases hsecond
  covered instant := by
    obtain ⟨hfrom, hupto⟩ := containsInstant_iff.mp
      (containsInstant_of_containsInterval hwithin hproper.containsInstant_start)
    constructor
    · intro horiginal
      obtain ⟨hstart, hstop⟩ := containsInstant_iff.mp horiginal
      by_cases hleft : instant < corrected.start
      · refine ⟨_, mem_splitSegments.mpr (.inl ⟨Int.lt_of_le_of_lt hstart hleft, rfl⟩), ?_⟩
        exact containsInstant_iff.mpr ⟨hstart, fun _ heq ↦ Option.some.inj heq ▸ hleft⟩
      · by_cases hright : ∃ stop, corrected.stop = some stop ∧ stop ≤ instant
        · obtain ⟨stop, hcorrected, hle⟩ := hright
          have hbefore : before (some stop) original.stop = true := by
            cases horiginalStop : original.stop with
            | none => rfl
            | some originalStop =>
              exact decide_eq_true (Int.lt_of_le_of_lt hle (hstop originalStop horiginalStop))
          exact ⟨_, mem_splitSegments.mpr (.inr (.inr ⟨stop, hcorrected, hbefore, rfl⟩)),
            containsInstant_iff.mpr ⟨hle, hstop⟩⟩
        · refine ⟨_, mem_splitSegments.mpr (.inr (.inl rfl)), ?_⟩
          exact containsInstant_iff.mpr ⟨Int.not_lt.mp hleft, fun stop hcorrected ↦
            Int.not_le.mp fun hle ↦ hright ⟨stop, hcorrected, hle⟩⟩
    · rintro ⟨segment, hmem, hcovers⟩
      obtain ⟨-, rfl⟩ | rfl | ⟨stop, hcorrected, -, rfl⟩ := mem_splitSegments.mp hmem
      · obtain ⟨hstart, hstop⟩ := containsInstant_iff.mp hcovers
        exact containsInstant_iff.mpr ⟨hstart, fun stop heq ↦
          Int.lt_trans (hstop _ rfl) (hupto stop heq)⟩
      · exact containsInstant_of_containsInterval hwithin hcovers
      · obtain ⟨hstart, hstop⟩ := containsInstant_iff.mp hcovers
        have hlater := Interval.proper_iff.mp hproper stop hcorrected
        exact containsInstant_iff.mpr
          ⟨Int.le_trans hfrom (Int.le_trans (Int.le_of_lt hlater) hstart), hstop⟩

/-- A segment is the corrected part, or a copy beside it. -/
theorem corrected_or_copy {original corrected : Interval}
    {priorKind correctedKind : AssertionKind} {segment : Interval × AssertionKind}
    (hmem : segment ∈ splitSegments original corrected priorKind correctedKind) :
    segment = (corrected, correctedKind) ∨
      segment.2 = priorKind ∧ segment.1.Disjoint corrected := by
  obtain ⟨-, rfl⟩ | rfl | ⟨stop, hcorrected, -, rfl⟩ := mem_splitSegments.mp hmem
  · refine .inr ⟨rfl, fun instant hboth ↦ ?_⟩
    have hbefore := (containsInstant_iff.mp hboth.1).2 _ rfl
    exact absurd (containsInstant_iff.mp hboth.2).1 (Int.not_le.mpr hbefore)
  · exact .inl rfl
  · refine .inr ⟨rfl, fun instant hboth ↦ ?_⟩
    have hbefore := (containsInstant_iff.mp hboth.2).2 stop hcorrected
    exact absurd (containsInstant_iff.mp hboth.1).1 (Int.not_le.mpr hbefore)

end DocStore
