import Mathlib.Data.Int.Order.Basic
import Mathlib.Data.List.Flatten

/-!
# Spans and sweeps over them

A span is a half-open stretch of positions. Spans are in order when none is empty and each ends
before the later ones begin (`InOrder`). A sweep takes its entries one after the other and keeps the
position where the last one ended: it gets to the end exactly when every entry fits and no span
begins before the position that the sweep has reached (`exists_foldlM_eq_ok_iff`). Such a sweep is
what tells spans in order from others (`follows_iff`), also when spans lie within other spans
(`inOrder_flatMap`).
-/

set_option autoImplicit false
set_option relaxedAutoImplicit false

namespace DocStore.Foundation

/-- A half-open stretch of positions. -/
structure Span where
  start : ℤ
  stop : ℤ
deriving DecidableEq

/-- A span that is not empty. -/
def Span.Proper (span : Span) : Prop := span.start < span.stop

/-- A span that lies within another one. -/
def Span.Within (inner outer : Span) : Prop :=
  outer.start ≤ inner.start ∧ inner.stop ≤ outer.stop

/-- Spans of which none is empty and each ends before the later ones begin. -/
structure InOrder (spans : List Span) : Prop where
  proper : ∀ span ∈ spans, span.Proper
  apart : spans.Pairwise fun first second ↦ first.stop ≤ second.start

/-- Spans that follow each other from a position on. -/
def Follows : ℤ → List Span → Prop
  | _, [] => True
  | position, span :: spans => position ≤ span.start ∧ span.Proper ∧ Follows span.stop spans

/-- What follows a position begins behind it and is in order. -/
theorem follows_iff {position : ℤ} {spans : List Span} :
    Follows position spans ↔ (∀ span ∈ spans, position ≤ span.start) ∧ InOrder spans := by
  induction spans generalizing position with
  | nil => exact ⟨fun _ ↦ ⟨by simp, by simp, .nil⟩, fun _ ↦ trivial⟩
  | cons span spans ih =>
    rw [Follows, ih]
    constructor
    · rintro ⟨hbehind, hproper, hlater, horder⟩
      refine ⟨List.forall_mem_cons.mpr ⟨hbehind, fun other hother ↦ ?_⟩,
        List.forall_mem_cons.mpr ⟨hproper, horder.proper⟩, .cons hlater horder.apart⟩
      have hless : span.start < span.stop := hproper
      have hlate := hlater other hother
      omega
    · rintro ⟨hbehind, horder⟩
      obtain ⟨hlater, hrest⟩ := List.pairwise_cons.mp horder.apart
      obtain ⟨hproper, hpropers⟩ := List.forall_mem_cons.mp horder.proper
      exact ⟨hbehind span List.mem_cons_self, hproper, hlater, hpropers, hrest⟩

/-- Spans within others that are in order are in order when those within one of them are. -/
theorem inOrder_flatMap {α : Type*} {outer : α → Span} {inner : α → List Span} {entries : List α}
    (hwithin : ∀ entry ∈ entries, ∀ span ∈ inner entry, span.Within (outer entry))
    (horder : InOrder (entries.map outer)) :
    InOrder (entries.flatMap inner) ↔ ∀ entry ∈ entries, InOrder (inner entry) := by
  constructor
  · intro hall entry hmem
    have hsub : (inner entry).Sublist (entries.flatMap inner) :=
      List.sublist_flatten_of_mem (List.mem_map_of_mem hmem)
    exact ⟨fun span hspan ↦ hall.proper span (hsub.subset hspan), hall.apart.sublist hsub⟩
  · intro hall
    refine ⟨fun span hspan ↦ ?_, List.pairwise_flatMap.mpr ⟨fun entry hmem ↦ (hall entry hmem).apart,
      ?_⟩⟩
    · obtain ⟨entry, hmem, hspan⟩ := List.mem_flatMap.mp hspan
      exact (hall entry hmem).proper span hspan
    · refine (List.pairwise_map.mp horder.apart).imp_of_mem fun hfirst hsecond hle span hspan other
        hother ↦ ?_
      have hstop := (hwithin _ hfirst span hspan).2
      have hstart := (hwithin _ hsecond other hother).1
      omega

/-! ### Sweeps -/

section Sweep

variable {ε σ α : Type} {step : σ → α → Except ε σ}

/-- A loop over a first entry and others takes the step of the first one. -/
theorem foldlM_cons_eq_ok {entry : α} {entries : List α} {state final : σ} :
    (entry :: entries).foldlM step state = .ok final ↔
      ∃ next, step state entry = .ok next ∧ entries.foldlM step next = .ok final := by
  rw [List.foldlM_cons]
  cases hstep : step state entry with
  | error raised => simp [bind, Except.bind]
  | ok next => simp [bind, Except.bind]

/-- What holds of what is left, and of what is done, at every turn of a loop holds at its end. -/
theorem invariant_of_foldlM_eq_ok (inv : List α → σ → Prop) {done entries : List α}
    {state final : σ} (hinitial : inv done state)
    (hstep : ∀ done entry state next, entry ∈ entries → inv done state →
      step state entry = .ok next → inv (done ++ [entry]) next)
    (hrun : entries.foldlM step state = .ok final) : inv (done ++ entries) final := by
  induction entries generalizing done state with
  | nil =>
    cases hrun
    simpa using hinitial
  | cons entry entries ih =>
    obtain ⟨next, hnext, hrest⟩ := foldlM_cons_eq_ok.mp hrun
    have hlater := ih (hstep _ _ _ _ List.mem_cons_self hinitial hnext)
      (fun done other state next hother ↦ hstep done other state next
        (List.mem_cons_of_mem _ hother)) hrest
    rwa [List.append_assoc] at hlater

/-- A sweep gets to the end exactly when every entry fits and the spans follow each other. -/
theorem exists_foldlM_eq_ok_iff (inv : σ → List α → Prop) (fits : α → Prop) (span : α → Span)
    (position : σ → ℤ)
    (hstep : ∀ state entry rest, inv state (entry :: rest) →
      ((∃ next, step state entry = .ok next) ↔
        fits entry ∧ (span entry).Proper ∧ position state ≤ (span entry).start))
    (hnext : ∀ state entry rest next, inv state (entry :: rest) → step state entry = .ok next →
      inv next rest ∧ position next = (span entry).stop)
    {entries : List α} {state : σ} (hinitial : inv state entries) :
    (∃ final, entries.foldlM step state = .ok final) ↔
      (∀ entry ∈ entries, fits entry) ∧ Follows (position state) (entries.map span) := by
  induction entries generalizing state with
  | nil => exact ⟨fun _ ↦ ⟨by simp, trivial⟩, fun _ ↦ ⟨state, rfl⟩⟩
  | cons entry entries ih =>
    rw [List.forall_mem_cons, List.map_cons, Follows]
    constructor
    · rintro ⟨final, hfinal⟩
      obtain ⟨next, hstepped, hrest⟩ := foldlM_cons_eq_ok.mp hfinal
      obtain ⟨hfits, hproper, hbehind⟩ := (hstep _ _ _ hinitial).mp ⟨next, hstepped⟩
      obtain ⟨hkept, hposition⟩ := hnext _ _ _ _ hinitial hstepped
      obtain ⟨hall, hfollows⟩ := (ih hkept).mp ⟨final, hrest⟩
      exact ⟨⟨hfits, hall⟩, hbehind, hproper, hposition ▸ hfollows⟩
    · rintro ⟨⟨hfits, hall⟩, hbehind, hproper, hfollows⟩
      obtain ⟨next, hstepped⟩ := (hstep _ _ _ hinitial).mpr ⟨hfits, hproper, hbehind⟩
      obtain ⟨hkept, hposition⟩ := hnext _ _ _ _ hinitial hstepped
      obtain ⟨final, hfinal⟩ := (ih hkept).mpr ⟨hall, hposition ▸ hfollows⟩
      exact ⟨final, foldlM_cons_eq_ok.mpr ⟨next, hstepped, hfinal⟩⟩

end Sweep

end DocStore.Foundation
