import Mathlib.Data.Finset.Card
import Mathlib.Data.Finset.Dedup
import Mathlib.Logic.Relation

/-!
# Closing a list under children

`saturate` adds the children of what is in a list until a pass adds nothing. When the children come
from a finite list, as many passes as that list is long are enough, and the result holds exactly
what can be reached from the list (`mem_saturate_iff`).
-/

set_option autoImplicit false
set_option relaxedAutoImplicit false

namespace DocStore.Foundation

variable {α : Type*} [DecidableEq α] {children : α → List α}

/-- Adds the children of every entry, pass after pass, until nothing is added. -/
def saturate (children : α → List α) : ℕ → List α → List α
  | 0, found => found
  | passes + 1, found =>
    if (found.flatMap children).all fun child ↦ child ∈ found then found
    else saturate children passes (found ∪ found.flatMap children)

/-- One entry can be reached from another through children. -/
def Reaches (children : α → List α) : α → α → Prop :=
  Relation.ReflTransGen fun parent child ↦ child ∈ children parent

theorem mem_saturate_of_mem {passes : ℕ} {found : List α} {entry : α} (hmem : entry ∈ found) :
    entry ∈ saturate children passes found := by
  induction passes generalizing found with
  | zero => exact hmem
  | succ passes ih =>
    unfold saturate
    split
    · exact hmem
    · exact ih (List.mem_union_left hmem _)

/-- Only what can be reached is added. -/
theorem reaches_of_mem_saturate {passes : ℕ} {found : List α} {entry : α}
    (hmem : entry ∈ saturate children passes found) :
    ∃ root ∈ found, Reaches children root entry := by
  induction passes generalizing found with
  | zero => exact ⟨entry, hmem, .refl⟩
  | succ passes ih =>
    unfold saturate at hmem
    split at hmem
    · exact ⟨entry, hmem, .refl⟩
    · obtain ⟨next, hnext, hreaches⟩ := ih hmem
      rcases List.mem_union_iff.mp hnext with hfound | hchild
      · exact ⟨next, hfound, hreaches⟩
      · obtain ⟨parent, hparent, hchild⟩ := List.mem_flatMap.mp hchild
        exact ⟨parent, hparent, hreaches.head hchild⟩

/-- A pass that adds something leaves fewer entries to be added. -/
theorem card_sdiff_union_lt {candidates found : List α} {parent child : α}
    (hcandidates : ∀ entry, ∀ child ∈ children entry, child ∈ candidates) (hparent : parent ∈ found)
    (hchild : child ∈ children parent) (hnew : child ∉ found) :
    (candidates.toFinset \ (found ∪ found.flatMap children).toFinset).card <
      (candidates.toFinset \ found.toFinset).card := by
  refine Finset.card_lt_card (Finset.ssubset_iff_of_subset ?_ |>.mpr ⟨child, ?_, ?_⟩)
  · refine Finset.sdiff_subset_sdiff (Finset.Subset.refl _) fun entry hentry ↦ ?_
    exact List.mem_toFinset.mpr (List.mem_union_left (List.mem_toFinset.mp hentry) _)
  · simp [hcandidates parent child hchild, hnew]
  · have hadded : child ∈ found ∪ found.flatMap children :=
      List.mem_union_right _ (List.mem_flatMap.mpr ⟨parent, hparent, hchild⟩)
    simp only [Finset.mem_sdiff, List.mem_toFinset, hadded, not_true_eq_false, and_false,
      not_false_eq_true]

/-- With a pass for every entry that may still be added, the result holds the children of all its
entries. -/
theorem saturate_closed {candidates : List α}
    (hcandidates : ∀ entry, ∀ child ∈ children entry, child ∈ candidates) {passes : ℕ}
    {found : List α} (hpasses : (candidates.toFinset \ found.toFinset).card ≤ passes) :
    ∀ entry ∈ saturate children passes found, ∀ child ∈ children entry,
      child ∈ saturate children passes found := by
  induction passes generalizing found with
  | zero =>
    intro entry _ child hchild
    have hempty := Finset.card_eq_zero.mp (Nat.le_zero.mp hpasses)
    have hsubset := Finset.sdiff_eq_empty_iff_subset.mp hempty
    exact List.mem_toFinset.mp (hsubset (List.mem_toFinset.mpr (hcandidates entry child hchild)))
  | succ passes ih =>
    unfold saturate
    split
    next hall =>
      intro entry hentry child hchild
      exact of_decide_eq_true (List.all_eq_true.mp hall child
        (List.mem_flatMap.mpr ⟨entry, hentry, hchild⟩))
    next hmore =>
      refine ih (Nat.le_of_lt_succ (lt_of_lt_of_le ?_ hpasses))
      obtain ⟨parent, hparent, child, hchild, hnew⟩ : ∃ parent ∈ found, ∃ child ∈ children parent,
          child ∉ found := by
        simpa using hmore
      exact card_sdiff_union_lt hcandidates hparent hchild hnew

/-- **The result holds exactly what can be reached.** -/
theorem mem_saturate_iff {candidates : List α}
    (hcandidates : ∀ entry, ∀ child ∈ children entry, child ∈ candidates) {found : List α} {entry : α} :
    entry ∈ saturate children candidates.length found ↔
      ∃ root ∈ found, Reaches children root entry := by
  constructor
  · exact reaches_of_mem_saturate
  · rintro ⟨root, hroot, hreaches⟩
    have hpasses : (candidates.toFinset \ found.toFinset).card ≤ candidates.length :=
      (Finset.card_le_card Finset.sdiff_subset).trans (List.toFinset_card_le candidates)
    have hclosed := saturate_closed hcandidates hpasses
    induction hreaches with
    | refl => exact mem_saturate_of_mem hroot
    | tail _ hchild ih => exact hclosed _ ih _ hchild

end DocStore.Foundation
