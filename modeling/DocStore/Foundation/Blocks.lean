import DocStore.Foundation.Batches
import Mathlib.Data.List.TakeWhile

/-!
# Blocks with a marked end

A list can be cut behind each of its marked elements in one way only. So when the blocks of a list
are closed by their marked elements and its pages are, too, the pages are the blocks
(`forall_closed_batches_iff`), and a closed piece of the list is the end of a block
(`exists_suffix_of_closed`). The items of a list that is ordered by a key stand in blocks of one key
(`flatten_fibers`).
-/

set_option autoImplicit false
set_option relaxedAutoImplicit false

namespace DocStore.Foundation

variable {α κ : Type*} {marked : α → Bool}

/-- The last element is marked, and no other one. -/
def Closed (marked : α → Bool) (block : List α) : Prop :=
  ∃ front last, block = front ++ [last] ∧ (∀ item ∈ front, marked item = false) ∧
    marked last = true

theorem Closed.ne_nil {block : List α} (hclosed : Closed marked block) : block ≠ [] := by
  obtain ⟨front, last, rfl, -⟩ := hclosed
  exact List.append_ne_nil_of_right_ne_nil _ (List.cons_ne_nil _ _)

/-- A block is closed by the marks that its items are read with. -/
theorem closed_map_iff {β : Type*} {read : β → α} {block : List β} :
    Closed marked (block.map read) ↔ Closed (fun item ↦ marked (read item)) block := by
  constructor
  · rintro ⟨front, last, hsplit, hfront, hlast⟩
    obtain ⟨items, lasts, rfl, rfl, hsame⟩ := List.map_eq_append_iff.mp hsplit
    obtain ⟨item, rfl, rfl⟩ := List.map_eq_singleton_iff.mp hsame
    exact ⟨items, item, rfl, List.forall_mem_map.mp hfront, hlast⟩
  · rintro ⟨front, last, rfl, hfront, hlast⟩
    exact ⟨front.map read, read last, by rw [List.map_append, List.map_singleton],
      List.forall_mem_map.mpr hfront, hlast⟩

/-- Closed beginnings of one list are the same. -/
theorem Closed.append_inj {first second rest others : List α} (hfirst : Closed marked first)
    (hsecond : Closed marked second) (hsame : first ++ rest = second ++ others) :
    first = second ∧ rest = others := by
  obtain ⟨front, last, rfl, hfront, hlast⟩ := hfirst
  obtain ⟨front', last', rfl, hfront', hlast'⟩ := hsecond
  simp only [List.append_assoc, List.singleton_append] at hsame
  have htake : ∀ {front : List α} {last : α} {rest : List α},
      (∀ item ∈ front, marked item = false) → marked last = true →
        (front ++ last :: rest).takeWhile (fun item ↦ !marked item) = front := by
    intro front last rest hfront hlast
    rw [List.takeWhile_append_of_pos (by simpa using hfront),
      List.takeWhile_cons_of_neg (by simpa using hlast), List.append_nil]
  have hfronts := congrArg (List.takeWhile fun item ↦ !marked item) hsame
  rw [htake hfront hlast, htake hfront' hlast'] at hfronts
  subst hfronts
  obtain ⟨rfl, rfl⟩ := List.cons.inj (List.append_cancel_left hsame)
  exact ⟨rfl, rfl⟩

/-- **Closed blocks are determined by the list that they make up.** -/
theorem eq_of_flatten_eq {first second : List (List α)}
    (hfirst : ∀ block ∈ first, Closed marked block)
    (hsecond : ∀ block ∈ second, Closed marked block) (hflatten : first.flatten = second.flatten) :
    first = second := by
  induction first generalizing second with
  | nil =>
    cases second with
    | nil => rfl
    | cons block rest =>
      rw [List.flatten_nil, List.flatten_cons] at hflatten
      exact absurd (List.append_eq_nil_iff.mp hflatten.symm).1
        (hsecond block List.mem_cons_self).ne_nil
  | cons block rest ih =>
    obtain ⟨hblock, hrest⟩ := List.forall_mem_cons.mp hfirst
    cases second with
    | nil =>
      rw [List.flatten_nil, List.flatten_cons] at hflatten
      exact absurd (List.append_eq_nil_iff.mp hflatten).1 hblock.ne_nil
    | cons other others =>
      obtain ⟨hother, hothers⟩ := List.forall_mem_cons.mp hsecond
      obtain ⟨rfl, hsame⟩ := hblock.append_inj hother hflatten
      rw [ih hrest hothers hsame]

/-- The pages of a list start at the multiples of their size. -/
theorem mem_batches_iff {size : ℕ} (hsize : 0 < size) {items page : List α} :
    page ∈ batches size items ↔
      ∃ index, index * size < items.length ∧ page = (items.drop (index * size)).take size := by
  induction items using batches_induction hsize with
  | hnil => simp
  | hbatch items hitems ih =>
    rw [batches_of_ne_nil hsize hitems, List.mem_cons, ih]
    constructor
    · rintro (rfl | ⟨index, hindex, rfl⟩)
      · exact ⟨0, by simpa [List.length_pos_iff] using hitems, by rw [Nat.zero_mul, List.drop_zero]⟩
      · rw [List.length_drop] at hindex
        refine ⟨index + 1, by rw [Nat.succ_mul]; omega, ?_⟩
        rw [List.drop_drop, Nat.succ_mul, Nat.add_comm]
    · rintro ⟨index, hindex, rfl⟩
      cases index with
      | zero => exact .inl (by rw [Nat.zero_mul, List.drop_zero])
      | succ index =>
        rw [Nat.succ_mul] at hindex
        refine .inr ⟨index, by rw [List.length_drop]; omega, ?_⟩
        rw [List.drop_drop, Nat.succ_mul, Nat.add_comm]

/-- The pages of a list of closed blocks are all closed exactly when they are the blocks. -/
theorem forall_closed_batches_iff {size : ℕ} (hsize : 0 < size) {blocks : List (List α)}
    (hblocks : ∀ block ∈ blocks, Closed marked block) :
    (∀ page ∈ batches size blocks.flatten, Closed marked page) ↔
      batches size blocks.flatten = blocks := by
  constructor
  · exact fun hpages ↦ eq_of_flatten_eq hpages hblocks (flatten_batches hsize _)
  · exact fun hsame page hpage ↦ hblocks page (hsame ▸ hpage)

/-- What is left of a closed block in front is closed. -/
theorem Closed.of_append {front rest : List α} (hclosed : Closed marked (front ++ rest))
    (hne : rest ≠ []) : Closed marked rest := by
  obtain ⟨init, last, hsplit, hinit, hlast⟩ := hclosed
  rcases List.eq_nil_or_concat rest with rfl | ⟨middle, final, rfl⟩
  · exact absurd rfl hne
  · rw [List.concat_eq_append, ← List.append_assoc] at hsplit
    obtain ⟨rfl, hfinal⟩ := List.append_inj' hsplit rfl
    obtain rfl := (List.cons.inj hfinal).1
    exact ⟨middle, final, List.concat_eq_append, fun item hitem ↦
      hinit item (List.mem_append_right _ hitem), hlast⟩

/-- A closed piece of a list of closed blocks is the end of one of them. -/
theorem exists_suffix_of_closed {blocks : List (List α)}
    (hblocks : ∀ block ∈ blocks, Closed marked block) {front page back : List α}
    (hpage : Closed marked page) (hsplit : blocks.flatten = front ++ page ++ back) :
    ∃ block ∈ blocks, page <:+ block := by
  induction blocks generalizing front with
  | nil =>
    have hnil := (List.append_eq_nil_iff.mp (List.append_eq_nil_iff.mp hsplit.symm).1).2
    exact absurd hnil hpage.ne_nil
  | cons block rest ih =>
    obtain ⟨hblock, hrest⟩ := List.forall_mem_cons.mp hblocks
    rw [List.flatten_cons, List.append_assoc] at hsplit
    rcases List.append_eq_append_iff.mp hsplit with ⟨middle, rfl, hlater⟩ | ⟨middle, rfl, hsame⟩
    · rw [← List.append_assoc] at hlater
      obtain ⟨other, hother, hsuffix⟩ := ih hrest hlater
      exact ⟨other, List.mem_cons_of_mem _ hother, hsuffix⟩
    · rcases eq_or_ne middle [] with rfl | hne
      · rw [List.nil_append] at hsame
        have hlater : rest.flatten = [] ++ page ++ back := hsame.symm
        obtain ⟨other, hother, hsuffix⟩ := ih hrest hlater
        exact ⟨other, List.mem_cons_of_mem _ hother, hsuffix⟩
      · obtain ⟨rfl, -⟩ := (hblock.of_append hne).append_inj hpage hsame.symm
        exact ⟨front ++ middle, List.mem_cons_self, List.suffix_append _ _⟩

/-- The items of an ordered list, key by key, are the list. -/
theorem flatten_fibers [DecidableEq κ] {key : α → κ} (before : κ → κ → Prop)
    (hantisymm : ∀ first second, before first second → before second first → first = second)
    {items : List α} (hsorted : items.Pairwise fun first second ↦ before (key first) (key second)) :
    ((items.map key).eraseDups.map fun of ↦ items.filter fun item ↦ key item = of).flatten =
      items := by
  induction items with
  | nil => rfl
  | cons item rest ih =>
    obtain ⟨hfirst, hrest⟩ := List.pairwise_cons.mp hsorted
    have htail : ∀ of ∈ ((rest.map key).filter fun other ↦ !other == key item).eraseDups,
        (item :: rest).filter (fun other ↦ key other = of) =
          rest.filter fun other ↦ key other = of := by
      intro of hof
      have hne := (List.mem_filter.mp (List.mem_eraseDups.mp hof)).2
      refine List.filter_cons_of_neg fun hsame ↦ ?_
      rw [← of_decide_eq_true hsame, beq_self_eq_true] at hne
      cases hne
    rw [List.map_cons, List.eraseDups_cons, List.map_cons, List.flatten_cons,
      List.map_congr_left htail, List.filter_cons, if_pos (decide_eq_true rfl), List.cons_append]
    refine congrArg (List.cons item) ?_
    refine Eq.trans ?_ (ih hrest)
    cases rest with
    | nil => rfl
    | cons next others =>
      by_cases hsame : key next = key item
      · have hkeys : ((next :: others).map key).filter (fun other ↦ !other == key item) =
            (others.map key).filter fun other ↦ !other == key item := by
          rw [List.map_cons, List.filter_cons, if_neg (by simp [hsame])]
        rw [hkeys, List.map_cons, List.eraseDups_cons, hsame, List.map_cons, List.flatten_cons]
      · have hnone : ∀ other ∈ next :: others, key other ≠ key item := by
          intro other hother hkey
          refine hsame (hantisymm _ _ ?_ (hfirst next List.mem_cons_self))
          rcases List.mem_cons.mp hother with rfl | hlater
          · exact absurd hkey hsame
          · exact hkey ▸ (List.pairwise_cons.mp hrest).1 other hlater
        rw [List.filter_eq_nil_iff.mpr (by simpa using hnone), List.nil_append,
          List.filter_eq_self.mpr (by simpa using hnone)]

end DocStore.Foundation
