import DocStore.Foundation.Loop
import Mathlib.Data.Finset.Card
import Mathlib.Data.Finset.Dedup
import Mathlib.Order.Bounds.Basic

/-!
# Collecting until nothing is added

A collection grows by additions, each of which also says whether it has added anything. `Adds` says
what an addition is after, and additions one behind the other are after all of it (`Adds.andThen`,
`adds_inTurn`). A loop whose turn adds the children of what is collected, until a turn adds nothing,
ends with the least collection that holds the roots and all its children (`exists_least`), in
whatever order the turn looks at the collection.
-/

set_option autoImplicit false
set_option relaxedAutoImplicit false

namespace DocStore.Foundation

variable {α : Type*}

/-- What a collection grows to, and whether it has grown. -/
abbrev Addition (α : Type*) := List α → List α × Bool

/-- Adds an entry, unless it is there. -/
def addNew [DecidableEq α] (entry : α) : Addition α := fun found ↦
  if entry ∈ found then (found, false) else (found ++ [entry], true)

/-- One addition behind the other. -/
def Addition.andThen (first second : Addition α) : Addition α := fun found ↦
  let middle := first found
  let last := second middle.1
  (last.1, middle.2 || last.2)

/-- Additions one behind the other. -/
def inTurn : List (Addition α) → Addition α
  | [] => fun found ↦ (found, false)
  | addition :: additions => addition.andThen (inTurn additions)

/-- An addition adds the wanted entries that are not there, and says whether there are any. -/
structure Adds (wanted : α → Prop) (addition : Addition α) : Prop where
  mem : ∀ found entry, entry ∈ (addition found).1 ↔ entry ∈ found ∨ wanted entry
  nodup : ∀ found, found.Nodup → (addition found).1.Nodup
  changed : ∀ found, (addition found).2 = true ↔ ∃ entry, wanted entry ∧ entry ∉ found

theorem Adds.congr {wanted others : α → Prop} {addition : Addition α} (hadds : Adds wanted addition)
    (hsame : ∀ entry, wanted entry ↔ others entry) : Adds others addition := by
  have hequal : wanted = others := funext fun entry ↦ propext (hsame entry)
  exact hequal ▸ hadds

theorem adds_nothing : Adds (fun _ : α ↦ False) fun found ↦ (found, false) where
  mem := by simp
  nodup := fun _ hnodup ↦ hnodup
  changed := by simp

theorem adds_addNew [DecidableEq α] (entry : α) : Adds (fun other ↦ other = entry) (addNew entry) := by
  refine ⟨fun found other ↦ ?_, fun found hnodup ↦ ?_, fun found ↦ ?_⟩
  · by_cases hmem : entry ∈ found
    · rw [addNew, if_pos hmem, or_iff_left_of_imp]
      rintro rfl
      exact hmem
    · rw [addNew, if_neg hmem, List.mem_append, List.mem_singleton]
  · by_cases hmem : entry ∈ found
    · rwa [addNew, if_pos hmem]
    · rw [addNew, if_neg hmem]
      exact List.nodup_append.mpr ⟨hnodup, List.nodup_singleton entry, by
        rintro other hother _ hentry rfl
        exact hmem (List.mem_singleton.mp hentry ▸ hother)⟩
  · by_cases hmem : entry ∈ found <;> simp [addNew, hmem]

/-- One addition behind the other is after what both are after. -/
theorem Adds.andThen {wanted others : α → Prop} {first second : Addition α}
    (hfirst : Adds wanted first) (hsecond : Adds others second) :
    Adds (fun entry ↦ wanted entry ∨ others entry) (first.andThen second) := by
  refine ⟨fun found entry ↦ ?_, fun found hnodup ↦ hsecond.nodup _ (hfirst.nodup found hnodup),
    fun found ↦ ?_⟩
  · rw [Addition.andThen, hsecond.mem, hfirst.mem, or_assoc]
  · rw [Addition.andThen, Bool.or_eq_true, hfirst.changed, hsecond.changed]
    constructor
    · rintro (⟨entry, hwanted, hnew⟩ | ⟨entry, hwanted, hnew⟩)
      · exact ⟨entry, Or.inl hwanted, hnew⟩
      · exact ⟨entry, Or.inr hwanted, fun hmem ↦ hnew ((hfirst.mem found entry).mpr (Or.inl hmem))⟩
    · rintro ⟨entry, hwanted | hother, hnew⟩
      · exact Or.inl ⟨entry, hwanted, hnew⟩
      · by_cases hwanted : wanted entry
        · exact Or.inl ⟨entry, hwanted, hnew⟩
        · refine Or.inr ⟨entry, hother, fun hmem ↦ ?_⟩
          exact ((hfirst.mem found entry).mp hmem).elim hnew hwanted

/-- Additions one behind the other are after what each of them is after. -/
theorem adds_inTurn {ι : Type*} {addition : ι → Addition α} {wanted : ι → α → Prop}
    {items : List ι} (hadds : ∀ item ∈ items, Adds (wanted item) (addition item)) :
    Adds (fun entry ↦ ∃ item ∈ items, wanted item entry) (inTurn (items.map addition)) := by
  induction items with
  | nil => exact adds_nothing.congr (by simp)
  | cons item items ih =>
    obtain ⟨hitem, hitems⟩ := List.forall_mem_cons.mp hadds
    refine (hitem.andThen (ih hitems)).congr fun entry ↦ ?_
    rw [List.exists_mem_cons_iff]

/-- A turn of a loop that repeats an addition until nothing is added. What is added may depend on
the collection as it is when the turn begins. -/
def untilUnchanged (additions : List α → Addition α) (found : List α) : Turn (List α) (List α) :=
  if (additions found found).2 then .next (additions found found).1
  else .stop (additions found found).1

/-- The collections that hold some roots, and with an entry its children. -/
def ClosedUnder (child : α → α → Prop) (roots : List α) : Set (Set α) :=
  {closed | (∀ root ∈ roots, root ∈ closed) ∧
    ∀ parent ∈ closed, ∀ entry, child parent entry → entry ∈ closed}

section Least

variable {child : α → α → Prop} {additions : List α → Addition α} {candidates roots : List α}

/-- A turn that adds something leaves fewer entries to be added. -/
theorem ends_untilUnchanged [DecidableEq α]
    (hadds : ∀ found, Adds (fun entry ↦ ∃ parent ∈ found, child parent entry) (additions found))
    (hcandidates : ∀ parent entry, child parent entry → entry ∈ candidates) :
    Ends (untilUnchanged additions) roots := by
  refine ends_of_measure (fun _ ↦ True)
    (fun found ↦ (candidates.toFinset \ found.toFinset).card) (fun found next _ hturn ↦ ?_) trivial
  rw [untilUnchanged] at hturn
  split at hturn
  next hchanged =>
    cases hturn
    obtain ⟨entry, ⟨parent, hparent, hchild⟩, hnew⟩ := ((hadds found).changed found).mp hchanged
    refine ⟨trivial, Finset.card_lt_card (Finset.ssubset_iff_of_subset ?_ |>.mpr ⟨entry, ?_, ?_⟩)⟩
    · refine Finset.sdiff_subset_sdiff (Finset.Subset.refl _) fun other hother ↦ ?_
      exact List.mem_toFinset.mpr
        (((hadds found).mem found other).mpr (Or.inl (List.mem_toFinset.mp hother)))
    · exact Finset.mem_sdiff.mpr ⟨List.mem_toFinset.mpr (hcandidates parent entry hchild),
        fun hmem ↦ hnew (List.mem_toFinset.mp hmem)⟩
    · intro hmem
      refine (Finset.mem_sdiff.mp hmem).2 (List.mem_toFinset.mpr ?_)
      exact ((hadds found).mem found entry).mpr (Or.inr ⟨parent, hparent, hchild⟩)
  next => cases hturn

/-- The loop ends with nothing but what every closed collection has, and with a closed one. -/
theorem isLeast_of_endsWith {result : List α}
    (hadds : ∀ found, Adds (fun entry ↦ ∃ parent ∈ found, child parent entry) (additions found))
    (hends : EndsWith (untilUnchanged additions) roots result) :
    IsLeast (ClosedUnder child roots) {entry | entry ∈ result} := by
  refine hends.post
    (fun found ↦ (∀ root ∈ roots, root ∈ found) ∧
      {entry | entry ∈ found} ∈ lowerBounds (ClosedUnder child roots))
    (fun result ↦ IsLeast (ClosedUnder child roots) {entry | entry ∈ result})
    ⟨fun _ hroot ↦ hroot, fun closed hclosed root hroot ↦ hclosed.1 root hroot⟩ ?_ ?_
  · rintro found next ⟨hroots, hlower⟩ hturn
    rw [untilUnchanged] at hturn
    split at hturn
    next =>
      cases hturn
      refine ⟨fun root hroot ↦ ((hadds found).mem found root).mpr (Or.inl (hroots root hroot)),
        fun closed hclosed entry hentry ↦ ?_⟩
      rcases ((hadds found).mem found entry).mp hentry with hfound | ⟨parent, hparent, hchild⟩
      · exact hlower hclosed hfound
      · exact hclosed.2 parent (hlower hclosed hparent) entry hchild
    next => cases hturn
  · rintro found result ⟨hroots, hlower⟩ hturn
    rw [untilUnchanged] at hturn
    split at hturn
    next => cases hturn
    next hunchanged =>
      cases hturn
      have hnone : ∀ parent ∈ found, ∀ entry, child parent entry → entry ∈ found := by
        intro parent hparent entry hchild
        by_contra hnew
        exact hunchanged (((hadds found).changed found).mpr ⟨entry, ⟨parent, hparent, hchild⟩, hnew⟩)
      have hsame : {entry | entry ∈ (additions found found).1} = {entry | entry ∈ found} := by
        ext entry
        rw [Set.mem_ofPred_eq, (hadds found).mem, Set.mem_ofPred_eq, or_iff_left_iff_imp]
        rintro ⟨parent, hparent, hchild⟩
        exact hnone parent hparent entry hchild
      rw [hsame]
      exact ⟨⟨hroots, hnone⟩, hlower⟩

/-- The loop collects every entry once. -/
theorem nodup_of_endsWith {result : List α}
    (hadds : ∀ found, Adds (fun entry ↦ ∃ parent ∈ found, child parent entry) (additions found))
    (hroots : roots.Nodup) (hends : EndsWith (untilUnchanged additions) roots result) :
    result.Nodup := by
  refine hends.post List.Nodup List.Nodup hroots (fun found next hnodup hturn ↦ ?_)
    fun found result hnodup hturn ↦ ?_
  · rw [untilUnchanged] at hturn
    split at hturn
    next => exact Turn.next.inj hturn ▸ (hadds found).nodup found hnodup
    next => cases hturn
  · rw [untilUnchanged] at hturn
    split at hturn
    next => cases hturn
    next => exact Turn.stop.inj hturn ▸ (hadds found).nodup found hnodup

/-- **The least closed collection.** -/
theorem exists_least [DecidableEq α]
    (hadds : ∀ found, Adds (fun entry ↦ ∃ parent ∈ found, child parent entry) (additions found))
    (hcandidates : ∀ parent entry, child parent entry → entry ∈ candidates) (hroots : roots.Nodup) :
    ∃ result, EndsWith (untilUnchanged additions) roots result ∧ result.Nodup ∧
      IsLeast (ClosedUnder child roots) {entry | entry ∈ result} := by
  obtain ⟨result, hends⟩ := @ends_untilUnchanged α child additions candidates roots _ hadds hcandidates
  exact ⟨result, hends, nodup_of_endsWith hadds hroots hends, isLeast_of_endsWith hadds hends⟩

end Least

end DocStore.Foundation
