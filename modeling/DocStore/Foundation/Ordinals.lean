import DocStore.Foundation.Ranking
import Mathlib.Data.Int.Order.Basic

/-!
# Rows that are numbered from zero

A sequence is stored as rows that carry their positions, and the rows may come back in any order.
`ordered` puts them into their order again and refuses numbers that are negative, taken or not
contiguous. It accepts exactly the rows that some order numbers from zero, and returns them in this
order (`ordered_eq_ok_iff`), so what was numbered is restored from every permutation
(`ordered_of_perm`).
-/

set_option autoImplicit false
set_option relaxedAutoImplicit false

namespace DocStore.Foundation

variable {α β : Type} {number : α → ℤ} {rows result : List α}

/-- Why rows have no order. -/
inductive OrderFault where
  | invalid (number : ℤ)
  | gap
deriving DecidableEq, Repr

/-- The first number that is negative or taken. -/
def firstFault (seen : List ℤ) : List ℤ → Option ℤ
  | [] => none
  | number :: rest =>
    if number < 0 ∨ number ∈ seen then some number else firstFault (seen ++ [number]) rest

/-- The positions in front of a length. -/
def positions (length : ℕ) : List ℤ := (List.range length).map Int.ofNat

/-- The rows in the order of their numbers. -/
def ordered (number : α → ℤ) (rows : List α) : Except OrderFault (List α) :=
  match firstFault [] (rows.map number) with
  | some fault => .error (.invalid fault)
  | none =>
    if (ranked number rows).map number = positions rows.length then .ok (ranked number rows)
    else .error .gap

/-- Rows that some order numbers from zero. -/
def Numbered (number : α → ℤ) (rows : List α) : Prop :=
  (rows.map number).Perm (positions rows.length)

@[simp] theorem length_positions (length : ℕ) : (positions length).length = length := by
  simp [positions]

theorem pairwise_positions (length : ℕ) : (positions length).Pairwise (· < ·) := by
  rw [positions, List.pairwise_map]
  exact List.pairwise_lt_range.imp fun hlt ↦ Int.ofNat_lt.mpr hlt

theorem nodup_positions (length : ℕ) : (positions length).Nodup :=
  (pairwise_positions length).imp fun hlt ↦ hlt.ne

theorem nonneg_of_mem_positions {length : ℕ} {position : ℤ} (hmem : position ∈ positions length) :
    0 ≤ position := by
  obtain ⟨index, -, rfl⟩ := List.mem_map.mp hmem
  exact Int.natCast_nonneg index

/-- No number is at fault when none is negative and none is there twice. -/
theorem firstFault_eq_none {numbers seen : List ℤ} (hnonneg : ∀ number ∈ numbers, 0 ≤ number)
    (hnodup : (seen ++ numbers).Nodup) : firstFault seen numbers = none := by
  induction numbers generalizing seen with
  | nil => rfl
  | cons number rest ih =>
    obtain ⟨hfirst, hrest⟩ := List.forall_mem_cons.mp hnonneg
    have hnew : number ∉ seen := fun hmem ↦
      (List.disjoint_of_nodup_append hnodup) hmem List.mem_cons_self
    rw [firstFault, if_neg (not_or.mpr ⟨hfirst.not_gt, hnew⟩)]
    exact ih hrest (by rwa [List.append_assoc])

/-- **Rows are accepted** exactly when some order numbers them from zero, and this order is what is
returned. -/
theorem ordered_eq_ok_iff :
    ordered number rows = .ok result ↔
      result.Perm rows ∧ result.map number = positions rows.length := by
  constructor
  · intro hresult
    rw [ordered] at hresult
    split at hresult
    · cases hresult
    · split at hresult
      next hnumbers =>
        cases hresult
        exact ⟨perm_ranked number rows, hnumbers⟩
      · cases hresult
  · rintro ⟨hperm, hnumbers⟩
    have hkeys : (result.map number).Nodup := hnumbers ▸ nodup_positions _
    have hrows : (rows.map number).Perm (positions rows.length) :=
      hnumbers ▸ (hperm.map number).symm
    have hsorted : (ranked number rows) = result := by
      rw [← ranked_eq_of_perm hkeys hperm, ranked]
      have hpairwise : (result.map number).Pairwise (· ≤ ·) := by
        rw [hnumbers]
        exact (pairwise_positions _).imp fun hlt ↦ hlt.le
      exact List.Pairwise.insertionSort_eq (List.pairwise_map.mp hpairwise)
    have hnone : firstFault [] (rows.map number) = none :=
      firstFault_eq_none (fun position hmem ↦ nonneg_of_mem_positions (hrows.mem_iff.mp hmem))
        (hrows.nodup_iff.mpr (nodup_positions _))
    simp only [ordered, hnone, hsorted, if_pos hnumbers]

/-- So the ranking is the order that is returned. -/
theorem ordered_eq_ok_iff_numbered :
    ordered number rows = .ok result ↔ Numbered number rows ∧ result = ranked number rows := by
  have hranked : Numbered number rows → ordered number rows = .ok (ranked number rows) := by
    intro hnumbered
    have hsorted : ((ranked number rows).map number).Pairwise (· ≤ ·) :=
      List.pairwise_map.mpr (pairwise_ranked number rows)
    refine ordered_eq_ok_iff.mpr ⟨perm_ranked number rows, ?_⟩
    refine List.Perm.eq_of_pairwise (fun _ _ _ _ hle hge ↦ le_antisymm hle hge) hsorted
      ((pairwise_positions _).imp fun hlt ↦ hlt.le) ?_
    exact ((perm_ranked number rows).map number).trans hnumbered
  constructor
  · intro hresult
    obtain ⟨hperm, hnumbers⟩ := ordered_eq_ok_iff.mp hresult
    have hnumbered : Numbered number rows := by
      rw [Numbered, ← hnumbers]
      exact (hperm.map number).symm
    exact ⟨hnumbered, Except.ok.inj (hresult.symm.trans (hranked hnumbered))⟩
  · rintro ⟨hnumbered, rfl⟩
    exact hranked hnumbered

theorem Numbered.congr {rows' : List α} (hperm : rows.Perm rows') :
    Numbered number rows ↔ Numbered number rows' := by
  rw [Numbered, Numbered, hperm.length_eq]
  exact ⟨fun hnumbered ↦ ((hperm.map number).symm).trans hnumbered, fun hnumbered ↦
    (hperm.map number).trans hnumbered⟩

/-- The order of the rows does not matter. -/
theorem ordered_congr {rows' : List α} (hperm : rows.Perm rows') :
    ordered number rows = .ok result ↔ ordered number rows' = .ok result := by
  rw [ordered_eq_ok_iff, ordered_eq_ok_iff, hperm.length_eq]
  exact and_congr_left fun _ ↦ ⟨fun hresult ↦ hresult.trans hperm, fun hresult ↦
    hresult.trans hperm.symm⟩

/-! ### Storing a sequence -/

/-- The rows of a sequence: every item with its position. -/
def enumerate (row : ℤ → β → α) (items : List β) : List α :=
  items.zipIdx.map fun entry ↦ row entry.2 entry.1

variable {row : ℤ → β → α} {items : List β}

theorem map_enumerate_number (hnumber : ∀ position item, number (row position item) = position) :
    (enumerate row items).map number = positions items.length := by
  rw [enumerate, List.map_map, positions, List.range_eq_range', ← List.zipIdx_map_snd 0 items,
    List.map_map]
  exact List.map_congr_left fun entry _ ↦ hnumber _ _

theorem map_enumerate {γ : Type} {value : α → γ} {read : β → γ}
    (hvalue : ∀ position item, value (row position item) = read item) :
    (enumerate row items).map value = items.map read := by
  rw [enumerate, List.map_map]
  calc items.zipIdx.map (value ∘ fun entry ↦ row entry.2 entry.1)
      = items.zipIdx.map (read ∘ Prod.fst) := List.map_congr_left fun entry _ ↦ hvalue _ _
    _ = items.map read := by rw [← List.map_map, List.zipIdx_map_fst]

theorem exists_of_mem_enumerate {found : α} (hfound : found ∈ enumerate row items) :
    ∃ position item, row position item = found := by
  obtain ⟨entry, -, hentry⟩ := List.mem_map.mp hfound
  exact ⟨_, _, hentry⟩

@[simp] theorem length_enumerate : (enumerate row items).length = items.length := by
  simp [enumerate]

/-- **A sequence is restored** from its rows in whatever order they come back. -/
theorem ordered_of_perm (hnumber : ∀ position item, number (row position item) = position)
    (hperm : rows.Perm (enumerate row items)) :
    ordered number rows = .ok (enumerate row items) := by
  refine (ordered_congr hperm).mpr (ordered_eq_ok_iff.mpr ⟨List.Perm.refl _, ?_⟩)
  rw [map_enumerate_number hnumber, length_enumerate]

end DocStore.Foundation
