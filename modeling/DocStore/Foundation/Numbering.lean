import Mathlib.Order.Basic
import Mathlib.Order.Nat
import Mathlib.Data.List.Basic

/-!
# Numbers that are handed out one after the other

The next number is one more than the largest of the numbers in use, and `1` when there are none.
Rows that carry numbers keep their meaning as long as the largest number is never given back:
`next_le_of_subset` is that the next number only grows then.
-/

set_option autoImplicit false
set_option relaxedAutoImplicit false

namespace DocStore.Foundation

/-- `COALESCE(MAX(number), 0) + 1`. -/
def nextNumber (numbers : List ℕ) : ℕ := numbers.foldl max 0 + 1

theorem foldl_max_le_iff {numbers : List ℕ} {start bound : ℕ} :
    numbers.foldl max start ≤ bound ↔ start ≤ bound ∧ ∀ number ∈ numbers, number ≤ bound := by
  induction numbers generalizing start with
  | nil => simp
  | cons number rest ih => rw [List.foldl_cons, ih, Nat.max_le, and_assoc, List.forall_mem_cons]

/-- A bound of the next number is a bound of all numbers. -/
theorem nextNumber_le_iff {numbers : List ℕ} {bound : ℕ} :
    nextNumber numbers ≤ bound + 1 ↔ ∀ number ∈ numbers, number ≤ bound := by
  rw [nextNumber, Nat.add_le_add_iff_right, foldl_max_le_iff]
  simp

theorem lt_nextNumber {numbers : List ℕ} {number : ℕ} (hmem : number ∈ numbers) :
    number < nextNumber numbers :=
  Nat.lt_succ_of_le (nextNumber_le_iff.mp le_rfl number hmem)

/-- The next number is `1` or follows a number that is there. -/
theorem nextNumber_eq (numbers : List ℕ) :
    nextNumber numbers = 1 ∨ ∃ number ∈ numbers, nextNumber numbers = number + 1 := by
  by_contra hnot
  obtain ⟨hone, hnone⟩ := not_or.mp hnot
  obtain ⟨previous, hprevious⟩ : ∃ previous, nextNumber numbers = previous + 1 + 1 := by
    refine ⟨nextNumber numbers - 2, ?_⟩
    have hpos : 0 < nextNumber numbers := Nat.succ_pos _
    omega
  have hbound : nextNumber numbers ≤ previous + 1 := nextNumber_le_iff.mpr fun number hmem ↦ by
    have hlt := lt_nextNumber hmem
    have hne : nextNumber numbers ≠ number + 1 := fun heq ↦ hnone ⟨number, hmem, heq⟩
    omega
  omega

/-- The next number does not shrink when the largest number stays. -/
theorem nextNumber_mono {numbers later : List ℕ}
    (hkept : ∀ number ∈ numbers, nextNumber numbers = number + 1 → number ∈ later) :
    nextNumber numbers ≤ nextNumber later := by
  rcases nextNumber_eq numbers with hone | ⟨number, hmem, hlargest⟩
  · exact hone.trans_le (Nat.succ_pos _)
  · exact hlargest.trans_le (lt_nextNumber (hkept number hmem hlargest))

end DocStore.Foundation
