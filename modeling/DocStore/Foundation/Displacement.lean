import DocStore.Foundation.Numbering
import Mathlib.Algebra.Order.Ring.Nat
import Mathlib.Data.List.Nodup

/-!
# Places that are given up for the newest entry

The newest entry takes the first place, and the ones that are there move behind the largest place.
Every entry moves all earlier ones by the whole length in use, so the length doubles:
`nextNumber_placesAfter` is the exact growth, and `placesAfter_fit_iff` says how many entries fit
below a bound.
-/

set_option autoImplicit false
set_option relaxedAutoImplicit false

namespace DocStore.Foundation

/-- The places in use after one more entry: the old ones move behind the largest, and the first one
is taken. -/
def displaced (places : List ℕ) : List ℕ :=
  places.map (fun place ↦ place + nextNumber places) ++ [0]

/-- The places in use after a number of entries, the oldest first. -/
def placesAfter : ℕ → List ℕ
  | 0 => []
  | count + 1 => displaced (placesAfter count)

theorem nodup_displaced {places : List ℕ} (hplaces : places.Nodup) : (displaced places).Nodup := by
  refine List.nodup_append.mpr ⟨hplaces.map (add_left_injective _), List.nodup_singleton 0, ?_⟩
  intro moved hmoved first hfirst
  obtain ⟨place, -, rfl⟩ := List.mem_map.mp hmoved
  rw [List.mem_singleton.mp hfirst]
  exact Nat.ne_of_gt (Nat.add_pos_right place (Nat.succ_pos _))

/-- Entries never share a place. -/
theorem nodup_placesAfter (count : ℕ) : (placesAfter count).Nodup := by
  induction count with
  | zero => exact List.nodup_nil
  | succ count ih => exact nodup_displaced ih

/-- Each further entry doubles the length in use. -/
theorem nextNumber_displaced {places : List ℕ} (hplaces : places ≠ []) :
    nextNumber (displaced places) = 2 * nextNumber places := by
  have hpos : 0 < nextNumber places := Nat.succ_pos _
  obtain ⟨number, hmem, hnumber⟩ : ∃ number ∈ places, nextNumber places = number + 1 := by
    rcases nextNumber_eq places with hone | hlargest
    · obtain ⟨place, hplace⟩ := List.exists_mem_of_ne_nil places hplaces
      have hlt := lt_nextNumber hplace
      exact ⟨place, hplace, by omega⟩
    · exact hlargest
  refine le_antisymm ?_ ?_
  · obtain ⟨bound, hbound⟩ := Nat.exists_eq_succ_of_ne_zero (Nat.ne_of_gt (Nat.mul_pos two_pos hpos))
    rw [hbound]
    refine nextNumber_le_iff.mpr fun place hplace ↦ ?_
    rcases List.mem_append.mp hplace with hmoved | hfirst
    · obtain ⟨old, hold, rfl⟩ := List.mem_map.mp hmoved
      have hlt := lt_nextNumber hold
      omega
    · rw [List.mem_singleton.mp hfirst]
      exact Nat.zero_le bound
  · have hmoved : number + nextNumber places ∈ displaced places :=
      List.mem_append_left _ (List.mem_map_of_mem hmem)
    have hlt := lt_nextNumber hmoved
    omega

theorem placesAfter_succ_ne_nil (count : ℕ) : placesAfter (count + 1) ≠ [] :=
  List.append_ne_nil_of_right_ne_nil _ (List.cons_ne_nil 0 [])

/-- **The exact growth.** -/
theorem nextNumber_placesAfter (count : ℕ) : nextNumber (placesAfter (count + 1)) = 2 ^ count := by
  induction count with
  | zero => rfl
  | succ count ih =>
    calc nextNumber (displaced (placesAfter (count + 1)))
        = 2 * nextNumber (placesAfter (count + 1)) :=
          nextNumber_displaced (placesAfter_succ_ne_nil count)
      _ = 2 ^ (count + 1) := by rw [ih, pow_succ, Nat.mul_comm]

/-- How many entries fit below a bound. -/
theorem placesAfter_fit_iff {count bound : ℕ} :
    (∀ place ∈ placesAfter (count + 1), place ≤ bound) ↔ 2 ^ count ≤ bound + 1 := by
  rw [← nextNumber_le_iff, nextNumber_placesAfter]

/-- Whether the entries that are there can be moved once more. -/
theorem displacement_fits_iff {count bound : ℕ} :
    (∀ place ∈ placesAfter count, place + nextNumber (placesAfter count) ≤ bound) ↔
      count = 0 ∨ 2 ^ count ≤ bound + 1 := by
  cases count with
  | zero => simp [placesAfter]
  | succ count =>
    have hmoved : (∀ place ∈ placesAfter (count + 1),
        place + nextNumber (placesAfter (count + 1)) ≤ bound) ↔
          ∀ place ∈ placesAfter (count + 2), place ≤ bound := by
      refine ⟨fun hfit place hplace ↦ ?_, fun hfit place hplace ↦ ?_⟩
      · rcases List.mem_append.mp hplace with hmoved | hfirst
        · obtain ⟨old, hold, rfl⟩ := List.mem_map.mp hmoved
          exact hfit old hold
        · rw [List.mem_singleton.mp hfirst]
          exact Nat.zero_le bound
      · exact hfit _ (List.mem_append_left _ (List.mem_map_of_mem hplace))
    rw [hmoved, placesAfter_fit_iff]
    exact (or_iff_right (Nat.succ_ne_zero count)).symm

end DocStore.Foundation
