import Mathlib.Data.List.Basic
import Mathlib.Order.Basic
import Mathlib.Order.Nat

/-!
# Slices of a list and the ranges that cut it

A list cut at increasing positions falls apart into pieces which concatenate back to it. `slice`
is the piece between two positions, and `slice_append_slice` glues two neighbours. A list of
ranges is `Ordered` between two positions when the ranges follow one another without running
backwards or overlapping; the gaps in front of the ranges, the slices the ranges cover and the
rest behind the last one then concatenate to the whole slice (`cover_append_slice_lastStop`).
Nothing is assumed about the entries.
-/

set_option autoImplicit false
set_option relaxedAutoImplicit false

namespace DocStore.Foundation

variable {α : Type*}

/-! ### Slices -/

/-- The entries of a list from position `start` up to, and not including, position `stop`. -/
def slice (source : List α) (start stop : ℕ) : List α := (source.drop start).take (stop - start)

@[simp] theorem slice_self (source : List α) (position : ℕ) :
    slice source position position = [] := by
  simp [slice]

@[simp] theorem slice_zero_length (source : List α) : slice source 0 source.length = source := by
  simp [slice]

theorem length_slice (source : List α) (start stop : ℕ) :
    (slice source start stop).length = min (stop - start) (source.length - start) := by
  simp [slice]

/-- A slice inside the list is as long as its range. -/
theorem length_slice_of_le (source : List α) {start stop : ℕ} (hstop : stop ≤ source.length) :
    (slice source start stop).length = stop - start := by
  rw [length_slice]
  omega

/-- A slice behind a position is a slice of the rest. -/
theorem slice_drop (source : List α) (cursor start stop : ℕ) :
    slice (source.drop cursor) start stop = slice source (cursor + start) (cursor + stop) := by
  rw [slice, slice, List.drop_drop, Nat.add_sub_add_left]

theorem slice_cons_succ (entry : α) (source : List α) (start stop : ℕ) :
    slice (entry :: source) (start + 1) (stop + 1) = slice source start stop := by
  rw [slice, slice, List.drop_succ_cons, Nat.succ_sub_succ]

/-- Entries behind the end of a slice do not change it. -/
theorem slice_append_left {source : List α} (later : List α) {start stop : ℕ}
    (hstop : stop ≤ source.length) : slice (source ++ later) start stop = slice source start stop := by
  rcases Nat.le_total start stop with hle | hle
  · rw [slice, slice, List.drop_append_of_le_length (hle.trans hstop),
      List.take_append_of_le_length]
    rw [List.length_drop]
    omega
  · rw [slice, slice, Nat.sub_eq_zero_of_le hle, List.take_zero, List.take_zero]

/-- A slice of a slice, up to the end of it, is a slice of the whole list. -/
theorem slice_slice (source : List α) {start stop first last : ℕ}
    (hlast : last ≤ (slice source start stop).length) :
    slice (slice source start stop) first last = slice source (start + first) (start + last) := by
  rw [length_slice] at hlast
  have hinside : min (last - first) (stop - start - first) = start + last - (start + first) := by
    omega
  rw [slice, slice, List.drop_take, List.drop_drop, List.take_take, hinside, slice]

/-- A list in a list is the slice at its place. -/
theorem slice_middle (front middle back : List α) :
    slice (front ++ (middle ++ back)) front.length (front.length + middle.length) = middle := by
  rw [slice, List.drop_left, Nat.add_sub_cancel_left, List.take_left]

/-- Two slices that meet glue to the slice of the joined range. -/
theorem slice_append_slice (source : List α) {start middle stop : ℕ} (hfirst : start ≤ middle)
    (hsecond : middle ≤ stop) :
    slice source start middle ++ slice source middle stop = slice source start stop := by
  have hsplit : stop - start = (middle - start) + (stop - middle) := by omega
  have hdrop : start + (middle - start) = middle := by omega
  rw [slice, slice, slice, hsplit, List.take_add, List.drop_drop, hdrop]

/-! ### Ordered ranges -/

/-- Ranges that start at `cursor` or later, do not run backwards, do not overlap, and end at
`stop` or earlier. -/
def Ordered : ℕ → List (ℕ × ℕ) → ℕ → Prop
  | cursor, [], stop => cursor ≤ stop
  | cursor, range :: rest, stop => cursor ≤ range.1 ∧ range.1 ≤ range.2 ∧ Ordered range.2 rest stop

/-- The position behind the last range, and `cursor` when there is none. -/
def lastStop : ℕ → List (ℕ × ℕ) → ℕ
  | cursor, [] => cursor
  | _, range :: rest => lastStop range.2 rest

/-- The gap in front of each range followed by the slice of the range, concatenated. -/
def cover (source : List α) : ℕ → List (ℕ × ℕ) → List α
  | _, [] => []
  | cursor, range :: rest =>
    slice source cursor range.1 ++ slice source range.1 range.2 ++ cover source range.2 rest

theorem Ordered.cursor_le_lastStop {cursor stop : ℕ} {ranges : List (ℕ × ℕ)}
    (hordered : Ordered cursor ranges stop) : cursor ≤ lastStop cursor ranges := by
  induction ranges generalizing cursor with
  | nil => exact le_rfl
  | cons range rest ih =>
    obtain ⟨hstart, hrange, hrest⟩ := hordered
    exact (hstart.trans hrange).trans (ih hrest)

theorem Ordered.lastStop_le {cursor stop : ℕ} {ranges : List (ℕ × ℕ)}
    (hordered : Ordered cursor ranges stop) : lastStop cursor ranges ≤ stop := by
  induction ranges generalizing cursor with
  | nil => exact hordered
  | cons range rest ih => exact ih hordered.2.2

/-- Ordered ranges may be allowed to end later. -/
theorem Ordered.mono_stop {cursor stop later : ℕ} {ranges : List (ℕ × ℕ)}
    (hordered : Ordered cursor ranges stop) (hle : stop ≤ later) : Ordered cursor ranges later := by
  induction ranges generalizing cursor with
  | nil => exact le_trans hordered hle
  | cons range rest ih => exact ⟨hordered.1, hordered.2.1, ih hordered.2.2⟩

/-- Ordered ranges may be allowed to start earlier. -/
theorem Ordered.mono_cursor {earlier cursor stop : ℕ} {ranges : List (ℕ × ℕ)}
    (hordered : Ordered cursor ranges stop) (hle : earlier ≤ cursor) :
    Ordered earlier ranges stop := by
  cases ranges with
  | nil => exact le_trans hle hordered
  | cons range rest => exact ⟨hle.trans hordered.1, hordered.2⟩

/-- Ranges ordered up to a position and ranges ordered from it on concatenate. -/
theorem Ordered.append {cursor middle stop : ℕ} {first second : List (ℕ × ℕ)}
    (hfirst : Ordered cursor first middle) (hsecond : Ordered middle second stop) :
    Ordered cursor (first ++ second) stop := by
  induction first generalizing cursor with
  | nil => exact hsecond.mono_cursor hfirst
  | cons range rest ih => exact ⟨hfirst.1, hfirst.2.1, ih hfirst.2.2⟩

/-- Every range of an ordered list lies between the cursor and the stop. -/
theorem Ordered.mem_bounds {cursor stop : ℕ} {ranges : List (ℕ × ℕ)}
    (hordered : Ordered cursor ranges stop) {range : ℕ × ℕ} (hmem : range ∈ ranges) :
    cursor ≤ range.1 ∧ range.1 ≤ range.2 ∧ range.2 ≤ stop := by
  induction ranges generalizing cursor with
  | nil => cases hmem
  | cons head rest ih =>
    obtain ⟨hstart, hhead, hrest⟩ := hordered
    rcases List.mem_cons.mp hmem with rfl | hmem
    · exact ⟨hstart, hhead, hrest.cursor_le_lastStop.trans hrest.lastStop_le⟩
    · obtain ⟨hlow, hrange, hhigh⟩ := ih hrest hmem
      exact ⟨(hstart.trans hhead).trans hlow, hrange, hhigh⟩

/-- A range of an ordered list ends before every later one starts. -/
theorem Ordered.pairwise {cursor stop : ℕ} {ranges : List (ℕ × ℕ)}
    (hordered : Ordered cursor ranges stop) :
    ranges.Pairwise fun first second ↦ first.2 ≤ second.1 := by
  induction ranges generalizing cursor with
  | nil => exact List.Pairwise.nil
  | cons range rest ih =>
    exact List.Pairwise.cons (fun later hlater ↦ (hordered.2.2.mem_bounds hlater).1)
      (ih hordered.2.2)

/-- Moving every range by the same distance keeps ranges ordered. -/
theorem Ordered.shift {cursor stop : ℕ} {ranges : List (ℕ × ℕ)}
    (hordered : Ordered cursor ranges stop) (distance : ℕ) :
    Ordered (distance + cursor) (ranges.map fun range ↦ (distance + range.1, distance + range.2))
      (distance + stop) := by
  induction ranges generalizing cursor with
  | nil => exact Nat.add_le_add_left hordered distance
  | cons range rest ih =>
    obtain ⟨hstart, hrange, hrest⟩ := hordered
    exact ⟨Nat.add_le_add_left hstart distance, Nat.add_le_add_left hrange distance, ih hrest⟩

/-- The gaps, the slices and the rest behind the last range make up the whole. -/
theorem cover_append_slice_lastStop (source : List α) {cursor stop : ℕ} {ranges : List (ℕ × ℕ)}
    (hordered : Ordered cursor ranges stop) :
    cover source cursor ranges ++ slice source (lastStop cursor ranges) stop =
      slice source cursor stop := by
  induction ranges generalizing cursor with
  | nil => rfl
  | cons range rest ih =>
    obtain ⟨hstart, hrange, hrest⟩ := hordered
    have hend : range.2 ≤ stop := hrest.cursor_le_lastStop.trans hrest.lastStop_le
    calc cover source cursor (range :: rest) ++
          slice source (lastStop cursor (range :: rest)) stop
        = slice source cursor range.1 ++ slice source range.1 range.2 ++
            (cover source range.2 rest ++ slice source (lastStop range.2 rest) stop) := by
          simp only [cover, lastStop, List.append_assoc]
      _ = slice source cursor range.2 ++ slice source range.2 stop := by
          rw [ih hrest, slice_append_slice source hstart hrange]
      _ = slice source cursor stop := slice_append_slice source (hstart.trans hrange) hend

end DocStore.Foundation
