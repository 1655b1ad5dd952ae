import Mathlib.Data.List.Basic

/-!
# Parts at offsets

Parts with sizes stand one behind the other. `partAt` looks up the part at an offset by the ends of
the parts: it is the first one that ends behind the offset, and the last one when none does. It is
the part that the offset lies in (`partAt_eq_some_iff`). The same parts may stand in two rows, with a
size each: both rows have the same part at an offset exactly when it lies in one part in both of them
(`exists_partAt_iff`).
-/

set_option autoImplicit false
set_option relaxedAutoImplicit false

namespace DocStore.Foundation

variable {α : Type*}

/-- The size of some parts together. -/
def totalSize (size : α → ℕ) : List α → ℕ
  | [] => 0
  | part :: rest => size part + totalSize size rest

/-- The parts with their ends, one behind the other from a position on. -/
def endsOf (size : α → ℕ) : ℕ → List α → List (α × ℕ)
  | _, [] => []
  | position, part :: rest =>
    (part, position + size part) :: endsOf size (position + size part) rest

/-- The first part that ends behind an offset, or else the last part. -/
def partAt (size : α → ℕ) (offset position : ℕ) (parts : List α) : Option α :=
  (((endsOf size position parts).find? fun entry ↦ offset < entry.2).or
    (endsOf size position parts).getLast?).map Prod.fst

/-- An offset lies in a part of a row, behind the parts before it: it is in front of the end of the
part, or no part follows. -/
structure LiesIn (size : α → ℕ) (offset : ℕ) (before : List α) (part : α) (after : List α) :
    Prop where
  start : totalSize size before ≤ offset
  stop : after = [] ∨ offset < totalSize size before + size part

variable {size first second : α → ℕ} {offset position : ℕ} {parts before after : List α} {part : α}

@[simp] theorem totalSize_append (before after : List α) :
    totalSize size (before ++ after) = totalSize size before + totalSize size after := by
  induction before with
  | nil => rw [List.nil_append, totalSize, Nat.zero_add]
  | cons part rest ih => rw [List.cons_append, totalSize, totalSize, ih, Nat.add_assoc]

theorem totalSize_add (parts : List α) :
    totalSize (fun part ↦ first part + second part) parts =
      totalSize first parts + totalSize second parts := by
  induction parts with
  | nil => rfl
  | cons part rest ih =>
    rw [totalSize, totalSize, totalSize, ih]
    omega

theorem endsOf_eq_nil : endsOf size position parts = [] ↔ parts = [] := by
  cases parts <;> simp [endsOf]

theorem partAt_cons (part : α) (rest : List α) : partAt size offset position (part :: rest) =
    if rest = [] ∨ offset < position + size part then some part
    else partAt size offset (position + size part) rest := by
  rw [partAt, partAt, endsOf, List.find?_cons]
  by_cases hends : offset < position + size part
  · simp [hends]
  · by_cases hrest : rest = []
    · subst hrest
      simp [hends, endsOf]
    · obtain ⟨entry, later, hlater⟩ := List.exists_cons_of_ne_nil (endsOf_eq_nil.not.mpr hrest)
      rw [if_neg (by simp [hrest, hends]), hlater, List.getLast?_cons_cons]
      simp [hends]

/-- **What is looked up is the part that the offset lies in.** -/
theorem partAt_eq_some_iff (hposition : position ≤ offset) :
    partAt size offset position parts = some part ↔ ∃ before after, parts = before ++ part :: after ∧
      position + totalSize size before ≤ offset ∧
        (after = [] ∨ offset < position + totalSize size before + size part) := by
  induction parts generalizing position with
  | nil => simp [partAt, endsOf]
  | cons first rest ih =>
    rw [partAt_cons]
    by_cases hfirst : rest = [] ∨ offset < position + size first
    · rw [if_pos hfirst]
      constructor
      · intro hpart
        obtain rfl := Option.some.inj hpart
        exact ⟨[], rest, rfl, hposition, hfirst⟩
      · rintro ⟨before, after, hparts, hstart, hstop⟩
        cases before with
        | nil => exact congrArg some (List.cons.inj hparts).1
        | cons other before =>
          obtain ⟨rfl, rfl⟩ := List.cons.inj hparts
          rw [totalSize] at hstart
          rcases hfirst with hnil | hends
          · simp at hnil
          · omega
    · rw [if_neg hfirst]
      obtain ⟨hrest, hends⟩ := not_or.mp hfirst
      rw [ih (Nat.le_of_not_lt hends)]
      constructor
      · rintro ⟨before, after, rfl, hstart, hstop⟩
        refine ⟨first :: before, after, rfl, ?_, ?_⟩
        · rwa [totalSize, ← Nat.add_assoc]
        · rwa [totalSize, ← Nat.add_assoc]
      · rintro ⟨before, after, hparts, hstart, hstop⟩
        cases before with
        | nil =>
          obtain ⟨rfl, rfl⟩ := List.cons.inj hparts
          exact absurd hstop hfirst
        | cons other before =>
          obtain ⟨rfl, rfl⟩ := List.cons.inj hparts
          rw [totalSize, ← Nat.add_assoc] at hstart hstop
          exact ⟨before, after, rfl, hstart, hstop⟩

theorem partAt_eq_some_iff_liesIn : partAt size offset 0 parts = some part ↔
    ∃ before after, parts = before ++ part :: after ∧ LiesIn size offset before part after := by
  rw [partAt_eq_some_iff (Nat.zero_le offset)]
  simp only [Nat.zero_add]
  exact exists₂_congr fun before after ↦ and_congr_right fun _ ↦
    ⟨fun ⟨hstart, hstop⟩ ↦ ⟨hstart, hstop⟩, fun hlies ↦ ⟨hlies.start, hlies.stop⟩⟩

theorem mem_of_partAt (hpart : partAt size offset 0 parts = some part) : part ∈ parts := by
  obtain ⟨before, after, rfl, -⟩ := partAt_eq_some_iff_liesIn.mp hpart
  exact List.mem_append_right _ List.mem_cons_self

/-- **Two rows of the same parts have the same part at an offset exactly when the offset lies in one
part in both of them.** -/
theorem exists_partAt_iff (hnodup : parts.Nodup) :
    (∃ part, partAt first offset 0 parts = some part ∧ partAt second offset 0 parts = some part) ↔
      ∃ before part after, parts = before ++ part :: after ∧
        LiesIn first offset before part after ∧ LiesIn second offset before part after := by
  simp only [partAt_eq_some_iff_liesIn]
  constructor
  · rintro ⟨part, ⟨before, after, hparts, hfirst⟩, front, back, hother, hsecond⟩
    rw [hother, List.perm_middle.nodup_iff, List.nodup_cons, List.mem_append, not_or] at hnodup
    obtain ⟨rfl, -, rfl⟩ :=
      (List.append_cons_inj_of_notMem hnodup.1.1 hnodup.1.2).mp (hother.symm.trans hparts)
    exact ⟨front, part, back, hother, hfirst, hsecond⟩
  · rintro ⟨before, part, after, hparts, hfirst, hsecond⟩
    exact ⟨part, ⟨before, after, hparts, hfirst⟩, before, after, hparts, hsecond⟩

end DocStore.Foundation
