import Mathlib.Data.List.Basic

/-!
# Texts made of slots

A slot is a piece of text with the gap in front of it. Slots in a row are joined to one text, where
the gap of the first slot is left out: it belongs to what comes before. When one slot is replaced,
taken out or put in, the joined text stays the same exactly when the share of that place does
(`joinSlots_replace_iff`).
-/

set_option autoImplicit false
set_option relaxedAutoImplicit false

namespace DocStore.Foundation

variable {α : Type*}

/-- A piece of text and the gap in front of it. -/
structure Slot (α : Type*) where
  gap : List α
  text : List α

/-- The text that follows a slot: every further slot with its gap. -/
def followingSlots (slots : List (Slot α)) : List α :=
  slots.flatMap fun slot ↦ slot.gap ++ slot.text

/-- The joined text of some slots, without the gap in front of the first one. -/
def joinSlots : List (Slot α) → List α
  | [] => []
  | slot :: rest => slot.text ++ followingSlots rest

/-- What a place between slots contributes to the joined text: its slot with the gap in front, or
behind when no slot is in front of it. -/
def share (before after : List (Slot α)) : Option (Slot α) → List α
  | none => []
  | some slot =>
    if before.isEmpty then slot.text ++ (after.head?.map Slot.gap).getD []
    else slot.gap ++ slot.text

@[simp] theorem followingSlots_append (first second : List (Slot α)) :
    followingSlots (first ++ second) = followingSlots first ++ followingSlots second :=
  List.flatMap_append

theorem joinSlots_append_of_ne_nil {before : List (Slot α)} (hbefore : before ≠ [])
    (after : List (Slot α)) :
    joinSlots (before ++ after) = joinSlots before ++ followingSlots after := by
  cases before with
  | nil => exact absurd rfl hbefore
  | cons slot rest =>
    rw [List.cons_append, joinSlots, joinSlots, followingSlots_append, List.append_assoc]

/-- The gap in front of the first slot is all that following it adds. -/
theorem followingSlots_eq (slots : List (Slot α)) :
    followingSlots slots = (slots.head?.map Slot.gap).getD [] ++ joinSlots slots := by
  cases slots with
  | nil => rfl
  | cons slot rest => simp [followingSlots, joinSlots]

/-- The joined text around a place. -/
theorem joinSlots_eq (before after : List (Slot α)) (slot : Option (Slot α)) :
    joinSlots (before ++ slot.toList ++ after) =
      joinSlots before ++ share before after slot ++
        if before.isEmpty then joinSlots after else followingSlots after := by
  cases before with
  | nil =>
    cases slot with
    | none => simp [share, joinSlots]
    | some slot =>
      show slot.text ++ followingSlots after =
        slot.text ++ (after.head?.map Slot.gap).getD [] ++ joinSlots after
      rw [followingSlots_eq, List.append_assoc]
  | cons first rest =>
    have hne : first :: rest ++ slot.toList ≠ [] := by simp
    rw [joinSlots_append_of_ne_nil hne, joinSlots_append_of_ne_nil (List.cons_ne_nil first rest)]
    cases slot with
    | none => simp [share, followingSlots]
    | some slot => simp [share, followingSlots]

/-- **The joined text stays the same exactly when the share of the replaced slot does.** -/
theorem joinSlots_replace_iff (before after : List (Slot α)) (old new : Option (Slot α)) :
    joinSlots (before ++ new.toList ++ after) = joinSlots (before ++ old.toList ++ after) ↔
      share before after new = share before after old := by
  rw [joinSlots_eq, joinSlots_eq, List.append_left_inj, List.append_right_inj]

end DocStore.Foundation
