import Mathlib.Data.List.Nodup

/-!
# Nested openings and closings

A log of openings and closings is read against the stack of what is open. `Nests` says that it opens
nothing that is open already and closes only what was opened last. Logs that nest can be put one
behind the other, and in a nesting log everything is closed as often as it is opened, unless it stays
open (`Nests.count_opened`).
-/

set_option autoImplicit false
set_option relaxedAutoImplicit false

namespace DocStore.Foundation

/-- An opening or a closing. -/
inductive Bracket (α : Type*) where
  | opened (item : α)
  | closed (item : α)
deriving DecidableEq

/-- A log that leads from one stack of open items to another one. -/
inductive Nests {α : Type*} : List α → List (Bracket α) → List α → Prop
  | done (stack : List α) : Nests stack [] stack
  | opened {item : α} {stack final : List α} {log : List (Bracket α)} (hfresh : item ∉ stack)
      (hlog : Nests (item :: stack) log final) : Nests stack (.opened item :: log) final
  | closed {item : α} {stack final : List α} {log : List (Bracket α)}
      (hlog : Nests stack log final) : Nests (item :: stack) (.closed item :: log) final

section Nesting

variable {α : Type*} {stack middle final : List α} {first second : List (Bracket α)}

theorem Nests.append (hfirst : Nests stack first middle) (hsecond : Nests middle second final) :
    Nests stack (first ++ second) final := by
  induction hfirst with
  | done => exact hsecond
  | opened hfresh _ ih => exact .opened hfresh (ih hsecond)
  | closed _ ih => exact .closed (ih hsecond)

/-- Items that are opened one after the other lie on the stack in reverse. -/
theorem nests_map_opened {items : List α} (hnodup : items.Nodup)
    (hfresh : ∀ item ∈ items, item ∉ stack) :
    Nests stack (items.map .opened) (items.reverse ++ stack) := by
  induction items generalizing stack with
  | nil => exact .done stack
  | cons item items ih =>
    obtain ⟨hitem, hitems⟩ := List.nodup_cons.mp hnodup
    rw [List.map_cons, List.reverse_cons, List.append_assoc]
    refine .opened (hfresh item List.mem_cons_self) (ih hitems fun other hother ↦ ?_)
    rw [List.mem_cons, not_or]
    exact ⟨ne_of_mem_of_not_mem hother hitem, hfresh other (List.mem_cons_of_mem _ hother)⟩

/-- Items that are closed from the top of the stack on are removed from it. -/
theorem nests_map_closed (items stack : List α) :
    Nests (items ++ stack) (items.map .closed) stack := by
  induction items with
  | nil => exact .done stack
  | cons item items ih => exact .closed ih

/-- The openings of an item are its closings and the one that is not closed yet, if there is one. -/
theorem Nests.count_opened [DecidableEq α] (hlog : Nests stack first final) (item : α) :
    first.count (.opened item) + stack.count item =
      first.count (.closed item) + final.count item := by
  induction hlog with
  | done => rfl
  | @opened other stack final log _ _ ih =>
    rw [List.count_cons] at ih
    rw [List.count_cons, List.count_cons_of_ne (by simp)]
    by_cases hsame : other = item
    · subst hsame
      simp only [beq_self_eq_true, if_true] at ih ⊢
      omega
    · simp only [beq_iff_eq, hsame, if_false, Bracket.opened.injEq] at ih ⊢
      omega
  | @closed other stack final log _ ih =>
    rw [List.count_cons_of_ne (by simp), List.count_cons, List.count_cons]
    by_cases hsame : other = item
    · subst hsame
      simp only [beq_self_eq_true, if_true]
      omega
    · simp only [beq_iff_eq, hsame, if_false, Bracket.closed.injEq]
      omega

/-- What is open is open once. -/
theorem Nests.nodup (hlog : Nests stack first final) (hstack : stack.Nodup) : final.Nodup := by
  induction hlog with
  | done => exact hstack
  | opened hfresh _ ih => exact ih (List.nodup_cons.mpr ⟨hfresh, hstack⟩)
  | closed _ ih => exact ih (List.nodup_cons.mp hstack).2

/-- Read from nothing open, a log opens an item once more than it closes it if the item stays open, and
else as often. -/
theorem Nests.count_opened_eq [DecidableEq α] (hlog : Nests [] first final) (item : α) :
    first.count (.opened item) = first.count (.closed item) + if item ∈ final then 1 else 0 := by
  have hcount := hlog.count_opened item
  rw [List.count_nil, Nat.add_zero, (hlog.nodup List.nodup_nil).count] at hcount
  exact hcount

end Nesting

end DocStore.Foundation
