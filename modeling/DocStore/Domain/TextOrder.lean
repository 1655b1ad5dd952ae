import DocStore.Domain.Strings
import Mathlib.Order.Defs.LinearOrder

/-!
# The order of Python strings

Strings are compared by the code points of their characters, at the first place at which they differ,
and a string is in front of those that it begins. A `TextKey` is a string as a key to sort by.
-/

set_option autoImplicit false
set_option relaxedAutoImplicit false

namespace DocStore

/-- `first <= second`. -/
def textLe : Text → Text → Bool
  | [], _ => true
  | _ :: _, [] => false
  | first :: firsts, second :: seconds =>
    first.toNat < second.toNat || first.toNat = second.toNat && textLe firsts seconds

theorem textLe_refl (text : Text) : textLe text text = true := by
  induction text with
  | nil => rfl
  | cons character rest ih => simp [textLe, ih]

theorem textLe_trans {first second third : Text} (hfirst : textLe first second = true)
    (hsecond : textLe second third = true) : textLe first third = true := by
  induction first generalizing second third with
  | nil => rfl
  | cons character rest ih =>
    cases second with
    | nil => cases hfirst
    | cons other others =>
      cases third with
      | nil => cases hsecond
      | cons last lasts =>
        simp only [textLe, Bool.or_eq_true, Bool.and_eq_true, decide_eq_true_eq] at *
        rcases hfirst with hlt | ⟨heq, hrest⟩
        · rcases hsecond with hlt' | ⟨heq', -⟩
          · exact .inl (hlt.trans hlt')
          · exact .inl (heq' ▸ hlt)
        · rcases hsecond with hlt' | ⟨heq', hrest'⟩
          · exact .inl (heq.symm ▸ hlt')
          · exact .inr ⟨heq.trans heq', ih hrest hrest'⟩

theorem textLe_antisymm {first second : Text} (hfirst : textLe first second = true)
    (hsecond : textLe second first = true) : first = second := by
  induction first generalizing second with
  | nil =>
    cases second with
    | nil => rfl
    | cons other others => cases hsecond
  | cons character rest ih =>
    cases second with
    | nil => cases hfirst
    | cons other others =>
      simp only [textLe, Bool.or_eq_true, Bool.and_eq_true, decide_eq_true_eq] at *
      rcases hfirst with hlt | ⟨heq, hrest⟩
      · omega
      · rcases hsecond with hlt | ⟨-, hrest'⟩
        · omega
        · rw [ih hrest hrest', Char.toNat_inj.mp heq]

theorem textLe_total (first second : Text) :
    textLe first second = true ∨ textLe second first = true := by
  induction first generalizing second with
  | nil => exact .inl rfl
  | cons character rest ih =>
    cases second with
    | nil => exact .inr rfl
    | cons other others =>
      simp only [textLe, Bool.or_eq_true, Bool.and_eq_true, decide_eq_true_eq]
      rcases Nat.lt_trichotomy character.toNat other.toNat with hlt | heq | hgt
      · exact .inl (.inl hlt)
      · exact (ih others).imp (fun hrest ↦ .inr ⟨heq, hrest⟩) fun hrest ↦ .inr ⟨heq.symm, hrest⟩
      · exact .inr (.inl hgt)

/-- A string as a key to sort by. -/
structure TextKey where
  text : Text

instance textKeyLinearOrder : LinearOrder TextKey where
  le first second := textLe first.text second.text = true
  le_refl key := textLe_refl key.text
  le_trans _ _ _ := textLe_trans
  le_antisymm first second hfirst hsecond := by
    cases first
    cases second
    exact congrArg TextKey.mk (textLe_antisymm hfirst hsecond)
  le_total first second := textLe_total first.text second.text
  toDecidableLE first second := inferInstanceAs (Decidable (textLe first.text second.text = true))

end DocStore
