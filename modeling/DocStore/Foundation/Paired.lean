import Mathlib.Data.Int.Notation
import Mathlib.Data.List.Forall2

/-!
# Lists related entry by entry

When two lists are related entry by entry, each entry has a counterpart in the other list, at the
same position, and readings that agree on related entries give the same list.
-/

set_option autoImplicit false
set_option relaxedAutoImplicit false

namespace DocStore.Foundation

variable {α β γ : Type} {fits : α → β → Prop} {first : List α} {second : List β}

/-- What a result is related to. -/
theorem exists_of_forall₂_right (hall : List.Forall₂ fits first second) {result : β}
    (hresult : result ∈ second) : ∃ entry ∈ first, fits entry result := by
  induction hall with
  | nil => cases hresult
  | cons hfits _ ih =>
    rcases List.mem_cons.mp hresult with rfl | hresult
    · exact ⟨_, List.mem_cons_self, hfits⟩
    · obtain ⟨entry, hentry, hfits⟩ := ih hresult
      exact ⟨entry, List.mem_cons_of_mem _ hentry, hfits⟩

/-- What an entry is related to. -/
theorem exists_of_forall₂_left (hall : List.Forall₂ fits first second) {entry : α}
    (hentry : entry ∈ first) : ∃ result ∈ second, fits entry result :=
  exists_of_forall₂_right hall.flip hentry

/-- What a result at a position is related to. -/
theorem forall₂_getElem?_eq_some (hall : List.Forall₂ fits first second) {position : ℕ} {result : β}
    (hresult : second[position]? = some result) :
    ∃ entry, first[position]? = some entry ∧ fits entry result := by
  induction hall generalizing position with
  | nil => simp at hresult
  | cons hfits _ ih =>
    cases position with
    | zero =>
      obtain rfl := Option.some.inj hresult
      exact ⟨_, rfl, hfits⟩
    | succ position => exact ih hresult

/-- Two relations in a row. -/
theorem forall₂_trans {fits' : β → γ → Prop} {third : List γ} (hfirst : List.Forall₂ fits first second)
    (hsecond : List.Forall₂ fits' second third) :
    List.Forall₂ (fun entry result ↦ ∃ middle, fits entry middle ∧ fits' middle result) first
      third := by
  induction hfirst generalizing third with
  | nil =>
    cases hsecond
    exact .nil
  | cons hfits _ ih =>
    cases hsecond with
    | cons hfits' hrest => exact .cons ⟨_, hfits, hfits'⟩ (ih hrest)

/-- Readings that agree on related entries give the same list. -/
theorem map_eq_map_of_forall₂ {read : α → γ} {read' : β → γ} (hall : List.Forall₂ fits first second)
    (hfits : ∀ entry ∈ first, ∀ result, fits entry result → read' result = read entry) :
    second.map read' = first.map read := by
  induction hall with
  | nil => rfl
  | cons hfirst _ ih =>
    obtain ⟨hentry, hrest⟩ := List.forall_mem_cons.mp hfits
    rw [List.map_cons, List.map_cons, hentry _ hfirst, ih hrest]

/-! ### Blocks numbered through -/

section Blocks

variable {ω : Type} {blocks : List ω} {indexes : ω → List ℤ} {items : ω → List β} {count : ℕ}

/-- Where the indexes of all blocks are the positions of their items, an index of a block is the
position of the item beside it. -/
theorem getElem?_flatMap_of_numbered
    (hlength : ∀ block ∈ blocks, (indexes block).length = (items block).length)
    (hnumbered : blocks.flatMap indexes = (List.range count).map Int.ofNat) {block : ω}
    (hblock : block ∈ blocks) {index : ℤ} {item : β}
    (hmem : (index, item) ∈ (indexes block).zip (items block)) :
    (blocks.flatMap items)[index.toNat]? = some item := by
  have hindexes : (blocks.flatMap fun block ↦ (indexes block).zip (items block)).map Prod.fst =
      (List.range count).map Int.ofNat := by
    rw [← hnumbered, List.map_flatMap]
    refine List.flatMap_congr fun block hblock ↦ ?_
    rw [List.map_fst_zip (Nat.le_of_eq (hlength block hblock))]
  have hitems : (blocks.flatMap fun block ↦ (indexes block).zip (items block)).map Prod.snd =
      blocks.flatMap items := by
    rw [List.map_flatMap]
    refine List.flatMap_congr fun block hblock ↦ ?_
    rw [List.map_snd_zip (Nat.le_of_eq (hlength block hblock).symm)]
  have hpair : (index, item) ∈ blocks.flatMap fun block ↦ (indexes block).zip (items block) :=
    List.mem_flatMap.mpr ⟨block, hblock, hmem⟩
  obtain ⟨position, hposition⟩ := List.mem_iff_getElem?.mp hpair
  have hindex : ((List.range count).map Int.ofNat)[position]? = some index := by
    rw [← hindexes, List.getElem?_map, hposition]
    rfl
  obtain ⟨hless, hvalue⟩ := List.getElem?_eq_some_iff.mp hindex
  rw [List.getElem_map, List.getElem_range] at hvalue
  rw [← hvalue, Int.ofNat_eq_natCast, Int.toNat_natCast, ← hitems, List.getElem?_map, hposition]
  rfl

end Blocks

end DocStore.Foundation
