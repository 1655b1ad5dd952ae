import DocStore.Domain.Metadata

/-!
# UUIDs as texts

`uuidText` writes the thirty-two hexadecimal digits of a UUID in five groups. Without the hyphens the
digits can be read back (`hexValue_uuidText`), so no two UUIDs have the same text.
-/

set_option autoImplicit false
set_option relaxedAutoImplicit false

namespace DocStore

open Foundation

/-- The number that hexadecimal digits stand for. -/
def hexValue (digits : Text) : ℕ :=
  digits.foldl (fun total digit ↦ total * 16 + (hexDigit digit).getD 0) 0

theorem hexDigit_digitChar {digit : ℕ} (hdigit : digit < 16) :
    hexDigit (Nat.digitChar digit) = some digit := by
  have hall : ∀ digit < 16, hexDigit (Nat.digitChar digit) = some digit := by decide
  exact hall digit hdigit

theorem hexValue_append_singleton (digits : Text) (digit : Char) :
    hexValue (digits ++ [digit]) = hexValue digits * 16 + (hexDigit digit).getD 0 := by
  rw [hexValue, List.foldl_append]
  rfl

/-- The digits of a number are read as this number. -/
theorem hexValue_toDigits (number : ℕ) : hexValue (Nat.toDigits 16 number) = number := by
  induction number using Nat.strongRecOn with
  | ind number ih =>
    rw [Nat.toDigits_eq_if (by decide)]
    split
    next hsmall =>
      rw [← List.nil_append [_], hexValue_append_singleton, hexDigit_digitChar hsmall]
      exact Nat.zero_add number
    next hlarge =>
      have hless : number / 16 < number := Nat.div_lt_self (by omega) (by decide)
      rw [hexValue_append_singleton, ih _ hless,
        hexDigit_digitChar (Nat.mod_lt number (by decide)), Option.getD_some]
      omega

/-- A digit is no hyphen. -/
theorem ne_hyphen_of_mem_toDigits (number : ℕ) :
    ∀ character ∈ Nat.toDigits 16 number, character ≠ '-' := by
  have hall : ∀ digit < 16, Nat.digitChar digit ≠ '-' := by decide
  induction number using Nat.strongRecOn with
  | ind number ih =>
    rw [Nat.toDigits_eq_if (by decide)]
    split
    next hsmall =>
      rintro character hmem
      rw [List.mem_singleton.mp hmem]
      exact hall number hsmall
    next hlarge =>
      have hless : number / 16 < number := Nat.div_lt_self (by omega) (by decide)
      intro character hmem
      rcases List.mem_append.mp hmem with hmem | hmem
      · exact ih _ hless character hmem
      · rw [List.mem_singleton.mp hmem]
        exact hall _ (Nat.mod_lt number (by decide))

theorem hexValue_leftpad (width : ℕ) (digits : Text) :
    hexValue (List.leftpad width '0' digits) = hexValue digits := by
  have hzeros : ∀ count, hexValue (List.replicate count '0' ++ digits) = hexValue digits := by
    intro count
    induction count with
    | zero => rfl
    | succ count ih => exact ih
  exact hzeros _

theorem length_digits_uuid (id : Uuid) :
    (List.leftpad 32 '0' (Nat.toDigits 16 id.toNat)).length = 32 := by
  have hle : (Nat.toDigits 16 id.toNat).length ≤ 32 :=
    (Nat.length_toDigits_le_iff (by decide) (by decide)).mpr id.isLt
  rw [List.length_leftpad]
  exact Nat.max_eq_left hle

/-- Without its hyphens the text is the digits. -/
theorem filter_uuidText (id : Uuid) :
    (uuidText id).filter (fun character ↦ character ≠ '-') =
      List.leftpad 32 '0' (Nat.toDigits 16 id.toNat) := by
  have hlength := length_digits_uuid id
  have hdigits : ∀ character ∈ List.leftpad 32 '0' (Nat.toDigits 16 id.toNat), character ≠ '-' := by
    intro character hmem
    rcases List.mem_append.mp hmem with hmem | hmem
    · rw [(List.mem_replicate.mp hmem).2]
      decide
    · exact ne_hyphen_of_mem_toDigits _ character hmem
  rw [uuidText]
  generalize List.leftpad 32 '0' (Nat.toDigits 16 id.toNat) = digits at hlength hdigits
  have hslice : ∀ start stop, (slice digits start stop).filter (fun character ↦ character ≠ '-') =
      slice digits start stop := by
    intro start stop
    refine List.filter_eq_self.mpr fun character hmem ↦ decide_eq_true (hdigits character ?_)
    exact List.mem_of_mem_drop (List.mem_of_mem_take hmem)
  have hhyphen : ['-'].filter (fun character ↦ character ≠ '-') = [] := by decide
  simp only [List.filter_append, hslice, hhyphen, List.append_nil]
  rw [slice_append_slice digits (by decide) (by decide), slice_append_slice digits (by decide)
    (by decide), slice_append_slice digits (by decide) (by decide), slice_append_slice digits
    (by decide) (by decide), ← hlength, slice_zero_length]

/-- **The digits can be read back.** -/
theorem hexValue_uuidText (id : Uuid) :
    hexValue ((uuidText id).filter fun character ↦ character ≠ '-') = id.toNat := by
  rw [filter_uuidText, hexValue_leftpad, hexValue_toDigits]

/-- Different UUIDs have different texts. -/
theorem uuidText_injective : Function.Injective uuidText := by
  intro first second hsame
  have hvalue := hexValue_uuidText first
  rw [hsame, hexValue_uuidText] at hvalue
  exact BitVec.eq_of_toNat_eq hvalue.symm

/-! ### Parsing the text -/

/-- A word is not removed from a text that its first character is not in. -/
theorem removeWord_eq_self {first : Char} {word text : Text}
    (habsent : ∀ character ∈ text, character ≠ first) :
    removeWord (first :: word) 0 text = text := by
  induction text with
  | nil => rfl
  | cons character rest ih =>
    obtain ⟨hcharacter, hrest⟩ := List.forall_mem_cons.mp habsent
    have hprefix : (first :: word).isPrefixOf (character :: rest) = false := by
      simp [List.isPrefixOf, hcharacter.symm]
    rw [removeWord, hprefix, if_neg Bool.false_ne_true, ih hrest]

theorem mapM_hexDigit {digits : Text}
    (hdigits : ∀ character ∈ digits, (hexDigit character).isSome = true) :
    digits.mapM hexDigit = some (digits.map fun character ↦ (hexDigit character).getD 0) := by
  induction digits with
  | nil => rfl
  | cons character rest ih =>
    obtain ⟨hcharacter, hrest⟩ := List.forall_mem_cons.mp hdigits
    obtain ⟨value, hvalue⟩ := Option.isSome_iff_exists.mp hcharacter
    rw [List.mapM_cons, ih hrest, hvalue, List.map_cons, hvalue]
    rfl

/-- What a character of the digits of a UUID is. -/
theorem mem_digits_uuid (id : Uuid) :
    ∀ character ∈ List.leftpad 32 '0' (Nat.toDigits 16 id.toNat),
      ∃ digit < 16, character = Nat.digitChar digit := by
  intro character hmem
  rcases List.mem_append.mp hmem with hmem | hmem
  · exact ⟨0, by decide, (List.mem_replicate.mp hmem).2⟩
  · revert hmem
    induction id.toNat using Nat.strongRecOn with
    | ind number ih =>
      rw [Nat.toDigits_eq_if (by decide)]
      split
      next hsmall =>
        intro hmem
        exact ⟨number, hsmall, List.mem_singleton.mp hmem⟩
      next hlarge =>
        intro hmem
        rcases List.mem_append.mp hmem with hmem | hmem
        · exact ih _ (Nat.div_lt_self (by omega) (by decide)) hmem
        · exact ⟨_, Nat.mod_lt number (by decide), List.mem_singleton.mp hmem⟩

/-- What a character of the text of a UUID is. -/
theorem mem_uuidText {id : Uuid} {character : Char} (hmem : character ∈ uuidText id) :
    character = '-' ∨ ∃ digit < 16, character = Nat.digitChar digit := by
  have hslice : ∀ start stop,
      character ∈ slice (List.leftpad 32 '0' (Nat.toDigits 16 id.toNat)) start stop →
        ∃ digit < 16, character = Nat.digitChar digit := by
    intro start stop hmem
    exact mem_digits_uuid id character (List.mem_of_mem_drop (List.mem_of_mem_take hmem))
  rw [uuidText] at hmem
  simp only [List.mem_append, List.mem_singleton] at hmem
  rcases hmem with (((((((hmem | hmem) | hmem) | hmem) | hmem) | hmem) | hmem) | hmem) | hmem
  all_goals first | exact .inl hmem | exact .inr (hslice _ _ hmem)

/-- **The text of a UUID is parsed as this UUID.** -/
theorem parseUuid_uuidText (id : Uuid) : parseUuid (uuidText id) = some id := by
  have hletters : ∀ character ∈ uuidText id, character ≠ 'u' ∧
      (character = '{' || character = '}') = false ∧
      (character ≠ '-' → (hexDigit character).isSome = true) := by
    have hall : ∀ digit < 16, Nat.digitChar digit ≠ 'u' ∧
        (Nat.digitChar digit = '{' || Nat.digitChar digit = '}') = false ∧
        (hexDigit (Nat.digitChar digit)).isSome = true := by decide
    intro character hmem
    rcases mem_uuidText hmem with rfl | ⟨digit, hdigit, rfl⟩
    · decide
    · obtain ⟨hletter, hbrace, hvalue⟩ := hall digit hdigit
      exact ⟨hletter, hbrace, fun _ ↦ hvalue⟩
  have hword : ∀ word, removeWord ('u' :: word) 0 (uuidText id) = uuidText id := fun word ↦
    removeWord_eq_self fun character hmem ↦ (hletters character hmem).1
  have hbare : removeWord (lit "uuid:") 0 (removeWord (lit "urn:") 0 (uuidText id)) =
      uuidText id := by
    show removeWord ('u' :: lit "uid:") 0 (removeWord ('u' :: lit "rn:") 0 (uuidText id)) = _
    rw [hword, hword]
  have hbrace : ∀ character ∈ uuidText id,
      (decide (character = '{') || decide (character = '}')) = false := fun character hmem ↦
    (hletters character hmem).2.1
  have hfront : ((uuidText id).dropWhile fun character ↦ character = '{' || character = '}') =
      uuidText id := by
    refine List.dropWhile_eq_self_iff.mpr fun hne ↦ ?_
    simp [hbrace _ (List.getElem_mem hne)]
  have hback : ((uuidText id).rdropWhile fun character ↦ character = '{' || character = '}') =
      uuidText id := by
    refine List.rdropWhile_eq_self_iff.mpr fun hne ↦ ?_
    simp [hbrace _ (List.getLast_mem hne)]
  have hdigits : ∀ character ∈ (uuidText id).filter fun character ↦ character ≠ '-',
      (hexDigit character).isSome = true := by
    intro character hmem
    obtain ⟨hmem, hne⟩ := List.mem_filter.mp hmem
    exact (hletters character hmem).2.2 (of_decide_eq_true hne)
  have hlength : ((uuidText id).filter fun character ↦ character ≠ '-').length = 32 := by
    rw [filter_uuidText, length_digits_uuid]
  have hvalue := hexValue_uuidText id
  rw [parseUuid]
  rw [hbare, hfront, hback, if_pos hlength, mapM_hexDigit hdigits]
  show some (BitVec.ofNat 128 (List.foldl _ 0 (List.map _ _))) = _
  rw [List.foldl_map, ← hexValue, hvalue, BitVec.ofNat_toNat, BitVec.setWidth_eq]

end DocStore
