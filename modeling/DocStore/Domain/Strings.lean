import DocStore.Foundation.Slices
import Mathlib.Data.List.SplitBy
import Mathlib.Data.List.DropRight

/-!
# Python strings

A Python string is the list of its code points, so positions, lengths and slices count code
points. `strip`, `splitWords` and `find` are `str.strip`, `str.split` without a separator and
`str.find` with a start position; `searchWords` is `re.search` for the pattern that joins escaped
words by `\s+`. What a search returns is a range of the searched text, which is all the chunk
validation needs of it (`find_bounds`, `searchWords_bounds`).
-/

set_option autoImplicit false
set_option relaxedAutoImplicit false

namespace DocStore

open Foundation

/-- A Python string. -/
abbrev Text := List Char

/-- The text of a string literal. -/
def lit (literal : String) : Text := literal.toList

/-- `str.isspace` of one character, the class that `strip`, `split` and `\s` share. -/
def isSpace (character : Char) : Bool :=
  let code := character.toNat
  (9 ≤ code && code ≤ 13) || (28 ≤ code && code ≤ 32) || code = 0x85 || code = 0xA0 ||
    code = 0x1680 || (0x2000 ≤ code && code ≤ 0x200A) || code = 0x2028 || code = 0x2029 ||
    code = 0x202F || code = 0x205F || code = 0x3000

/-- `str.strip()`. -/
def strip (text : Text) : Text := (text.dropWhile isSpace).rdropWhile isSpace

/-- `str.split()`: the words between runs of white space. -/
def splitWords (text : Text) : List Text := (text.splitOnP isSpace).filter fun word ↦ !word.isEmpty

/-! ### Searching -/

/-- The first position at which a candidate occurs. -/
def findFrom (candidate : Text) : Text → Option ℕ
  | [] => if candidate.isEmpty then some 0 else none
  | character :: rest =>
    if candidate.isPrefixOf (character :: rest) then some 0
    else (findFrom candidate rest).map (· + 1)

/-- `source.find(candidate, start)`, with `none` for `-1`. -/
def find (source candidate : Text) (start : ℕ) : Option ℕ :=
  if start ≤ source.length then (findFrom candidate (source.drop start)).map (start + ·) else none

/-- How many white space characters a text starts with. -/
def leadingSpace (text : Text) : ℕ := (text.takeWhile isSpace).length

/-- Matches `\s+word` for each word, one behind the other, at the start of a text and returns the
length matched. A word has no white space in it, so the `\s+` in front of one can only match the
whole run. -/
def matchGapped : List Text → Text → Option ℕ
  | [], _ => some 0
  | word :: words, text =>
    if 0 < leadingSpace text && word.isPrefixOf (text.drop (leadingSpace text)) then
      (matchGapped words (text.drop (leadingSpace text + word.length))).map
        (leadingSpace text + word.length + ·)
    else none

/-- Matches words joined by `\s+` at the start of a text and returns the length matched. -/
def matchWords : List Text → Text → Option ℕ
  | [], _ => some 0
  | word :: words, text =>
    if word.isPrefixOf text then
      (matchGapped words (text.drop word.length)).map (word.length + ·)
    else none

/-- `re.search` for words joined by `\s+`: the range of the leftmost match. -/
def searchWords (words : List Text) : Text → Option (ℕ × ℕ)
  | [] => (matchWords words []).map fun length ↦ (0, length)
  | character :: rest =>
    match matchWords words (character :: rest) with
    | some length => some (0, length)
    | none => (searchWords words rest).map fun range ↦ (range.1 + 1, range.2 + 1)

theorem findFrom_bounds {candidate text : Text} {position : ℕ}
    (hfound : findFrom candidate text = some position) :
    position + candidate.length ≤ text.length := by
  induction text generalizing position with
  | nil =>
    by_cases hempty : candidate.isEmpty
    · simp only [findFrom, hempty, if_true, Option.some.injEq] at hfound
      simp [← hfound, List.isEmpty_iff.mp hempty]
    · simp [findFrom, hempty] at hfound
  | cons character rest ih =>
    rw [findFrom] at hfound
    by_cases hleads : candidate.isPrefixOf (character :: rest)
    · rw [if_pos hleads] at hfound
      have hlength := (List.isPrefixOf_iff_prefix.mp hleads).length_le
      simp only [Option.some.injEq] at hfound
      omega
    · rw [if_neg hleads] at hfound
      obtain ⟨earlier, hearlier, rfl⟩ := Option.map_eq_some_iff.mp hfound
      have := ih hearlier
      simp only [List.length_cons]
      omega

/-- A candidate is found at or behind the start position and inside the source. -/
theorem find_bounds {source candidate : Text} {start position : ℕ}
    (hfound : find source candidate start = some position) :
    start ≤ position ∧ position + candidate.length ≤ source.length := by
  unfold find at hfound
  split at hfound
  · obtain ⟨offset, hoffset, rfl⟩ := Option.map_eq_some_iff.mp hfound
    have hbounds := findFrom_bounds hoffset
    rw [List.length_drop] at hbounds
    omega
  · cases hfound

theorem leadingSpace_le_length (text : Text) : leadingSpace text ≤ text.length :=
  (List.takeWhile_sublist isSpace).length_le

theorem matchGapped_le_length {words : List Text} {text : Text} {length : ℕ}
    (hmatch : matchGapped words text = some length) : length ≤ text.length := by
  induction words generalizing text length with
  | nil =>
    simp only [matchGapped, Option.some.injEq] at hmatch
    omega
  | cons word words ih =>
    rw [matchGapped] at hmatch
    split at hmatch
    next hstart =>
      obtain ⟨rest, hrest, rfl⟩ := Option.map_eq_some_iff.mp hmatch
      have hlength := ih hrest
      simp only [Bool.and_eq_true, List.isPrefixOf_iff_prefix] at hstart
      have hword := hstart.2.length_le
      have hspace := leadingSpace_le_length text
      rw [List.length_drop] at hlength hword
      omega
    next => cases hmatch

theorem matchWords_le_length {words : List Text} {text : Text} {length : ℕ}
    (hmatch : matchWords words text = some length) : length ≤ text.length := by
  cases words with
  | nil =>
    simp only [matchWords, Option.some.injEq] at hmatch
    omega
  | cons word words =>
    rw [matchWords] at hmatch
    split at hmatch
    next hleads =>
      obtain ⟨rest, hrest, rfl⟩ := Option.map_eq_some_iff.mp hmatch
      have hlength := matchGapped_le_length hrest
      have hword := (List.isPrefixOf_iff_prefix.mp hleads).length_le
      rw [List.length_drop] at hlength
      omega
    next => cases hmatch

/-- A match of at least one non-empty word is not empty. -/
theorem matchWords_pos {words : List Text} {text : Text} {length : ℕ} (hwords : words ≠ [])
    (hnonempty : ∀ word ∈ words, word ≠ []) (hmatch : matchWords words text = some length) :
    0 < length := by
  cases words with
  | nil => exact absurd rfl hwords
  | cons word words =>
    have hword : 0 < word.length := List.length_pos_iff.mpr (hnonempty word (by simp))
    rw [matchWords] at hmatch
    split at hmatch
    · obtain ⟨rest, _, rfl⟩ := Option.map_eq_some_iff.mp hmatch
      omega
    · cases hmatch

/-- A match of at least one non-empty word is a non-empty range of the searched text. -/
theorem searchWords_bounds {words : List Text} {text : Text} {range : ℕ × ℕ} (hwords : words ≠ [])
    (hnonempty : ∀ word ∈ words, word ≠ []) (hfound : searchWords words text = some range) :
    range.1 < range.2 ∧ range.2 ≤ text.length := by
  induction text generalizing range with
  | nil =>
    obtain ⟨length, hmatch, rfl⟩ := Option.map_eq_some_iff.mp hfound
    exact ⟨matchWords_pos hwords hnonempty hmatch, matchWords_le_length hmatch⟩
  | cons character rest ih =>
    rw [searchWords] at hfound
    split at hfound
    next length hmatch =>
      cases hfound
      exact ⟨matchWords_pos hwords hnonempty hmatch, matchWords_le_length hmatch⟩
    next =>
      obtain ⟨inner, hinner, rfl⟩ := Option.map_eq_some_iff.mp hfound
      have := ih hinner
      simp only [List.length_cons]
      omega

/-- The words of a split are not empty. -/
theorem ne_nil_of_mem_splitWords {text word : Text} (hmem : word ∈ splitWords text) :
    word ≠ [] := by
  simpa using (List.mem_filter.mp hmem).2

/-- A text that is not white space only has a word. -/
theorem splitWords_ne_nil {text : Text} {character : Char} (hmem : character ∈ text)
    (hspace : isSpace character = false) : splitWords text ≠ [] := by
  have hword : ∃ word ∈ text.splitOnP isSpace, word ≠ [] := by
    induction text with
    | nil => cases hmem
    | cons first rest ih =>
      obtain ⟨piece, pieces, hpieces⟩ :=
        List.exists_cons_of_ne_nil (List.splitOnP_ne_nil isSpace rest)
      rw [List.splitOnP_cons_eq_if_modifyHead, hpieces]
      by_cases hfirst : isSpace first
      · have hrest : character ∈ rest :=
          (List.mem_cons.mp hmem).resolve_left fun heq ↦ by simp [← heq, hspace] at hfirst
        obtain ⟨word, hword, hne⟩ := ih hrest
        rw [if_pos hfirst]
        exact ⟨word, List.mem_cons_of_mem _ (hpieces ▸ hword), hne⟩
      · rw [if_neg hfirst, List.modifyHead_cons]
        exact ⟨first :: piece, by simp, by simp⟩
  obtain ⟨word, hmem, hne⟩ := hword
  exact List.ne_nil_of_mem (List.mem_filter.mpr ⟨hmem, by simpa using hne⟩)

/-- A stripped text that is not empty has a word. -/
theorem splitWords_strip_ne_nil {text : Text} (hne : strip text ≠ []) :
    splitWords (strip text) ≠ [] :=
  splitWords_ne_nil (List.getLast_mem hne)
    (Bool.eq_false_iff.mpr (List.rdropWhile_last_not isSpace (text.dropWhile isSpace) hne))

/-- A stripped text has nothing to strip. -/
theorem strip_strip (text : Text) : strip (strip text) = strip text := by
  have hstart : (strip text).dropWhile isSpace = strip text := by
    rw [List.dropWhile_eq_self_iff]
    intro hpositive hspace
    have hleading : strip text <+: text.dropWhile isSpace := List.rdropWhile_prefix isSpace _
    have hlonger : 0 < (text.dropWhile isSpace).length := hpositive.trans_le hleading.length_le
    have hfirst : (strip text)[0] = (text.dropWhile isSpace)[0] := hleading.getElem hpositive
    rw [hfirst] at hspace
    exact List.dropWhile_get_zero_not isSpace text hlonger hspace
  unfold strip at hstart ⊢
  rw [hstart, List.rdropWhile_idempotent]

end DocStore
