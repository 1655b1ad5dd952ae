import DocStore.Domain.Strings

/-!
# What a search finds

A literal search returns a place at which the candidate stands. A search for words returns a place
with these words, whatever the white space between them is.
-/

set_option autoImplicit false
set_option relaxedAutoImplicit false

namespace DocStore

open Foundation

/-! ### Literal searches -/

theorem slice_findFrom {candidate text : Text} {position : ℕ}
    (hfound : findFrom candidate text = some position) :
    slice text position (position + candidate.length) = candidate := by
  induction text generalizing position with
  | nil =>
    obtain ⟨hempty, hposition⟩ := Option.ite_none_right_eq_some.mp hfound
    rw [List.isEmpty_iff.mp hempty]
    simp [slice]
  | cons character rest ih =>
    rw [findFrom] at hfound
    split at hfound
    next hleads =>
      cases hfound
      obtain ⟨tail, htail⟩ := List.isPrefixOf_iff_prefix.mp hleads
      rw [← htail, slice, List.drop_zero, Nat.zero_add, Nat.sub_zero, List.take_left]
    next =>
      obtain ⟨earlier, hearlier, rfl⟩ := Option.map_eq_some_iff.mp hfound
      rw [Nat.add_right_comm, slice_cons_succ, ih hearlier]

/-- A candidate stands where it is found. -/
theorem slice_find {source candidate : Text} {start position : ℕ}
    (hfound : find source candidate start = some position) :
    slice source position (position + candidate.length) = candidate := by
  obtain ⟨-, hfound⟩ := Option.ite_none_right_eq_some.mp hfound
  obtain ⟨offset, hoffset, rfl⟩ := Option.map_eq_some_iff.mp hfound
  rw [Nat.add_assoc, ← slice_drop, slice_findFrom hoffset]

/-! ### Words -/

/-- A word: characters, none of which is white space. -/
structure IsWord (word : Text) : Prop where
  nonempty : word ≠ []
  plain : ∀ character ∈ word, isSpace character = false

theorem isSpace_of_mem_splitOnP {text piece : Text} (hpiece : piece ∈ text.splitOnP isSpace)
    {character : Char} (hmem : character ∈ piece) : isSpace character = false := by
  induction text generalizing piece with
  | nil =>
    rw [List.splitOnP_nil, List.mem_singleton] at hpiece
    rw [hpiece] at hmem
    cases hmem
  | cons first rest ih =>
    rw [List.splitOnP_cons_eq_if_modifyHead] at hpiece
    by_cases hfirst : isSpace first
    · rw [if_pos hfirst] at hpiece
      rcases List.mem_cons.mp hpiece with rfl | hrest
      · cases hmem
      · exact ih hrest hmem
    · rw [if_neg hfirst] at hpiece
      obtain ⟨head, pieces, hpieces⟩ :=
        List.exists_cons_of_ne_nil (List.splitOnP_ne_nil isSpace rest)
      rw [hpieces, List.modifyHead_cons] at hpiece
      rcases List.mem_cons.mp hpiece with rfl | hlater
      · rcases List.mem_cons.mp hmem with rfl | hhead
        · exact Bool.eq_false_iff.mpr hfirst
        · exact ih (hpieces ▸ List.mem_cons_self) hhead
      · exact ih (hpieces ▸ List.mem_cons_of_mem _ hlater) hmem

/-- What a split returns are words. -/
theorem isWord_of_mem_splitWords {text word : Text} (hmem : word ∈ splitWords text) :
    IsWord word :=
  ⟨ne_nil_of_mem_splitWords hmem, fun _ ↦ isSpace_of_mem_splitOnP (List.mem_of_mem_filter hmem)⟩

/-- White space in front of a text does not change its words. -/
theorem splitWords_append_of_isSpace {gap : Text}
    (hgap : ∀ character ∈ gap, isSpace character = true) (text : Text) :
    splitWords (gap ++ text) = splitWords text := by
  induction gap with
  | nil => rfl
  | cons character gap ih =>
    obtain ⟨hspace, hgap⟩ := List.forall_mem_cons.mp hgap
    rw [List.cons_append, splitWords, List.splitOnP_cons_eq_if_modifyHead, if_pos hspace,
      List.filter_cons_of_neg (by simp), ← splitWords, ih hgap]

/-- A word that ends with its text or in front of white space is a word of the text. -/
theorem splitWords_word_append {word rest : Text} (hword : IsWord word)
    (hrest : ∀ character ∈ rest.head?, isSpace character = true) :
    splitWords (word ++ rest) = word :: splitWords rest := by
  have hkept (rest : List Text) : (word :: rest).filter (fun word ↦ !word.isEmpty) =
      word :: rest.filter fun word ↦ !word.isEmpty :=
    List.filter_cons_of_pos (by simpa using hword.nonempty)
  cases rest with
  | nil =>
    rw [List.append_nil, splitWords, List.splitOnP_eq_singleton hword.plain, hkept]
    rfl
  | cons character rest =>
    have hspace := hrest character rfl
    have hsame : splitWords (character :: rest) = splitWords rest :=
      splitWords_append_of_isSpace (List.forall_mem_singleton.mpr hspace) rest
    rw [hsame, splitWords, List.splitOnP_append_cons_of_forall_mem hword.plain _ hspace,
      hkept, ← splitWords]

/-- White space cuts a text between two words. -/
theorem splitWords_append_cons {character : Char} (hspace : isSpace character = true)
    (first second : Text) :
    splitWords (first ++ character :: second) = splitWords first ++ splitWords second := by
  rw [splitWords, List.splitOnP_append_cons _ _ hspace, List.filter_append]
  rfl

/-- White space behind a text does not change its words. -/
theorem splitWords_append_gap {gap : Text} (hgap : ∀ character ∈ gap, isSpace character = true)
    (text : Text) : splitWords (text ++ gap) = splitWords text := by
  cases gap with
  | nil => rw [List.append_nil]
  | cons character gap =>
    obtain ⟨hspace, hgap⟩ := List.forall_mem_cons.mp hgap
    have hnone : splitWords gap = [] := by
      rw [← List.append_nil gap, splitWords_append_of_isSpace hgap]
      rfl
    rw [splitWords_append_cons hspace, hnone, List.append_nil]

/-- Stripping a text does not change its words. -/
theorem splitWords_strip (text : Text) : splitWords (strip text) = splitWords text := by
  have hfront : splitWords (text.dropWhile isSpace) = splitWords text := by
    conv_rhs => rw [← List.takeWhile_append_dropWhile (p := isSpace) (l := text)]
    exact (splitWords_append_of_isSpace (fun _ hmem ↦ List.mem_takeWhile_imp hmem) _).symm
  have hback : strip text ++ (text.dropWhile isSpace).rtakeWhile isSpace =
      text.dropWhile isSpace := List.rdropWhile_append_rtakeWhile
  rw [← hfront, ← hback, splitWords_append_gap fun _ hmem ↦ List.mem_rtakeWhile_imp hmem]

/-! ### Searches for words -/

/-- What `\s+word` for each word matches are white space and these words. -/
theorem splitWords_take_matchGapped {words : List Text} (hwords : ∀ word ∈ words, IsWord word)
    {text : Text} {length : ℕ} (hmatch : matchGapped words text = some length) :
    splitWords (text.take length) = words ∧
      ∀ character ∈ (text.take length).head?, isSpace character = true := by
  induction words generalizing text length with
  | nil =>
    cases hmatch
    exact ⟨rfl, by simp⟩
  | cons word words ih =>
    obtain ⟨hword, hwords⟩ := List.forall_mem_cons.mp hwords
    obtain ⟨hleads, hmatch⟩ := Option.ite_none_right_eq_some.mp hmatch
    obtain ⟨matched, hmatched, rfl⟩ := Option.map_eq_some_iff.mp hmatch
    rw [Bool.and_eq_true, decide_eq_true_eq] at hleads
    obtain ⟨tail, htail⟩ := List.isPrefixOf_iff_prefix.mp hleads.2
    have hgap : text.take (leadingSpace text) = text.takeWhile isSpace :=
      (List.prefix_iff_eq_take.mp (List.takeWhile_prefix isSpace)).symm
    have htext : text = text.takeWhile isSpace ++ (word ++ tail) := by
      rw [htail, ← hgap, List.take_append_drop]
    have hspaces : ∀ character ∈ text.takeWhile isSpace, isSpace character = true :=
      fun _ hmem ↦ List.mem_takeWhile_imp hmem
    have hrest : text.drop (leadingSpace text + word.length) = tail := by
      rw [← List.drop_drop, ← htail, List.drop_left]
    rw [hrest] at hmatched
    obtain ⟨hsplit, hhead⟩ := ih hwords hmatched
    have htake : text.take (leadingSpace text + word.length + matched) =
        text.takeWhile isSpace ++ (word ++ tail.take matched) := by
      conv_lhs => rw [htext]
      rw [Nat.add_assoc]
      have hlength : leadingSpace (text.takeWhile isSpace ++ (word ++ tail)) =
          (text.takeWhile isSpace).length := by
        rw [← htext]
        rfl
      rw [hlength, List.take_length_add_append, List.take_length_add_append]
    rw [htake]
    constructor
    · rw [splitWords_append_of_isSpace hspaces, splitWords_word_append hword hhead, hsplit]
    · intro character hcharacter
      have hnonempty : text.takeWhile isSpace ≠ [] := List.length_pos_iff.mp hleads.1
      rw [List.head?_append_of_ne_nil _ hnonempty] at hcharacter
      exact hspaces character (List.mem_of_head? hcharacter)

theorem splitWords_take_matchWords {words : List Text} (hwords : ∀ word ∈ words, IsWord word)
    {text : Text} {length : ℕ} (hmatch : matchWords words text = some length) :
    splitWords (text.take length) = words := by
  cases words with
  | nil =>
    cases hmatch
    rfl
  | cons word words =>
    obtain ⟨hword, hwords⟩ := List.forall_mem_cons.mp hwords
    obtain ⟨hleads, hmatch⟩ := Option.ite_none_right_eq_some.mp hmatch
    obtain ⟨matched, hmatched, rfl⟩ := Option.map_eq_some_iff.mp hmatch
    obtain ⟨tail, rfl⟩ := List.isPrefixOf_iff_prefix.mp hleads
    rw [List.drop_left] at hmatched
    obtain ⟨hsplit, hhead⟩ := splitWords_take_matchGapped hwords hmatched
    rw [List.take_length_add_append, splitWords_word_append hword hhead, hsplit]

/-- **A search for words finds these words.** -/
theorem splitWords_slice_searchWords {words : List Text} (hwords : ∀ word ∈ words, IsWord word)
    {text : Text} {range : ℕ × ℕ} (hfound : searchWords words text = some range) :
    splitWords (slice text range.1 range.2) = words := by
  induction text generalizing range with
  | nil =>
    obtain ⟨length, hmatch, rfl⟩ := Option.map_eq_some_iff.mp hfound
    exact splitWords_take_matchWords hwords hmatch
  | cons character rest ih =>
    rw [searchWords] at hfound
    split at hfound
    next length hmatch =>
      cases hfound
      exact splitWords_take_matchWords hwords hmatch
    next =>
      obtain ⟨inner, hinner, rfl⟩ := Option.map_eq_some_iff.mp hfound
      rw [slice_cons_succ]
      exact ih hinner

end DocStore
