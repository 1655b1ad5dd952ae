import DocStore.Domain.Metadata
import DocStore.Foundation.Separators
import DocStore.Foundation.Utf8

/-!
# The last event of the activity log

`_last_vectorizer_activity_event` reads the activity log from its end, in blocks of 8192 bytes. What
it has read and not looked at yet is a buffer; it looks at what stands behind the last newline of the
buffer, which is a whole line, and reads another block when there is no newline left. A line that
does not parse is passed over, also when it is the first one of the file.

What it finds is what a scan of the lines from the first one keeps as the last line that parses
(`lastVectorizerActivityEvent_eq_iff`), wherever the blocks begin. The two part where `json.loads` fails
with anything else than a `JSONDecodeError`: it raises a plain `ValueError` for an integer of more
than 4300 digits and a `RecursionError` for arrays within arrays, and no handler of the reader is for
these. So they agree exactly when every such line is followed by one that parses.

The JSON decoder is a parameter.
-/

set_option autoImplicit false
set_option relaxedAutoImplicit false

namespace DocStore

open Foundation

/-! ### Lines -/

/-- What `json.loads` raises that is no `JSONDecodeError`. -/
inductive LoadFailure where
  | recursion
  | integerDigits
  deriving DecidableEq

/-- What `json.loads` does with a text. -/
inductive Loaded (Value : Type) where
  | value (event : Value)
  | decodeError
  | raises (failure : LoadFailure)

/-- The decoder: its values, and which of them are dicts. -/
structure JsonDecoder (Value : Type) where
  loads : Text → Loaded Value
  isDict : Value → Bool

/-- `b"\n"`. -/
def newline : UInt8 := 10

/-- What `bytes.strip` takes away. -/
def isByteSpace (byte : UInt8) : Bool := [9, 10, 11, 12, 13, 32].contains byte

/-- `bytes.strip`. -/
def stripBytes (line : List UInt8) : List UInt8 :=
  (line.dropWhile isByteSpace).rdropWhile isByteSpace

/-- `line.decode("utf-8")`. -/
def decodeLine (line : List UInt8) : Option Text := line.toByteArray.utf8Decode?.map Array.toList

/-- What was encoded is decoded. -/
theorem decodeLine_utf8Bytes (text : Text) : decodeLine (utf8Bytes text) = some text := by
  have hdecode : (utf8Bytes text).toByteArray.utf8Decode? = some text.toArray :=
    List.utf8Decode?_utf8Encode
  rw [decodeLine, hdecode]
  rfl

section Reader

variable {Value : Type} (decoder : JsonDecoder Value)

/-- `json.loads(line.decode("utf-8"))`. -/
def loadLine (line : List UInt8) : Loaded Value :=
  match decodeLine line with
  | none => .decodeError
  | some text => decoder.loads text

/-- `event if isinstance(event, dict) else None`. -/
def eventOf (event : Value) : Option Value := if decoder.isDict event then some event else none

/-- What the reader answers at a line, or nothing where it goes on: at an empty line, and at one that
does not parse. -/
def lineAnswer (line : List UInt8) : Option (Except LoadFailure (Option Value)) :=
  if line.isEmpty then none
  else match loadLine decoder line with
    | .value event => some (.ok (eventOf decoder event))
    | .decodeError => none
    | .raises failure => some (.error failure)

/-! ### The reader -/

/-- `while b"\n" in buffer`: an answer, or what is left of the buffer. -/
def searchBuffer (buffer : List UInt8) :
    Except LoadFailure (Option Value) ⊕ List UInt8 :=
  if newline ∈ buffer then
    match lineAnswer decoder (stripBytes (behindLast newline buffer)) with
    | some answer => .inl answer
    | none => searchBuffer (beforeLast newline buffer)
  else .inr buffer
termination_by buffer.length
decreasing_by exact length_beforeLast_lt ‹_›

/-- `while position > 0`, and the line that is left in front of the first newline. -/
def searchFile (content : List UInt8) (position : ℕ) (buffer : List UInt8) :
    Except LoadFailure (Option Value) :=
  if 0 < position then
    let readSize := min 8192 position
    let chunk := (content.drop (position - readSize)).take readSize
    match searchBuffer decoder (chunk ++ buffer) with
    | .inl answer => answer
    | .inr rest => searchFile content (position - readSize) rest
  else (lineAnswer decoder (stripBytes buffer)).getD (.ok none)
termination_by position
decreasing_by omega

/-- `_last_vectorizer_activity_event`, for the bytes of the file, or for a file that cannot be
opened. -/
def lastVectorizerActivityEvent : Option (List UInt8) → Except LoadFailure (Option Value)
  | none => .ok none
  | some content => searchFile decoder content content.length []

/-! ### The scan from the first line -/

/-- The value of a line that parses. -/
def parsedLine (line : List UInt8) : Option Value :=
  if (stripBytes line).isEmpty then none
  else match loadLine decoder (stripBytes line) with
    | .value event => some event
    | _ => none

/-- The last of some lines that parses. -/
def lastParsed (lines : List (List UInt8)) : Option Value :=
  lines.foldl (fun kept line ↦ (parsedLine decoder line).or kept) none

/-- The event of a file: the last line that parses, when it is an object. -/
def forwardEvent (content : List UInt8) : Option Value :=
  (lastParsed decoder (content.splitOn newline)).bind (eventOf decoder)

/-- A line at which `json.loads` raises what the reader does not handle. -/
def Raises (line : List UInt8) : Prop :=
  stripBytes line ≠ [] ∧ ∃ failure, loadLine decoder (stripBytes line) = .raises failure

/-- Every line at which the decoder raises is followed by one that parses. -/
def Superseded (lines : List (List UInt8)) : Prop :=
  ∀ earlier line later, lines = earlier ++ line :: later → Raises decoder line →
    ∃ other ∈ later, (parsedLine decoder other).isSome

/-! ### What the reader finds -/

/-- What the reader answers at a line of the file. -/
def lookAt (line : List UInt8) : Option (Except LoadFailure (Option Value)) :=
  lineAnswer decoder (stripBytes line)

/-- The answer at the last line of the file at which the reader answers. -/
def lastAnswer (lines : List (List UInt8)) : Except LoadFailure (Option Value) :=
  (lines.reverse.findSome? (lookAt decoder)).getD (.ok none)

/-- A line parses and is answered with its event, or it is passed over, or the decoder raises. -/
theorem line_cases (line : List UInt8) :
    (∃ event, parsedLine decoder line = some event ∧
        lookAt decoder line = some (.ok (eventOf decoder event)) ∧ ¬Raises decoder line) ∨
      (parsedLine decoder line = none ∧ lookAt decoder line = none ∧ ¬Raises decoder line) ∨
      (∃ failure, parsedLine decoder line = none ∧ lookAt decoder line = some (.error failure) ∧
        Raises decoder line) := by
  unfold parsedLine lookAt lineAnswer Raises
  by_cases hempty : stripBytes line = []
  · simp [hempty]
  · have hlooked : (stripBytes line).isEmpty = false := List.isEmpty_eq_false_iff.mpr hempty
    cases hload : loadLine decoder (stripBytes line) with
    | value event => simp [hlooked]
    | decodeError => simp [hlooked]
    | raises failure => simp [hlooked, hempty]

variable {decoder} {buffer rest : List UInt8}

/-- An answer in the buffer is the answer in the file, whatever stands in front of the buffer. -/
theorem findSome_of_searchBuffer {answer : Except LoadFailure (Option Value)}
    (hsearch : searchBuffer decoder buffer = .inl answer) (earlier : List UInt8) :
    ((earlier ++ buffer).splitOn newline).reverse.findSome? (lookAt decoder) = some answer := by
  induction buffer using searchBuffer.induct decoder with
  | case1 buffer hnewline found hfound =>
    rw [searchBuffer, if_pos hnewline, hfound] at hsearch
    obtain rfl : found = answer := Sum.inl.inj hsearch
    rw [findSome_splitOn_append _ hnewline, lookAt, hfound, Option.some_or]
  | case2 buffer hnewline hnone ih =>
    rw [searchBuffer, if_pos hnewline, hnone] at hsearch
    rw [findSome_splitOn_append _ hnewline, lookAt, hnone, Option.none_or]
    exact ih hsearch
  | case3 buffer hnewline =>
    rw [searchBuffer, if_neg hnewline] at hsearch
    cases hsearch

/-- What is left of a buffer has no newline, and nothing behind it answers. -/
theorem rest_of_searchBuffer (hsearch : searchBuffer decoder buffer = .inr rest)
    (earlier : List UInt8) :
    newline ∉ rest ∧
      ((earlier ++ buffer).splitOn newline).reverse.findSome? (lookAt decoder) =
        ((earlier ++ rest).splitOn newline).reverse.findSome? (lookAt decoder) := by
  induction buffer using searchBuffer.induct decoder with
  | case1 buffer hnewline found hfound =>
    rw [searchBuffer, if_pos hnewline, hfound] at hsearch
    cases hsearch
  | case2 buffer hnewline hnone ih =>
    rw [searchBuffer, if_pos hnewline, hnone] at hsearch
    rw [findSome_splitOn_append _ hnewline, lookAt, hnone, Option.none_or]
    exact ih hsearch
  | case3 buffer hnewline =>
    rw [searchBuffer, if_neg hnewline] at hsearch
    obtain rfl : buffer = rest := Sum.inr.inj hsearch
    exact ⟨hnewline, rfl⟩

/-- **What the blocks have in common.** From any place in the file, with a buffer that has no newline
any more, the reader finds the last answer in what is in front of the place and in the buffer. -/
theorem searchFile_eq (content : List UInt8) {position : ℕ} (hposition : position ≤ content.length)
    (hbuffer : newline ∉ buffer) :
    searchFile decoder content position buffer =
      lastAnswer decoder ((content.take position ++ buffer).splitOn newline) := by
  induction position using Nat.strong_induction_on generalizing buffer with
  | _ position ih =>
    by_cases hpositive : 0 < position
    · have hparts : content.take position = content.take (position - min 8192 position) ++
          (content.drop (position - min 8192 position)).take (min 8192 position) := by
        rw [← List.take_add, Nat.sub_add_cancel (Nat.min_le_right _ _)]
      rw [searchFile, if_pos hpositive, hparts, List.append_assoc]
      dsimp only
      split
      next answer hanswer =>
        rw [lastAnswer, findSome_of_searchBuffer hanswer, Option.getD_some]
      next rest hrest =>
        obtain ⟨hnewline, hsame⟩ := rest_of_searchBuffer hrest
          (content.take (position - min 8192 position))
        rw [ih (position - min 8192 position) (by omega) (by omega) hnewline, lastAnswer, lastAnswer,
          hsame]
    · obtain rfl : position = 0 := Nat.eq_zero_of_not_pos hpositive
      rw [searchFile, if_neg hpositive, List.take_zero, List.nil_append, lastAnswer,
        List.splitOn_eq_singleton hbuffer, List.reverse_singleton, List.findSome?_singleton]
      rfl

/-- The reader answers at the last line of the file at which there is an answer. -/
theorem lastVectorizerActivityEvent_some (content : List UInt8) :
    lastVectorizerActivityEvent decoder (some content) =
      lastAnswer decoder (content.splitOn newline) := by
  rw [lastVectorizerActivityEvent, searchFile_eq content (Nat.le_refl _) List.not_mem_nil,
    List.take_length, List.append_nil]

/-! ### One line more -/

theorem lastAnswer_concat (lines : List (List UInt8)) (line : List UInt8) :
    lastAnswer decoder (lines ++ [line]) = (lookAt decoder line).getD (lastAnswer decoder lines) := by
  rw [lastAnswer, lastAnswer, List.reverse_concat, List.findSome?_cons]
  cases lookAt decoder line with
  | none => rfl
  | some answer => rfl

theorem lastParsed_concat (lines : List (List UInt8)) (line : List UInt8) :
    lastParsed decoder (lines ++ [line]) =
      (parsedLine decoder line).or (lastParsed decoder lines) :=
  List.foldl_concat ..

/-- A last line that parses supersedes all others, and one that raises is superseded by none. -/
theorem superseded_concat (lines : List (List UInt8)) (line : List UInt8) :
    Superseded decoder (lines ++ [line]) ↔
      (parsedLine decoder line).isSome ∨ (¬Raises decoder line ∧ Superseded decoder lines) := by
  constructor
  · intro hlines
    by_cases hparsed : (parsedLine decoder line).isSome
    · exact .inl hparsed
    · refine .inr ⟨fun hraises ↦ ?_, fun earlier other later hparts hraises ↦ ?_⟩
      · obtain ⟨last, hlast, -⟩ := hlines lines line [] rfl hraises
        cases hlast
      · obtain ⟨last, hlast, hlastParsed⟩ := hlines earlier other (later ++ [line])
          (by rw [hparts, List.append_assoc]; rfl) hraises
        rcases List.mem_append.mp hlast with hlater | hline
        · exact ⟨last, hlater, hlastParsed⟩
        · rw [List.mem_singleton.mp hline] at hlastParsed
          exact absurd hlastParsed hparsed
  · intro hline earlier other later hparts hraises
    rcases List.eq_nil_or_concat' later with rfl | ⟨later, last, rfl⟩
    · obtain ⟨rfl, hsame⟩ := List.append_inj' hparts rfl
      obtain rfl : line = other := List.singleton_inj.mp hsame
      rcases line_cases decoder line with ⟨_, _, _, hnot⟩ | ⟨_, _, hnot⟩ | ⟨_, hnone, _⟩
      · exact absurd hraises hnot
      · exact absurd hraises hnot
      · rcases hline with hparsed | hnot
        · rw [hnone] at hparsed
          cases hparsed
        · exact absurd hraises hnot.1
    · rw [← List.cons_append, ← List.append_assoc] at hparts
      obtain ⟨hlines, hsame⟩ := List.append_inj' hparts rfl
      obtain rfl : line = last := List.singleton_inj.mp hsame
      rcases hline with hparsed | ⟨_, hothers⟩
      · exact ⟨line, List.mem_append_right _ List.mem_cons_self, hparsed⟩
      · obtain ⟨found, hfound, hfoundParsed⟩ := hothers earlier other later hlines hraises
        exact ⟨found, List.mem_append_left _ hfound, hfoundParsed⟩

/-- The last answer is the last line that parses, unless the decoder raises behind it. -/
theorem lastAnswer_eq_iff (lines : List (List UInt8)) :
    lastAnswer decoder lines = .ok ((lastParsed decoder lines).bind (eventOf decoder)) ↔
      Superseded decoder lines := by
  induction lines using List.reverseRecOn with
  | nil =>
    refine iff_of_true rfl fun earlier line later hparts _ ↦ ?_
    cases earlier <;> cases hparts
  | append_singleton lines line ih =>
    rw [lastAnswer_concat, lastParsed_concat, superseded_concat]
    rcases line_cases decoder line with
      ⟨event, hparsed, hlook, hnot⟩ | ⟨hparsed, hlook, hnot⟩ | ⟨failure, hparsed, hlook, hraises⟩
    · simp [hparsed, hlook]
    · simp [hparsed, hlook, hnot, ih]
    · simp [hparsed, hlook, hraises]

/-- **The reader and the scan agree** on a file exactly when every line at which `json.loads` raises
something that is no `JSONDecodeError` is followed by a line that parses. -/
theorem lastVectorizerActivityEvent_eq_iff {Value : Type} (decoder : JsonDecoder Value)
    (content : List UInt8) :
    lastVectorizerActivityEvent decoder (some content) = .ok (forwardEvent decoder content) ↔
      Superseded decoder (content.splitOn newline) := by
  rw [lastVectorizerActivityEvent_some, forwardEvent, lastAnswer_eq_iff]

end Reader

/-! ### A line that is one long number -/

/-- The decoder on texts that are integer literals, and on no others. -/
def integerDecoder : JsonDecoder ℕ where
  loads text :=
    if text ≠ [] ∧ text.all Char.isDigit = true ∧ (text.head? ≠ some '0' ∨ text.length = 1) then
      if text.length ≤ 4300 then
        .value (text.foldl (fun number digit ↦ 10 * number + (digit.toNat - 48)) 0)
      else .raises .integerDigits
    else .decodeError
  isDict _ := false

/-- The bytes of a number that is written with ones. -/
def onesLine (count : ℕ) : List UInt8 := utf8Bytes (List.replicate count '1')

theorem eq_of_mem_onesLine {count : ℕ} {byte : UInt8} (hbyte : byte ∈ onesLine count) :
    byte = 49 := by
  obtain ⟨character, hcharacter, hencoded⟩ := List.mem_flatMap.mp hbyte
  rw [List.eq_of_mem_replicate hcharacter] at hencoded
  have hone : String.utf8EncodeChar '1' = [49] := by decide
  rw [hone] at hencoded
  exact List.mem_singleton.mp hencoded

theorem stripBytes_onesLine (count : ℕ) : stripBytes (onesLine count) = onesLine count := by
  have hfirst : (onesLine count).dropWhile isByteSpace = onesLine count := by
    rw [List.dropWhile_eq_self_iff]
    intro hlength
    rw [eq_of_mem_onesLine (List.getElem_mem hlength)]
    decide
  rw [stripBytes, hfirst, List.rdropWhile_eq_self_iff]
  intro hne
  rw [eq_of_mem_onesLine (List.getLast_mem hne)]
  decide

theorem loadLine_onesLine {count : ℕ} (hcount : 4300 < count) :
    loadLine integerDecoder (onesLine count) = .raises .integerDigits := by
  have hpositive : count ≠ 0 := Nat.ne_zero_of_lt hcount
  have hinteger : List.replicate count '1' ≠ [] ∧
      (List.replicate count '1').all Char.isDigit = true ∧
      ((List.replicate count '1').head? ≠ some '0' ∨ (List.replicate count '1').length = 1) := by
    refine ⟨by simpa using hpositive, ?_, .inl ?_⟩
    · rw [List.all_replicate]
      simp
    · rw [List.head?_replicate, if_neg hpositive]
      decide
  have hlong : ¬(List.replicate count '1').length ≤ 4300 := by
    rw [List.length_replicate]
    exact Nat.not_le_of_lt hcount
  rw [loadLine, onesLine, decodeLine_utf8Bytes]
  exact (if_pos hinteger).trans (if_neg hlong)

theorem onesLine_ne_nil {count : ℕ} (hcount : 0 < count) : onesLine count ≠ [] := by
  obtain ⟨rest, rfl⟩ := Nat.exists_eq_succ_of_ne_zero (Nat.ne_of_gt hcount)
  rw [onesLine, List.replicate_succ]
  exact List.cons_ne_nil _ _

/-- A number with 4301 digits, as it may stand in a torn line, fails the reader. -/
theorem longNumber_not_forward :
    lastVectorizerActivityEvent integerDecoder (some (onesLine 4301)) ≠
      .ok (forwardEvent integerDecoder (onesLine 4301)) := by
  have hline : newline ∉ onesLine 4301 := fun hmem ↦ absurd (eq_of_mem_onesLine hmem) (by decide)
  have hlength : 4300 < 4301 := by decide
  have hnonempty : (onesLine 4301).isEmpty = false :=
    List.isEmpty_eq_false_iff.mpr (onesLine_ne_nil (Nat.zero_lt_of_lt hlength))
  rw [lastVectorizerActivityEvent_some, List.splitOn_eq_singleton hline, lastAnswer,
    List.reverse_singleton, List.findSome?_singleton, lookAt, stripBytes_onesLine, lineAnswer,
    hnonempty, loadLine_onesLine hlength]
  rintro ⟨⟩

end DocStore
