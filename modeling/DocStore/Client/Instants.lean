import DocStore.Domain.Metadata

/-!
# Instants on both sides

The client compares two instants with `_same_instant`, the server turns each of them into one in UTC
with `coerce_instant`. Both read a string in the same way: strip it, write `Z` as an offset, and give
it to `datetime.fromisoformat`, which is a parameter here. What they do with an instant that has no
offset is not the same. The server takes it for UTC. The client compares `datetime` objects, and one
with an offset never equals one without.

So the two agree on strings that both state an offset, on strings that both state none, and on
strings that state different moments anyway (`sameInstant_iff_coerceInstant`).
-/

set_option autoImplicit false
set_option relaxedAutoImplicit false

namespace DocStore

/-! ### `datetime` -/

/-- The microseconds from the beginning of the year 1 to the end of the year 9999. -/
def yearsEnd : ℤ := 315537897600000000

/-- A `datetime`: what the clock shows, in microseconds since the beginning of the year 1, and how far
it is ahead of UTC, if it says so. -/
structure DateTime where
  wall : ℤ
  offset : Option ℤ
  inYears : 0 ≤ wall ∧ wall < yearsEnd
  deriving DecidableEq

/-- `==` of two `datetime` objects. -/
def DateTime.equals (first second : DateTime) : Bool :=
  match first.offset, second.offset with
  | none, none => first.wall = second.wall
  | some firstOffset, some secondOffset =>
    first.wall - firstOffset = second.wall - secondOffset
  | _, _ => false

/-- The moment that is stated, where a missing offset is that of UTC. -/
def DateTime.moment (stated : DateTime) : ℤ := stated.wall - stated.offset.getD 0

/-- What the two sides raise. -/
inductive RequestFailure where
  | valueError (message : Text)
  | validationError (message field : Text)
  | overflowError
  | typeError
  deriving DecidableEq

/-- A value of a payload, as far as it is told apart: of a number with a fraction, a list or an
object only the truth value and the text. -/
inductive WireValue where
  | null
  | bool (value : Bool)
  | int (value : ℤ)
  | str (text : Text)
  | other (truthy : Bool) (text : Text)
  deriving DecidableEq

/-- `astimezone(UTC)`, of an instant with an offset. -/
def DateTime.astimezoneUtc (stated : DateTime) : Except RequestFailure DateTime :=
  if hyears : 0 ≤ stated.moment ∧ stated.moment < yearsEnd then
    .ok ⟨stated.moment, some 0, hyears⟩
  else .error .overflowError

/-! ### The client -/

/-- `text.replace("Z", "+00:00")`. -/
def replaceZulu (text : Text) : Text :=
  text.flatMap fun character ↦ if character = 'Z' then lit "+00:00" else [character]

/-- `f"{field_name} must be an ISO-8601 timestamp"`. -/
def instantMessage (fieldName : Text) : Text := fieldName ++ lit " must be an ISO-8601 timestamp"

section Instants

variable (fromIsoformat : Text → Option DateTime)

/-- What a string states, for both sides. -/
def stated (text : Text) : Option DateTime := fromIsoformat (replaceZulu (strip text))

/-- `_parse_instant`. -/
def parseInstant (value : WireValue) (fieldName : Text) : Except RequestFailure DateTime :=
  match value with
  | .str text =>
    if (strip text).isEmpty then .error (.valueError (instantMessage fieldName))
    else (stated fromIsoformat text).elim (.error (.valueError (instantMessage fieldName))) .ok
  | _ => .error (.valueError (instantMessage fieldName))

/-- `_same_instant`. -/
def sameInstant (left right fieldName : Text) : Except RequestFailure Bool := do
  let first ← parseInstant fromIsoformat (.str left) fieldName
  let second ← parseInstant fromIsoformat (.str right) fieldName
  return first.equals second

/-! ### The server -/

/-- What a command may be given for an instant. -/
inductive TemporalInput where
  | none
  | bool (value : Bool)
  | datetime (value : DateTime)
  | str (text : Text)
  | other

/-- `ValidationError` for a field of a command. -/
def instantRefused (field commandName : Text) : RequestFailure :=
  .validationError (commandName ++ lit ": " ++ instantMessage field) field

/-- `parsed.replace(tzinfo=UTC)` where there is no offset, and then `astimezone(UTC)`. -/
def normalizeInstant (parsed : DateTime) : Except RequestFailure (Option DateTime) :=
  let aware : DateTime := { parsed with offset := some (parsed.offset.getD 0) }
  aware.astimezoneUtc.map some

/-- `coerce_instant`. -/
def coerceInstant (value : TemporalInput) (field commandName : Text) :
    Except RequestFailure (Option DateTime) :=
  match value with
  | .none => .ok none
  | .bool _ => .error (instantRefused field commandName)
  | .datetime parsed => normalizeInstant parsed
  | .str text =>
    if (strip text).isEmpty ||
        [lit "null", lit "none"].contains ((strip text).map Char.toLower) then .ok none
    else
      match stated fromIsoformat text with
      | some parsed => normalizeInstant parsed
      | none => .error (instantRefused field commandName)
  | .other => .error (instantRefused field commandName)

/-- Both strings state an offset, or neither does, or they state different moments. -/
def ComparedAlike (first second : Text) : Prop :=
  ∀ firstStated secondStated, stated fromIsoformat first = some firstStated →
    stated fromIsoformat second = some secondStated →
      firstStated.offset.isSome = secondStated.offset.isSome ∨
        firstStated.moment ≠ secondStated.moment

/-! ### Two spellings -/

variable {fromIsoformat} {text field commandName : Text}
  {parsed instant firstInstant secondInstant : DateTime}

theorem normalizeInstant_eq_ok (hnormalized : normalizeInstant parsed = .ok (some instant)) :
    instant.wall = parsed.moment ∧ instant.offset = some 0 := by
  unfold normalizeInstant DateTime.astimezoneUtc at hnormalized
  dsimp only at hnormalized
  split at hnormalized
  · obtain rfl := Option.some.inj (Except.ok.inj hnormalized)
    exact ⟨rfl, rfl⟩
  · cases hnormalized

/-- A string that the server takes for an instant is one for the client. -/
theorem stated_of_coerceInstant (fieldName : Text)
    (hcoerced : coerceInstant fromIsoformat (.str text) field commandName = .ok (some instant)) :
    ∃ parsed, stated fromIsoformat text = some parsed ∧
      parseInstant fromIsoformat (.str text) fieldName = .ok parsed ∧
      instant.wall = parsed.moment ∧ instant.offset = some 0 := by
  unfold coerceInstant at hcoerced
  dsimp only at hcoerced
  split at hcoerced
  next => cases hcoerced
  next hnull =>
    have hnonempty : (strip text).isEmpty = false := by
      rw [Bool.or_eq_true, not_or, Bool.not_eq_true] at hnull
      exact hnull.1
    split at hcoerced
    next parsed hparsed =>
      refine ⟨parsed, hparsed, ?_, normalizeInstant_eq_ok hcoerced⟩
      rw [parseInstant, hnonempty, hparsed]
      rfl
    next => cases hcoerced

/-- Instants in UTC are the same when the clock shows the same. -/
theorem eq_of_utc (hfirst : firstInstant.offset = some 0) (hsecond : secondInstant.offset = some 0)
    (hwall : firstInstant.wall = secondInstant.wall) : firstInstant = secondInstant := by
  cases firstInstant
  cases secondInstant
  simp_all

/-- Two `datetime` objects are equal when both have an offset or neither has one, and they state the
same moment. -/
theorem DateTime.equals_iff (first second : DateTime) :
    first.equals second = true ↔
      first.offset.isSome = second.offset.isSome ∧ first.moment = second.moment := by
  unfold DateTime.equals DateTime.moment
  cases first.offset with
  | none =>
    cases second.offset with
    | none => simp
    | some offset => simp
  | some offset =>
    cases second.offset with
    | none => simp
    | some other => simp

end Instants

/-- **The two sides agree** on two strings that both accept exactly when both strings state an
offset, or neither does, or they state different moments. In any case the client compares them
without an exception. -/
theorem sameInstant_iff_coerceInstant (fromIsoformat : Text → Option DateTime)
    {first second field commandName fieldName : Text} {firstInstant secondInstant : DateTime}
    (hfirst : coerceInstant fromIsoformat (.str first) field commandName = .ok (some firstInstant))
    (hsecond : coerceInstant fromIsoformat (.str second) field commandName =
      .ok (some secondInstant)) :
    ∃ same, sameInstant fromIsoformat first second fieldName = .ok same ∧
      ((same = true ↔ firstInstant = secondInstant) ↔
        ComparedAlike fromIsoformat first second) := by
  obtain ⟨firstStated, hfirstStated, hfirstParsed, hfirstWall, hfirstUtc⟩ :=
    stated_of_coerceInstant fieldName hfirst
  obtain ⟨secondStated, hsecondStated, hsecondParsed, hsecondWall, hsecondUtc⟩ :=
    stated_of_coerceInstant fieldName hsecond
  have hinstants : firstInstant = secondInstant ↔ firstStated.moment = secondStated.moment := by
    rw [← hfirstWall, ← hsecondWall]
    exact ⟨congrArg DateTime.wall, eq_of_utc hfirstUtc hsecondUtc⟩
  have halike : ComparedAlike fromIsoformat first second ↔
      (firstStated.offset.isSome = secondStated.offset.isSome ∨
        firstStated.moment ≠ secondStated.moment) := by
    unfold ComparedAlike
    rw [hfirstStated, hsecondStated]
    constructor
    · intro hcompared
      exact hcompared firstStated secondStated rfl rfl
    · rintro hcompared _ _ ⟨⟩ ⟨⟩
      exact hcompared
  refine ⟨firstStated.equals secondStated, ?_, ?_⟩
  · rw [sameInstant, hfirstParsed, hsecondParsed]
    rfl
  · rw [DateTime.equals_iff, hinstants, halike]
    by_cases hsome : firstStated.offset.isSome = secondStated.offset.isSome
    · simp [hsome]
    · simp [hsome]

/-! ### A spelling with an offset and one without -/

/-- A number of digits at a place in a text. -/
def numberAt (text : Text) (start count : ℕ) : Option ℕ :=
  let digits := (text.drop start).take count
  if digits.length = count && digits.all Char.isDigit then
    some (digits.foldl (fun number digit ↦ 10 * number + (digit.toNat - 48)) 0)
  else none

/-- The lengths of the months of a year. -/
def monthLengths (year : ℕ) : List ℕ :=
  let leap := year % 4 = 0 && (year % 100 != 0 || year % 400 = 0)
  [31, if leap then 29 else 28, 31, 30, 31, 30, 31, 31, 30, 31, 30, 31]

/-- The days in front of a day, from the beginning of the year 1. -/
def daysBefore (year month day : ℕ) : ℕ :=
  (year - 1) * 365 + (year - 1) / 4 - (year - 1) / 100 + (year - 1) / 400 +
    ((monthLengths year).take (month - 1)).foldl (· + ·) 0 + (day - 1)

/-- `±HH:MM` behind a time, in microseconds. -/
def offsetAt (text : Text) : Option (Option ℤ) :=
  match text with
  | [] => some none
  | sign :: _ => do
    let hours ← numberAt text 1 2
    let minutes ← numberAt text 4 2
    let offset : ℤ := (hours * 60 + minutes) * 60000000
    if text.length = 6 && text[3]? = some ':' && hours < 24 && minutes < 60 then
      if sign = '+' then return some offset
      else if sign = '-' then return some (-offset)
      else none
    else none

/-- `datetime.fromisoformat` on strings of the form `YYYY-MM-DDTHH:MM:SS`, with an offset `±HH:MM`
or without one. -/
def secondsIsoformat (text : Text) : Option DateTime := do
  let year ← numberAt text 0 4
  let month ← numberAt text 5 2
  let day ← numberAt text 8 2
  let hour ← numberAt text 11 2
  let minute ← numberAt text 14 2
  let second ← numberAt text 17 2
  let offset ← offsetAt (text.drop 19)
  if [4, 7, 10, 13, 16].map (text.getD · ' ') = ['-', '-', 'T', ':', ':'] &&
      1 ≤ year && 1 ≤ month && 1 ≤ day && day ≤ (monthLengths year).getD (month - 1) 0 &&
      hour < 24 && minute < 60 && second < 60 then
    let hours := daysBefore year month day * 24 + hour
    let wall : ℤ := ((hours * 60 + minute) * 60 + second) * 1000000
    if hyears : 0 ≤ wall ∧ wall < yearsEnd then return ⟨wall, offset, hyears⟩ else none
  else none

/-- `2026-01-01T00:00:00+00:00`. -/
def newYear : DateTime := ⟨63902822400000000, some 0, by decide⟩

/-- Two spellings of one moment, with different offsets. -/
theorem sameInstant_iff_coerceInstant_offsets : ∃ same,
    sameInstant secondsIsoformat (lit "2026-01-01T02:00:00+02:00")
        (lit " 2026-01-01T00:00:00Z") [] = .ok same ∧
      ((same = true ↔ newYear = newYear) ↔
        ComparedAlike secondsIsoformat (lit "2026-01-01T02:00:00+02:00")
          (lit " 2026-01-01T00:00:00Z")) := by
  have hfirst : coerceInstant secondsIsoformat (.str (lit "2026-01-01T02:00:00+02:00")) [] [] =
      .ok (some newYear) := toOption_eq_some.mp (by decide +kernel)
  have hsecond : coerceInstant secondsIsoformat (.str (lit " 2026-01-01T00:00:00Z")) [] [] =
      .ok (some newYear) := toOption_eq_some.mp (by decide +kernel)
  exact sameInstant_iff_coerceInstant secondsIsoformat hfirst hsecond

/-- The same moment without an offset and with `Z` is one instant for the server and two for the
client. -/
theorem sameInstant_not_coerceInstant :
    coerceInstant secondsIsoformat (.str (lit "2026-01-01T00:00:00")) [] [] = .ok (some newYear) ∧
      coerceInstant secondsIsoformat (.str (lit "2026-01-01T00:00:00Z")) [] [] =
        .ok (some newYear) ∧
      sameInstant secondsIsoformat (lit "2026-01-01T00:00:00") (lit "2026-01-01T00:00:00Z") [] =
        .ok false :=
  ⟨toOption_eq_some.mp (by decide +kernel), toOption_eq_some.mp (by decide +kernel),
    toOption_eq_some.mp (by decide +kernel)⟩

end DocStore
