import DocStore.Domain.Strings
import DocStore.Foundation.Assoc
import Mathlib.Data.List.Forall2
import Mathlib.Data.Rat.Init

/-!
# JSON metadata, identifiers and failures

`Json` is a value as Python holds it after `json.loads`, and `Dict` a Python dict with string keys,
with the operations of an association list. A `Failure` is what the store raises; a computation
that may raise is an `Except Failure`, and `bind_eq_ok` and `mapM_eq_ok` say when one that is put
together from others succeeds.
-/

set_option autoImplicit false
set_option relaxedAutoImplicit false

namespace DocStore

open Foundation

/-! ### JSON values -/

/-- A JSON value. Python compares `1`, `1.0` and `True` as equal, so numbers are rationals. -/
inductive Json where
  | null
  | bool (value : Bool)
  | num (value : ℚ)
  | str (value : Text)
  | arr (items : List Json)
  | obj (fields : List (String × Json))

mutual

/-- Whether two values are the same. -/
def Json.equals : Json → Json → Bool
  | .null, .null => true
  | .bool first, .bool second => first = second
  | .num first, .num second => first = second
  | .str first, .str second => first = second
  | .arr firsts, .arr seconds => equalItems firsts seconds
  | .obj firsts, .obj seconds => equalFields firsts seconds
  | _, _ => false

/-- Whether two lists of values are the same. -/
def equalItems : List Json → List Json → Bool
  | [], [] => true
  | first :: firsts, second :: seconds => first.equals second && equalItems firsts seconds
  | _, _ => false

/-- Whether two lists of fields are the same. -/
def equalFields : List (String × Json) → List (String × Json) → Bool
  | [], [] => true
  | (key, first) :: firsts, (other, second) :: seconds =>
    key = other && first.equals second && equalFields firsts seconds
  | _, _ => false

end

mutual

theorem Json.equals_iff : (first second : Json) → (first.equals second = true ↔ first = second)
  | .null, second | .bool _, second | .num _, second | .str _, second => by
    cases second <;> simp [Json.equals]
  | .arr firsts, second => by
    cases second with
    | arr seconds => simp [Json.equals, equalItems_iff firsts seconds]
    | _ => simp [Json.equals]
  | .obj firsts, second => by
    cases second with
    | obj seconds => simp [Json.equals, equalFields_iff firsts seconds]
    | _ => simp [Json.equals]

theorem equalItems_iff : (firsts seconds : List Json) →
    (equalItems firsts seconds = true ↔ firsts = seconds)
  | [], seconds => by cases seconds <;> simp [equalItems]
  | first :: firsts, seconds => by
    cases seconds with
    | nil => simp [equalItems]
    | cons second seconds =>
      simp [equalItems, Json.equals_iff first second, equalItems_iff firsts seconds]

theorem equalFields_iff : (firsts seconds : List (String × Json)) →
    (equalFields firsts seconds = true ↔ firsts = seconds)
  | [], seconds => by cases seconds <;> simp [equalFields]
  | (key, first) :: firsts, seconds => by
    cases seconds with
    | nil => simp [equalFields]
    | cons entry seconds =>
      obtain ⟨other, second⟩ := entry
      simp [equalFields, Json.equals_iff first second, equalFields_iff firsts seconds]

end

instance : DecidableEq Json := fun first second ↦
  decidable_of_iff (first.equals second = true) (Json.equals_iff first second)

/-- A Python dict with string keys, in insertion order. -/
abbrev Dict := List (String × Json)

/-- The JSON value of an optional string, `None` being `null`. -/
def Json.ofOption : Option Text → Json
  | none => .null
  | some value => .str value

/-- `value if isinstance(value, Mapping) else {}`. -/
def asMapping : Json → Dict
  | .obj fields => fields
  | _ => []

/-- Python's `bool(value)` of a JSON value. -/
def truthy : Json → Bool
  | .null => false
  | .bool value => value
  | .num value => value ≠ 0
  | .str text => !text.isEmpty
  | .arr items => !items.isEmpty
  | .obj fields => !fields.isEmpty

mutual

/-- `first == second`. -/
def Json.same : Json → Json → Bool
  | .null, .null => true
  | .bool first, .bool second => first = second
  | .bool first, .num second => (if first then 1 else 0) = second
  | .num first, .bool second => first = if second then 1 else 0
  | .num first, .num second => first = second
  | .str first, .str second => first = second
  | .arr first, .arr second => sameItems first second
  | .obj first, .obj second => first.length = second.length && sameFields first second
  | _, _ => false

/-- Equality of lists of values. -/
def sameItems : List Json → List Json → Bool
  | [], [] => true
  | first :: firsts, second :: seconds => first.same second && sameItems firsts seconds
  | _, _ => false

/-- Whether a dict has all entries of another one. -/
def sameFields : List (String × Json) → Dict → Bool
  | [], _ => true
  | (key, value) :: rest, other =>
    (match getKey other key with
      | some found => value.same found
      | none => false) && sameFields rest other

end

/-! ### Identifiers -/

/-- A UUID, ordered as PostgreSQL orders it. -/
abbrev Uuid := BitVec 128

instance : LawfulBEq Uuid := inferInstance

/-- `UUID.version`, which only RFC 4122 variants have. -/
def uuidVersion (id : Uuid) : Option ℕ :=
  if id.getLsbD 63 && !id.getLsbD 62 then some ((id >>> 76).toNat % 16) else none

/-- `str(UUID)`: the hexadecimal digits in groups of 8, 4, 4, 4 and 12. -/
def uuidText (id : Uuid) : Text :=
  let digits := List.leftpad 32 '0' (Nat.toDigits 16 id.toNat)
  slice digits 0 8 ++ ['-'] ++ slice digits 8 12 ++ ['-'] ++
    slice digits 12 16 ++ ['-'] ++ slice digits 16 20 ++ ['-'] ++
    slice digits 20 32

/-- `text.replace(word, "")`, inside an occurrence for some more characters. -/
def removeWord (word : Text) : ℕ → Text → Text
  | _, [] => []
  | skipped + 1, _ :: rest => removeWord word skipped rest
  | 0, character :: rest =>
    if word.isPrefixOf (character :: rest) then removeWord word (word.length - 1) rest
    else character :: removeWord word 0 rest

/-- The value of a hexadecimal digit. -/
def hexDigit (character : Char) : Option ℕ :=
  if character.isDigit then some (character.toNat - '0'.toNat)
  else if 'a' ≤ character ∧ character ≤ 'f' then some (character.toNat - 'a'.toNat + 10)
  else if 'A' ≤ character ∧ character ≤ 'F' then some (character.toNat - 'A'.toNat + 10)
  else none

/-- `UUID(text)`: 32 hexadecimal digits, where braces, hyphens and a URN prefix are optional. -/
def parseUuid (text : Text) : Option Uuid := do
  let bare := removeWord (lit "uuid:") 0 (removeWord (lit "urn:") 0 text)
  let isBrace (character : Char) : Bool := character = '{' || character = '}'
  let digits := ((bare.dropWhile isBrace).rdropWhile isBrace).filter fun character ↦ character ≠ '-'
  if digits.length = 32 then do
    let values ← digits.mapM hexDigit
    return BitVec.ofNat 128 (values.foldl (fun total digit ↦ total * 16 + digit) 0)
  else none

/-- A transaction time, `now()`. -/
abbrev Instant := ℤ

/-! ### Failures -/

/-- `_Interval`: a half-open effective interval, open-ended when it has no end. -/
structure Interval where
  start : Instant
  stop : Option Instant
deriving DecidableEq, Repr

/-- The kinds of evidence that an assertion row records. -/
inductive AssertionKind where
  | payload
  | intervalBoundary
  | supersession
  | deletion
  | restoration
deriving DecidableEq, Repr

/-- The errors of the temporal assertion service, each with what its details name. -/
inductive TemporalAssertionError where
  | objectNotRegistered (objectId : Uuid)
  | assertionNotFound (assertionId : Uuid)
  | assertionAlreadySuperseded (assertionId supersededBy : Uuid)
  | invalidEffectiveInterval (interval : Interval)
  | ambiguousEffectiveInterval (objectId : Uuid) (payloadFamily : Text) (conflicting : List Uuid)
      (interval : Option Interval)
  | disjointReplacementWindow (assertionId : Uuid) (window : Interval)
  | notADeletionAssertion (assertionId : Uuid) (assertionKind : AssertionKind)
deriving DecidableEq, Repr

/-- The code of a temporal assertion error. -/
def TemporalAssertionError.code : TemporalAssertionError → String
  | objectNotRegistered _ => "OBJECT_NOT_REGISTERED"
  | assertionNotFound _ => "ASSERTION_NOT_FOUND"
  | assertionAlreadySuperseded _ _ => "ASSERTION_ALREADY_SUPERSEDED"
  | invalidEffectiveInterval _ => "INVALID_EFFECTIVE_INTERVAL"
  | ambiguousEffectiveInterval _ _ _ _ => "AMBIGUOUS_EFFECTIVE_INTERVAL"
  | disjointReplacementWindow _ _ => "DISJOINT_REPLACEMENT_WINDOW"
  | notADeletionAssertion _ _ => "NOT_A_DELETION_ASSERTION"

/-- What the store raises: a domain error of the chunker, of the version service or of a rebind with
its code and details, a temporal assertion error, the refusal to choose among several accepted assertions of an
object, a `ValueError`, a `LookupError`, or an error of the database (a violated constraint, a number
that does not fit its column). -/
inductive Failure where
  | chunker (code message : String) (details : Dict)
  | version (code message : String) (details : Dict)
  | rebind (code message : String) (details : Dict)
  | temporal (error : TemporalAssertionError)
  | ambiguousAssertion (count : ℕ) (objectId : Uuid) (actDate knownAt : Instant)
  | value (message : String)
  | lookup (message : String)
  | integrity (constraint : String)
  | outOfRange (column : String)
  | deletionSafety (message : String)

/-- Whether a computation succeeds. -/
def succeeds {ε α : Type*} : Except ε α → Bool
  | .ok _ => true
  | .error _ => false

/-- The value of a computation that did not raise. -/
def toOption {ε α : Type*} : Except ε α → Option α
  | .ok value => some value
  | .error _ => none

@[simp] theorem toOption_ok {ε α : Type*} (value : α) :
    toOption (.ok value : Except ε α) = some value :=
  rfl

@[simp] theorem toOption_error {ε α : Type*} (failure : ε) :
    toOption (.error failure : Except ε α) = none :=
  rfl

theorem toOption_eq_some {ε α : Type*} {computation : Except ε α} {value : α} :
    toOption computation = some value ↔ computation = .ok value := by
  cases computation <;> simp

theorem exists_of_succeeds {ε α : Type*} {computation : Except ε α}
    (hsucceeds : succeeds computation = true) : ∃ value, computation = .ok value := by
  cases computation with
  | error failure => cases hsucceeds
  | ok value => exact ⟨value, rfl⟩

theorem exists_of_not_succeeds {ε α : Type*} {computation : Except ε α}
    (hfails : succeeds computation = false) : ∃ failure, computation = .error failure := by
  cases computation with
  | error failure => exact ⟨failure, rfl⟩
  | ok value => cases hfails

/-- A list that is computed without a failure. -/
theorem eq_ok_of_succeeds {ε α : Type*} {computation : Except ε α} {fallback : α}
    (hsucceeds : succeeds computation = true) :
    computation = .ok ((toOption computation).getD fallback) := by
  obtain ⟨value, rfl⟩ := exists_of_succeeds hsucceeds
  rfl

/-- `if condition: raise failure`. -/
def raiseIf {ε : Type*} (condition : Bool) (failure : ε) : Except ε Unit :=
  if condition then .error failure else .ok ()

@[simp] theorem raiseIf_eq_ok {ε : Type*} {condition : Bool} {failure : ε} {result : Unit} :
    raiseIf condition failure = .ok result ↔ condition = false := by
  cases condition <;> simp [raiseIf]

theorem raiseIf_eq_error {ε : Type*} {condition : Bool} {failure raised : ε} :
    raiseIf condition failure = .error raised ↔ condition = true ∧ raised = failure := by
  cases condition <;> simp [raiseIf, eq_comm]

theorem pure_eq_ok {ε α : Type*} {value result : α} :
    (pure value : Except ε α) = .ok result ↔ result = value := by
  simp only [pure, Except.pure, Except.ok.injEq, eq_comm]

/-- A step that succeeds hands its value on. -/
theorem ok_bind {ε α β : Type} (value : α) (next : α → Except ε β) :
    (Except.ok value >>= next) = next value :=
  rfl

/-- A sequence of two steps succeeds exactly when both do. -/
theorem bind_eq_ok {ε α β : Type} {first : Except ε α} {next : α → Except ε β} {result : β} :
    (first >>= next) = .ok result ↔ ∃ value, first = .ok value ∧ next value = .ok result := by
  cases first with
  | error failure => simp [bind, Except.bind]
  | ok value => simp [bind, Except.bind]

/-- A sequence of two steps fails exactly when one of them does. -/
theorem bind_eq_error {ε α β : Type} {first : Except ε α} {next : α → Except ε β} {failure : ε} :
    (first >>= next) = .error failure ↔
      first = .error failure ∨ ∃ value, first = .ok value ∧ next value = .error failure := by
  cases first with
  | error raised => simp [bind, Except.bind]
  | ok value => simp [bind, Except.bind]

/-- A check in front of a computation. -/
theorem raiseIf_bind_eq_ok {ε β : Type} {condition : Bool} {failure : ε} {next : Unit → Except ε β}
    {result : β} : (raiseIf condition failure >>= next) = .ok result ↔
      condition = false ∧ next () = .ok result := by
  cases condition <;> simp [raiseIf, bind, Except.bind]

/-- Mapping a computation over a list succeeds exactly when it succeeds on every entry. -/
theorem mapM_eq_ok {ε α β : Type} {step : α → Except ε β} {entries : List α} {results : List β} :
    entries.mapM step = .ok results ↔
      List.Forall₂ (fun entry result ↦ step entry = .ok result) entries results := by
  induction entries generalizing results with
  | nil =>
    cases results <;> simp [pure, Except.pure]
  | cons entry entries ih =>
    rw [List.mapM_cons, bind_eq_ok]
    constructor
    · rintro ⟨result, hresult, hsteps⟩
      obtain ⟨rest, hrest, hresults⟩ := bind_eq_ok.mp hsteps
      cases hresults
      exact .cons hresult (ih.mp hrest)
    · intro hall
      cases hall with
      | cons hresult hrest => exact ⟨_, hresult, bind_eq_ok.mpr ⟨_, ih.mpr hrest, rfl⟩⟩

/-- Mapping a computation that yields a known value where it succeeds. -/
theorem mapM_eq_ok_iff {ε α β : Type} {step : α → Except ε β} {fits : α → Prop} {value : α → β}
    (hstep : ∀ entry result, step entry = .ok result ↔ fits entry ∧ result = value entry)
    {entries : List α} {results : List β} : entries.mapM step = .ok results ↔
      (∀ entry ∈ entries, fits entry) ∧ results = entries.map value := by
  rw [mapM_eq_ok]
  induction entries generalizing results with
  | nil => simp
  | cons entry entries ih =>
    rw [List.forall₂_cons_left_iff, List.forall_mem_cons, List.map_cons]
    constructor
    · rintro ⟨result, rest, hresult, hrest, rfl⟩
      obtain ⟨hfits, rfl⟩ := (hstep _ _).mp hresult
      obtain ⟨hall, rfl⟩ := ih.mp hrest
      exact ⟨⟨hfits, hall⟩, rfl⟩
    · rintro ⟨⟨hfits, hall⟩, rfl⟩
      exact ⟨_, _, (hstep _ _).mpr ⟨hfits, rfl⟩, ih.mpr ⟨hall, rfl⟩, rfl⟩

/-- A result of a mapped computation comes from an entry. -/
theorem exists_of_mapM_eq_ok {ε α β : Type} {step : α → Except ε β} {entries : List α}
    {results : List β} (hall : entries.mapM step = .ok results) {result : β}
    (hmem : result ∈ results) : ∃ entry ∈ entries, step entry = .ok result := by
  induction mapM_eq_ok.mp hall with
  | nil => cases hmem
  | cons hfirst _ ih =>
    rcases List.mem_cons.mp hmem with rfl | hmem
    · exact ⟨_, List.mem_cons_self, hfirst⟩
    · obtain ⟨entry, hentry, hresult⟩ := ih (mapM_eq_ok.mpr ‹_›) hmem
      exact ⟨entry, List.mem_cons_of_mem _ hentry, hresult⟩

/-- A mapped computation succeeds when every step does. -/
theorem exists_mapM_eq_ok {ε α β : Type} {step : α → Except ε β} {entries : List α}
    (hall : ∀ entry ∈ entries, ∃ result, step entry = .ok result) :
    ∃ results, entries.mapM step = .ok results := by
  induction entries with
  | nil => exact ⟨[], rfl⟩
  | cons entry entries ih =>
    obtain ⟨result, hresult⟩ := hall entry List.mem_cons_self
    obtain ⟨rest, hrest⟩ := ih fun other hother ↦ hall other (List.mem_cons_of_mem _ hother)
    exact ⟨result :: rest, mapM_eq_ok.mpr (.cons hresult (mapM_eq_ok.mp hrest))⟩

end DocStore
