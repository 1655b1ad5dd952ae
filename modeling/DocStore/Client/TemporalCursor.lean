import DocStore.Client.Instants
import DocStore.Domain.Host
import Mathlib.Logic.Encodable.Basic
import Mathlib.Logic.Equiv.List

/-!
# Cursor tokens

A `TemporalCursor` pins the instants, the order, the position and the query of a page, with a hash
over them. Its token is the JSON of its fields in base64. `decode` goes through the constructor: it
reads the payload, hands what is there to `TemporalCursor`, and this checks the hash, or computes it
where there is none.

A cursor comes back from its token (`decode_encode`). But not every accepted token is sealed. The
constructor gives a position to a payload without one and a hash to a payload without one, and it
strips the instants before it hashes them; `decode_sealed_iff` says that these are the ways in which
a payload is accepted that its hash does not fit.

JSON, base64 and the digest are parameters (`CursorCodec`), and so is `datetime.fromisoformat`.
-/

set_option autoImplicit false
set_option relaxedAutoImplicit false

namespace DocStore

open Foundation

/-! ### The constructor -/

/-- A payload: the fields of a JSON object. -/
abbrev WirePayload := List (String × WireValue)

/-- `bool(value)`. -/
def WireValue.truthy : WireValue → Bool
  | .null => false
  | .bool value => value
  | .int value => value ≠ 0
  | .str text => !text.isEmpty
  | .other truthy _ => truthy

/-- `str(value)`. -/
def WireValue.text : WireValue → Text
  | .null => lit "None"
  | .bool value => if value then lit "True" else lit "False"
  | .int value => lit (toString value)
  | .str text => text
  | .other _ text => text

/-- What the hash of a cursor is over. -/
structure PinnedState where
  actDate : Text
  knownAt : Text
  orderKey : Text
  position : ℤ
  queryId : Text
  deriving DecidableEq

/-- `TemporalCursor`. -/
structure TemporalCursor extends PinnedState where
  integrity : WireValue
  deriving DecidableEq

/-- What cursors rest on. -/
structure CursorCodec where
  /-- `datetime.fromisoformat`. -/
  fromIsoformat : Text → Option DateTime
  /-- The digest of the canonical JSON of the pinned state. -/
  hashOf : PinnedState → Text
  /-- The canonical JSON of a payload in base64, without padding. -/
  write : WirePayload → Text
  /-- The JSON in a token: nothing where it cannot be decoded, no payload where it is no object. -/
  read : Text → Option (Option WirePayload)

variable (codec : CursorCodec)

/-- `_validate_instant`. -/
def validateInstant (value : WireValue) (fieldName : Text) : Except RequestFailure Text := do
  let _ ← parseInstant codec.fromIsoformat value fieldName
  return strip value.text

/-- The check of `order_key` and of `query_id`. -/
def validateNonEmpty (value : WireValue) (fieldName : Text) : Except RequestFailure Text :=
  match value with
  | .str text =>
    if (strip text).isEmpty then .error (.valueError (fieldName ++ lit " must be non-empty"))
    else .ok text
  | _ => .error (.valueError (fieldName ++ lit " must be non-empty"))

/-- The check of `position`. -/
def validatePosition : WireValue → Except RequestFailure ℤ
  | .int value =>
    if value < 0 then .error (.valueError (lit "position must be a non-negative integer"))
    else .ok value
  | _ => .error (.valueError (lit "position must be a non-negative integer"))

/-- The hash of a cursor: the expected one where there is none, and else the one that is given, if
it is the expected one. `compare_digest` takes ASCII texts only. -/
def checkIntegrity (integrity : WireValue) (expected : Text) : Except RequestFailure WireValue :=
  if integrity.truthy then
    if integrity.text.all fun character ↦ character.toNat < 128 then
      if integrity.text = expected then .ok integrity
      else .error (.valueError (lit "cursor integrity hash does not match its pinned state"))
    else .error .typeError
  else .ok (.str expected)

/-- An argument of the constructor without a default. -/
def requiredField (payload : WirePayload) (name : String) : Except RequestFailure WireValue :=
  (getKey payload name).elim (.error .typeError) .ok

/-- `TemporalCursor(**payload)`. -/
def TemporalCursor.make (payload : WirePayload) : Except RequestFailure TemporalCursor := do
  let actDate ← requiredField payload "act_date"
  let knownAt ← requiredField payload "known_at"
  let orderKey ← requiredField payload "order_key"
  let queryId ← requiredField payload "query_id"
  let actDate ← validateInstant codec actDate (lit "act_date")
  let knownAt ← validateInstant codec knownAt (lit "known_at")
  let orderKey ← validateNonEmpty orderKey (lit "order_key")
  let queryId ← validateNonEmpty queryId (lit "query_id")
  let position ← validatePosition ((getKey payload "position").getD (.int 0))
  let pinned : PinnedState := { actDate, knownAt, orderKey, position, queryId }
  let integrity ← checkIntegrity ((getKey payload "integrity").getD (.str [])) (codec.hashOf pinned)
  return { pinned with integrity }

/-! ### Tokens -/

/-- `fields(TemporalCursor)`. -/
def cursorFields : List String :=
  ["act_date", "known_at", "order_key", "query_id", "position", "integrity"]

/-- `TemporalCursor.from_payload`. -/
def TemporalCursor.fromPayload (payload : WirePayload) : Except RequestFailure TemporalCursor :=
  let unknown := (payload.map Prod.fst).filter fun name ↦ !cursorFields.contains name
  if unknown.isEmpty then TemporalCursor.make codec payload
  else .error (.valueError (lit "unknown TemporalCursor fields: " ++
    joinTexts (lit ", ") (sortedSet (unknown.map lit))))

/-- `TemporalCursor.to_params`. -/
def TemporalCursor.toParams (cursor : TemporalCursor) : WirePayload :=
  [("act_date", .str cursor.actDate), ("known_at", .str cursor.knownAt),
    ("order_key", .str cursor.orderKey), ("query_id", .str cursor.queryId),
    ("position", .int cursor.position), ("integrity", cursor.integrity)]

/-- `TemporalCursor.encode`. -/
def TemporalCursor.encode (cursor : TemporalCursor) : Text := codec.write cursor.toParams

/-- The payload inside a token. -/
def tokenPayload (token : Text) : Option WirePayload :=
  if (strip token).isEmpty then none else (codec.read (strip token)).join

/-- `TemporalCursor.decode`. -/
def TemporalCursor.decode (token : Text) : Except RequestFailure TemporalCursor :=
  if (strip token).isEmpty then .error (.valueError (lit "cursor must be a non-empty token"))
  else
    match codec.read (strip token) with
    | some (some payload) => TemporalCursor.fromPayload codec payload
    | _ => .error (.valueError (lit "cursor is not a valid cursor token"))

/-! ### What a seal is -/

/-- JSON and base64 keep a payload, tokens hold no white space, and the digest is an ASCII text that
two pinned states never share. -/
structure CursorCodec.Faithful : Prop where
  stripped : ∀ payload, strip (codec.write payload) = codec.write payload
  nonempty : ∀ payload, codec.write payload ≠ []
  readBack : ∀ payload, ∃ fields, codec.read (codec.write payload) = some (some fields) ∧
    (∀ name, name ∈ fields.map Prod.fst ↔ name ∈ payload.map Prod.fst) ∧
    ∀ name, getKey fields name = getKey payload name
  sealed : ∀ pinned, codec.hashOf pinned ≠ []
  ascii : ∀ pinned, (codec.hashOf pinned).all (fun character ↦ character.toNat < 128) = true
  injective : Function.Injective codec.hashOf

/-- A payload carries a pinned state, as it stands there. -/
structure Carries (payload : WirePayload) (pinned : PinnedState) : Prop where
  actDate : getKey payload "act_date" = some (.str pinned.actDate)
  knownAt : getKey payload "known_at" = some (.str pinned.knownAt)
  orderKey : getKey payload "order_key" = some (.str pinned.orderKey)
  position : getKey payload "position" = some (.int pinned.position)
  queryId : getKey payload "query_id" = some (.str pinned.queryId)

/-- A payload carries the hash of exactly what it carries. -/
def Sealed (payload : WirePayload) : Prop :=
  ∃ pinned, Carries payload pinned ∧ getKey payload "integrity" = some (.str (codec.hashOf pinned))

/-- A payload states a hash and a position, and its instants without white space around them. -/
structure StatesSeal (payload : WirePayload) : Prop where
  integrity : ∃ text, text ≠ [] ∧ getKey payload "integrity" = some (.str text)
  position : ∃ position, getKey payload "position" = some position
  actDate : ∀ text, getKey payload "act_date" = some (.str text) → strip text = text
  knownAt : ∀ text, getKey payload "known_at" = some (.str text) → strip text = text

/-! ### What each check accepts -/

section Checks

variable {codec} {value integrity : WireValue} {fieldName expected text : Text}
  {payload fields : WirePayload} {cursor : TemporalCursor}

theorem requiredField_eq_ok {name : String} :
    requiredField payload name = .ok value ↔ getKey payload name = some value := by
  unfold requiredField
  cases getKey payload name with
  | none => simp
  | some found => simp

theorem validateInstant_eq_ok :
    validateInstant codec value fieldName = .ok text ↔
      ∃ raw parsed, value = .str raw ∧ strip raw ≠ [] ∧
        stated codec.fromIsoformat raw = some parsed ∧ text = strip raw := by
  rw [validateInstant, bind_eq_ok]
  cases value with
  | str raw =>
    unfold parseInstant
    cases hstated : stated codec.fromIsoformat raw with
    | none => simp [hstated]
    | some parsed =>
      by_cases hempty : strip raw = []
      · simp [hempty]
      · simp only [hempty, hstated, List.isEmpty_iff, if_false, Option.elim_some, Except.ok.injEq,
          exists_eq_left', WireValue.text, pure, Except.pure, WireValue.str.injEq]
        constructor
        · intro htext
          exact ⟨raw, parsed, rfl, hempty, hstated, htext.symm⟩
        · rintro ⟨_, _, rfl, -, -, rfl⟩
          rfl
  | null => simp [parseInstant]
  | bool value => simp [parseInstant]
  | int value => simp [parseInstant]
  | other truthy text => simp [parseInstant]

theorem validateNonEmpty_eq_ok :
    validateNonEmpty value fieldName = .ok text ↔ value = .str text ∧ strip text ≠ [] := by
  unfold validateNonEmpty
  cases value with
  | str raw =>
    by_cases hempty : strip raw = []
    · simp [hempty]
      rintro rfl
      exact hempty
    · simp [hempty]
      rintro rfl
      exact hempty
  | _ => simp

theorem validatePosition_eq_ok {position : ℤ} :
    validatePosition value = .ok position ↔ value = .int position ∧ 0 ≤ position := by
  unfold validatePosition
  cases value with
  | int raw =>
    by_cases hnegative : raw < 0
    · simp [hnegative]
      omega
    · simp [hnegative]
      omega
  | _ => simp

/-- A hash that is given is the expected one, and one that is not given becomes it. -/
theorem checkIntegrity_eq_ok {result : WireValue} :
    checkIntegrity integrity expected = .ok result ↔
      (integrity.truthy = true ∧ (integrity.text.all fun character ↦ character.toNat < 128) = true ∧
          integrity.text = expected ∧ result = integrity) ∨
        (integrity.truthy = false ∧ result = .str expected) := by
  unfold checkIntegrity
  by_cases htruthy : integrity.truthy = true
  · rw [if_pos htruthy]
    by_cases hascii : (integrity.text.all fun character ↦ character.toNat < 128) = true
    · rw [if_pos hascii]
      by_cases hsame : integrity.text = expected
      · rw [if_pos hsame, Except.ok.injEq, eq_comm]
        constructor
        · intro hresult
          exact .inl ⟨htruthy, hascii, hsame, hresult⟩
        · rintro (⟨-, -, -, hresult⟩ | ⟨hfalsy, -⟩)
          · exact hresult
          · rw [htruthy] at hfalsy
            cases hfalsy
      · simp [htruthy, hsame]
    · simp [htruthy, hascii]
  · rw [if_neg htruthy, Except.ok.injEq, eq_comm]
    simp [htruthy]

/-- What the constructor accepts. -/
structure MakesCursor (codec : CursorCodec) (payload : WirePayload) (cursor : TemporalCursor) :
    Prop where
  actDate : ∃ value, getKey payload "act_date" = some value ∧
    validateInstant codec value (lit "act_date") = .ok cursor.actDate
  knownAt : ∃ value, getKey payload "known_at" = some value ∧
    validateInstant codec value (lit "known_at") = .ok cursor.knownAt
  orderKey : ∃ value, getKey payload "order_key" = some value ∧
    validateNonEmpty value (lit "order_key") = .ok cursor.orderKey
  queryId : ∃ value, getKey payload "query_id" = some value ∧
    validateNonEmpty value (lit "query_id") = .ok cursor.queryId
  position : validatePosition ((getKey payload "position").getD (.int 0)) = .ok cursor.position
  integrity : checkIntegrity ((getKey payload "integrity").getD (.str []))
    (codec.hashOf cursor.toPinnedState) = .ok cursor.integrity

theorem make_eq_ok :
    TemporalCursor.make codec payload = .ok cursor ↔ MakesCursor codec payload cursor := by
  simp only [TemporalCursor.make, bind_eq_ok, requiredField_eq_ok]
  constructor
  · rintro ⟨actDate, hactDate, knownAt, hknownAt, orderKey, horderKey, queryId, hqueryId,
      _, hactDates, _, hknownAts, _, horderKeys, _, hqueryIds, _, hposition, _, hintegrity, hcursor⟩
    obtain rfl := Except.ok.inj hcursor
    exact ⟨⟨actDate, hactDate, hactDates⟩, ⟨knownAt, hknownAt, hknownAts⟩,
      ⟨orderKey, horderKey, horderKeys⟩, ⟨queryId, hqueryId, hqueryIds⟩, hposition, hintegrity⟩
  · rintro ⟨⟨actDate, hactDate, hactDates⟩, ⟨knownAt, hknownAt, hknownAts⟩,
      ⟨orderKey, horderKey, horderKeys⟩, ⟨queryId, hqueryId, hqueryIds⟩, hposition, hintegrity⟩
    exact ⟨actDate, hactDate, knownAt, hknownAt, orderKey, horderKey, queryId, hqueryId, _,
      hactDates, _, hknownAts, _, horderKeys, _, hqueryIds, _, hposition, _, hintegrity, rfl⟩

/-- The constructor looks at the values of the fields only. -/
theorem make_congr (hsame : ∀ name, getKey fields name = getKey payload name) :
    TemporalCursor.make codec fields = TemporalCursor.make codec payload := by
  simp only [TemporalCursor.make, requiredField, hsame]

theorem make_of_fromPayload (hpayload : TemporalCursor.fromPayload codec payload = .ok cursor) :
    TemporalCursor.make codec payload = .ok cursor := by
  unfold TemporalCursor.fromPayload at hpayload
  dsimp only at hpayload
  split at hpayload
  · exact hpayload
  · cases hpayload

theorem fromPayload_eq_make (hknown : ∀ name ∈ payload.map Prod.fst, name ∈ cursorFields) :
    TemporalCursor.fromPayload codec payload = TemporalCursor.make codec payload := by
  have hunknown : ((payload.map Prod.fst).filter fun name ↦ !cursorFields.contains name) = [] := by
    rw [List.filter_eq_nil_iff]
    intro name hname
    simp [hknown name hname]
  unfold TemporalCursor.fromPayload
  rw [hunknown]
  rfl

/-- A token that is accepted holds a payload that the constructor accepts. -/
theorem exists_tokenPayload {token : Text}
    (hdecode : TemporalCursor.decode codec token = .ok cursor) :
    ∃ payload, tokenPayload codec token = some payload ∧ MakesCursor codec payload cursor := by
  unfold TemporalCursor.decode at hdecode
  split at hdecode
  · cases hdecode
  · rename_i hnonempty
    split at hdecode
    next payload hread =>
      refine ⟨payload, ?_, make_eq_ok.mp (make_of_fromPayload hdecode)⟩
      rw [tokenPayload, if_neg hnonempty, hread]
      rfl
    next => cases hdecode

end Checks

/-! ### Seals -/

section Seals

variable {codec} {payload : WirePayload} {cursor : TemporalCursor} {token : Text}

/-- A cursor carries its hash. -/
theorem MakesCursor.hash (haccepted : MakesCursor codec payload cursor) (hcodec : codec.Faithful) :
    cursor.integrity.truthy = true ∧
      (cursor.integrity.text.all fun character ↦ character.toNat < 128) = true ∧
      cursor.integrity.text = codec.hashOf cursor.toPinnedState := by
  rcases checkIntegrity_eq_ok.mp haccepted.integrity with
    ⟨htruthy, hascii, hsame, hresult⟩ | ⟨-, hresult⟩
  · rw [hresult]
    exact ⟨htruthy, hascii, hsame⟩
  · rw [hresult]
    refine ⟨?_, hcodec.ascii _, rfl⟩
    simpa [WireValue.truthy] using hcodec.sealed cursor.toPinnedState

/-- An instant that was validated is one, and is stripped. -/
theorem validateInstant_again {value : WireValue} {fieldName text : Text}
    (hvalidated : validateInstant codec value fieldName = .ok text) :
    validateInstant codec (.str text) fieldName = .ok text := by
  obtain ⟨raw, parsed, -, hnonempty, hstated, rfl⟩ := validateInstant_eq_ok.mp hvalidated
  refine validateInstant_eq_ok.mpr ⟨strip raw, parsed, rfl, ?_, ?_, (strip_strip raw).symm⟩
  · rwa [strip_strip]
  · rw [← hstated, stated, stated, strip_strip]

/-- The constructor accepts the fields of a cursor and makes the cursor of them. -/
theorem MakesCursor.toParams (haccepted : MakesCursor codec payload cursor)
    (hcodec : codec.Faithful) : MakesCursor codec cursor.toParams cursor := by
  obtain ⟨_, -, hactDate⟩ := haccepted.actDate
  obtain ⟨_, -, hknownAt⟩ := haccepted.knownAt
  obtain ⟨_, -, horderKey⟩ := haccepted.orderKey
  obtain ⟨_, -, hqueryId⟩ := haccepted.queryId
  exact
    { actDate := ⟨_, rfl, validateInstant_again hactDate⟩
      knownAt := ⟨_, rfl, validateInstant_again hknownAt⟩
      orderKey := ⟨_, rfl, validateNonEmpty_eq_ok.mpr
        ⟨rfl, (validateNonEmpty_eq_ok.mp horderKey).2⟩⟩
      queryId := ⟨_, rfl, validateNonEmpty_eq_ok.mpr ⟨rfl, (validateNonEmpty_eq_ok.mp hqueryId).2⟩⟩
      position := validatePosition_eq_ok.mpr ⟨rfl, (validatePosition_eq_ok.mp haccepted.position).2⟩
      integrity := by
        obtain ⟨htruthy, hascii, hsame⟩ := haccepted.hash hcodec
        exact checkIntegrity_eq_ok.mpr (.inl ⟨htruthy, hascii, hsame, rfl⟩) }

/-- A cursor comes back from its token. -/
theorem decode_encode (hcodec : codec.Faithful)
    (hmake : TemporalCursor.make codec payload = .ok cursor) :
    TemporalCursor.decode codec (cursor.encode codec) = .ok cursor := by
  obtain ⟨fields, hread, hnames, hvalues⟩ := hcodec.readBack cursor.toParams
  have hstrip : strip (cursor.encode codec) = codec.write cursor.toParams := hcodec.stripped _
  have hnonempty : ¬(strip (cursor.encode codec)).isEmpty = true := by
    rw [hstrip, List.isEmpty_iff]
    exact hcodec.nonempty _
  have hknown : ∀ name ∈ fields.map Prod.fst, name ∈ cursorFields := fun name hname ↦
    (hnames name).mp hname
  rw [TemporalCursor.decode, if_neg hnonempty, hstrip, hread]
  dsimp only
  rw [fromPayload_eq_make hknown, make_congr hvalues]
  exact make_eq_ok.mpr ((make_eq_ok.mp hmake).toParams hcodec)

/-- What an accepted payload carries is what is pinned when its instants are stripped and its
position is stated. -/
theorem MakesCursor.carries (haccepted : MakesCursor codec payload cursor)
    (hstates : StatesSeal payload) : Carries payload cursor.toPinnedState := by
  obtain ⟨_, hactDate, hactDates⟩ := haccepted.actDate
  obtain ⟨_, hknownAt, hknownAts⟩ := haccepted.knownAt
  obtain ⟨_, horderKey, horderKeys⟩ := haccepted.orderKey
  obtain ⟨_, hqueryId, hqueryIds⟩ := haccepted.queryId
  obtain ⟨actDate, -, rfl, -, -, hactStrip⟩ := validateInstant_eq_ok.mp hactDates
  obtain ⟨knownAt, -, rfl, -, -, hknownStrip⟩ := validateInstant_eq_ok.mp hknownAts
  obtain ⟨rfl, -⟩ := validateNonEmpty_eq_ok.mp horderKeys
  obtain ⟨rfl, -⟩ := validateNonEmpty_eq_ok.mp hqueryIds
  obtain ⟨position, hposition⟩ := hstates.position
  have hvalue := (validatePosition_eq_ok.mp haccepted.position).1
  rw [hposition, Option.getD_some] at hvalue
  refine ⟨?_, ?_, horderKey, ?_, hqueryId⟩
  · rw [hactStrip, hstates.actDate actDate hactDate]
    exact hactDate
  · rw [hknownStrip, hstates.knownAt knownAt hknownAt]
    exact hknownAt
  · rw [hposition, hvalue]

/-- **An accepted payload is sealed** exactly when it states a hash and a position, and its instants
without white space around them. -/
theorem MakesCursor.sealed_iff (haccepted : MakesCursor codec payload cursor)
    (hcodec : codec.Faithful) : Sealed codec payload ↔ StatesSeal payload := by
  have hhash := haccepted.hash hcodec
  constructor
  · rintro ⟨pinned, hcarries, hintegrity⟩
    have hchecked := haccepted.integrity
    rw [hintegrity, Option.getD_some] at hchecked
    have htruthy : (WireValue.str (codec.hashOf pinned)).truthy = true := by
      simpa [WireValue.truthy] using hcodec.sealed pinned
    have hpinned : pinned = cursor.toPinnedState := by
      rcases checkIntegrity_eq_ok.mp hchecked with ⟨-, -, hsame, -⟩ | ⟨hfalsy, -⟩
      · exact hcodec.injective hsame
      · rw [htruthy] at hfalsy
        cases hfalsy
    obtain ⟨_, hactDate, hactDates⟩ := haccepted.actDate
    obtain ⟨_, hknownAt, hknownAts⟩ := haccepted.knownAt
    obtain ⟨actDate, -, rfl, -, -, hactStrip⟩ := validateInstant_eq_ok.mp hactDates
    obtain ⟨knownAt, -, rfl, -, -, hknownStrip⟩ := validateInstant_eq_ok.mp hknownAts
    refine ⟨⟨_, hcodec.sealed pinned, hintegrity⟩, ⟨_, hcarries.position⟩, ?_, ?_⟩
    · intro text htext
      have hcarried := hcarries.actDate
      rw [htext] at hcarried hactDate
      obtain rfl := WireValue.str.inj (Option.some.inj hactDate)
      rw [← hactStrip, ← hpinned]
      exact (WireValue.str.inj (Option.some.inj hcarried)).symm
    · intro text htext
      have hcarried := hcarries.knownAt
      rw [htext] at hcarried hknownAt
      obtain rfl := WireValue.str.inj (Option.some.inj hknownAt)
      rw [← hknownStrip, ← hpinned]
      exact (WireValue.str.inj (Option.some.inj hcarried)).symm
  · intro hstates
    obtain ⟨text, hnonempty, hintegrity⟩ := hstates.integrity
    refine ⟨cursor.toPinnedState, haccepted.carries hstates, ?_⟩
    have hchecked := haccepted.integrity
    rw [hintegrity, Option.getD_some] at hchecked
    have htruthy : (WireValue.str text).truthy = true := by
      simpa [WireValue.truthy] using hnonempty
    rcases checkIntegrity_eq_ok.mp hchecked with ⟨-, -, hsame, -⟩ | ⟨hfalsy, -⟩
    · rw [hintegrity, ← hsame]
      rfl
    · rw [htruthy] at hfalsy
      cases hfalsy

end Seals

/-- **Tokens and seals.** Every cursor comes back from its token. A payload that `decode` accepts
carries the hash of exactly what it carries if and only if it states a hash and a position, and its
instants without white space around them. -/
theorem decode_sealed_iff {codec : CursorCodec} (hcodec : codec.Faithful) :
    (∀ arguments cursor, TemporalCursor.make codec arguments = .ok cursor →
        TemporalCursor.decode codec (cursor.encode codec) = .ok cursor) ∧
      ∀ token cursor, TemporalCursor.decode codec token = .ok cursor →
        ∃ payload, tokenPayload codec token = some payload ∧
          (Sealed codec payload ↔ StatesSeal payload) := by
  refine ⟨fun arguments cursor hmake ↦ decode_encode hcodec hmake, fun token cursor hdecode ↦ ?_⟩
  obtain ⟨payload, hpayload, haccepted⟩ := exists_tokenPayload hdecode
  exact ⟨payload, hpayload, haccepted.sealed_iff hcodec⟩

/-! ### A token without a hash -/

instance encodableCharacter : Encodable Char :=
  Encodable.ofLeftInverse Char.toNat Char.ofNat Char.ofNat_toNat

instance encodableName : Encodable String :=
  Encodable.ofLeftInverse String.toList String.ofList fun _ ↦ String.ofList_toList

/-- A value as a kind with what it holds. -/
def WireValue.parts : WireValue → ℕ × ℤ × Bool × Text
  | .null => (0, 0, false, [])
  | .bool value => (1, 0, value, [])
  | .int value => (2, value, false, [])
  | .str text => (3, 0, false, text)
  | .other truthy text => (4, 0, truthy, text)

/-- The value of a kind with what it holds. -/
def WireValue.ofParts : ℕ × ℤ × Bool × Text → WireValue
  | (1, _, value, _) => .bool value
  | (2, value, _, _) => .int value
  | (3, _, _, text) => .str text
  | (4, _, truthy, text) => .other truthy text
  | _ => .null

instance encodableWireValue : Encodable WireValue :=
  Encodable.ofLeftInverse WireValue.parts WireValue.ofParts fun value ↦ by cases value <;> rfl

/-- A text that stands for a number. -/
def numeral (number : ℕ) : Text := 'a' :: List.replicate number 'a'

theorem eq_of_mem_numeral {number : ℕ} {character : Char} (hmem : character ∈ numeral number) :
    character = 'a' := by
  rcases List.mem_cons.mp hmem with rfl | hmem
  · rfl
  · exact List.eq_of_mem_replicate hmem

theorem strip_numeral (number : ℕ) : strip (numeral number) = numeral number := by
  have hletter : ∀ character ∈ numeral number, isSpace character = false := by
    intro character hcharacter
    rw [eq_of_mem_numeral hcharacter]
    decide
  have hfirst : (numeral number).dropWhile isSpace = numeral number := by
    rw [List.dropWhile_eq_self_iff]
    intro hlength
    rw [hletter _ (List.getElem_mem hlength)]
    decide
  rw [strip, hfirst, List.rdropWhile_eq_self_iff]
  intro hne
  rw [hletter _ (List.getLast_mem hne)]
  decide

/-- A codec whose tokens and hashes are numbers. -/
def numeralCodec : CursorCodec where
  fromIsoformat := secondsIsoformat
  hashOf pinned := numeral (Encodable.encode
    (pinned.actDate, pinned.knownAt, pinned.orderKey, pinned.position, pinned.queryId))
  write payload := numeral (Encodable.encode payload)
  read token := some (Encodable.decode (token.length - 1))

theorem read_write_numeral (payload : WirePayload) :
    numeralCodec.read (numeralCodec.write payload) = some (some payload) := by
  have hlength : (numeral (Encodable.encode payload)).length - 1 = Encodable.encode payload := by
    rw [numeral, List.length_cons, List.length_replicate, Nat.add_sub_cancel]
  change some (Encodable.decode ((numeral (Encodable.encode payload)).length - 1)) = _
  rw [hlength, Encodable.encodek]

theorem faithful_numeralCodec : numeralCodec.Faithful where
  stripped _ := strip_numeral _
  nonempty _ := List.cons_ne_nil _ _
  readBack payload := ⟨payload, read_write_numeral payload, fun _ ↦ Iff.rfl, fun _ ↦ rfl⟩
  sealed _ := List.cons_ne_nil _ _
  ascii pinned := by
    refine List.all_eq_true.mpr fun character hcharacter ↦ ?_
    rw [eq_of_mem_numeral hcharacter]
    decide
  injective first second hsame := by
    have hnumber := congrArg List.length (List.cons.inj hsame).2
    rw [List.length_replicate, List.length_replicate] at hnumber
    have hparts := Encodable.encode_injective hnumber
    cases first
    cases second
    simpa using hparts

/-- The codec of numbers. -/
theorem decode_sealed_iff_numeral :
    (∀ arguments cursor, TemporalCursor.make numeralCodec arguments = .ok cursor →
        TemporalCursor.decode numeralCodec (cursor.encode numeralCodec) = .ok cursor) ∧
      ∀ token cursor, TemporalCursor.decode numeralCodec token = .ok cursor →
        ∃ payload, tokenPayload numeralCodec token = some payload ∧
          (Sealed numeralCodec payload ↔ StatesSeal payload) :=
  decode_sealed_iff faithful_numeralCodec

/-- The state of a page. -/
def pagedState : PinnedState where
  actDate := lit "2026-01-01T00:00:00Z"
  knownAt := lit "2026-01-01T00:00:00Z"
  orderKey := lit "title"
  position := 40
  queryId := lit "q"

/-- The payload of a cursor without its hash. -/
def unsealedPayload : WirePayload :=
  [("act_date", .str pagedState.actDate), ("known_at", .str pagedState.knownAt),
    ("order_key", .str pagedState.orderKey), ("query_id", .str pagedState.queryId),
    ("position", .int pagedState.position)]

/-- Whatever the codec, the token of a payload without a hash is accepted. -/
theorem exists_unsealed {codec : CursorCodec} (hcodec : codec.Faithful)
    (hinstants : codec.fromIsoformat = secondsIsoformat) : ∃ token cursor payload,
    TemporalCursor.decode codec token = .ok cursor ∧ tokenPayload codec token = some payload ∧
      ¬Sealed codec payload := by
  obtain ⟨fields, hread, hnames, hvalues⟩ := hcodec.readBack unsealedPayload
  have hnonempty : ¬(codec.write unsealedPayload).isEmpty = true := by
    rw [List.isEmpty_iff]
    exact hcodec.nonempty _
  have hinstant (fieldName : Text) :
      validateInstant codec (.str (lit "2026-01-01T00:00:00Z")) fieldName =
        .ok (lit "2026-01-01T00:00:00Z") := by
    refine validateInstant_eq_ok.mpr ⟨_, newYear, rfl, by decide, ?_, by decide⟩
    rw [hinstants]
    decide +kernel
  have horderKey : strip pagedState.orderKey ≠ [] := by decide
  have hqueryId : strip pagedState.queryId ≠ [] := by decide
  have hposition : 0 ≤ pagedState.position := by decide
  have hmakes : MakesCursor codec unsealedPayload
      { toPinnedState := pagedState, integrity := .str (codec.hashOf pagedState) } :=
    { actDate := ⟨_, rfl, hinstant _⟩
      knownAt := ⟨_, rfl, hinstant _⟩
      orderKey := ⟨_, rfl, validateNonEmpty_eq_ok.mpr ⟨rfl, horderKey⟩⟩
      queryId := ⟨_, rfl, validateNonEmpty_eq_ok.mpr ⟨rfl, hqueryId⟩⟩
      position := validatePosition_eq_ok.mpr ⟨rfl, hposition⟩
      integrity := checkIntegrity_eq_ok.mpr (.inr ⟨rfl, rfl⟩) }
  have hknown : ∀ name ∈ fields.map Prod.fst, name ∈ cursorFields := by
    intro name hname
    have hpayload := (hnames name).mp hname
    have hfields : ∀ name ∈ unsealedPayload.map Prod.fst, name ∈ cursorFields := by decide
    exact hfields name hpayload
  refine ⟨codec.write unsealedPayload,
    { toPinnedState := pagedState, integrity := .str (codec.hashOf pagedState) }, fields, ?_, ?_, ?_⟩
  · rw [TemporalCursor.decode, hcodec.stripped, if_neg hnonempty, hread]
    dsimp only
    rw [fromPayload_eq_make hknown, make_congr hvalues]
    exact make_eq_ok.mpr hmakes
  · rw [tokenPayload, hcodec.stripped, if_neg hnonempty, hread]
    rfl
  · rintro ⟨pinned, -, hintegrity⟩
    rw [hvalues] at hintegrity
    cases hintegrity

/-- A token whose payload has no hash is accepted. -/
theorem decode_unsealed : ∃ token cursor payload,
    TemporalCursor.decode numeralCodec token = .ok cursor ∧
      tokenPayload numeralCodec token = some payload ∧ ¬Sealed numeralCodec payload :=
  exists_unsealed faithful_numeralCodec rfl

end DocStore
