import DocStore.Foundation.Patterns
import DocStore.Foundation.Utf8
import DocStore.Ingestion.Publication
import Mathlib.Order.Bounds.Basic

/-!
# The diagnostic of a refused round trip

When the text that was reconstructed is not the source, `_integrity_verdict` says where they part,
in bytes, and `build_integrity_diagnostic` makes of that what the caller is told: the locator, and
what stands before and behind it in the source, as far as a limit goes and as a policy redacts it.

The verdict is always one that the diagnostic accepts (`exists_diagnostic`): the offset is where the
encodings part, it is reported once, and the two contexts meet at the last character boundary that is
not behind it. An outcome is one of three here, so that the check for unknown outcomes is left out.
-/

set_option autoImplicit false
set_option relaxedAutoImplicit false

namespace DocStore

open Foundation

/-! ### Redaction -/

/-- `_MASK_CHARACTER`. -/
def maskCharacter : Char := '*'

/-- `_mask`. -/
def maskText (value : Text) : Text := List.replicate value.length maskCharacter

/-- The code points of the digits zero: what `\d` matches are these and the nine behind each. -/
def decimalZeros : List ℕ :=
  [0x30, 0x660, 0x6f0, 0x7c0, 0x966, 0x9e6, 0xa66, 0xae6, 0xb66, 0xbe6, 0xc66, 0xce6, 0xd66, 0xde6,
    0xe50, 0xed0, 0xf20, 0x1040, 0x1090, 0x17e0, 0x1810, 0x1946, 0x19d0, 0x1a80, 0x1a90, 0x1b50,
    0x1bb0, 0x1c40, 0x1c50, 0xa620, 0xa8d0, 0xa900, 0xa9d0, 0xa9f0, 0xaa50, 0xabf0, 0xff10, 0x104a0,
    0x10d30, 0x11066, 0x110f0, 0x11136, 0x111d0, 0x112f0, 0x11450, 0x114d0, 0x11650, 0x116c0,
    0x11730, 0x118e0, 0x11950, 0x11c50, 0x11d50, 0x11da0, 0x11f50, 0x16a60, 0x16ac0, 0x16b50,
    0x1d7ce, 0x1d7d8, 0x1d7e2, 0x1d7ec, 0x1d7f6, 0x1e140, 0x1e2f0, 0x1e4f0, 0x1e950, 0x1fbf0]

/-- `\d`. -/
def isDecimal (character : Char) : Bool :=
  decimalZeros.any fun first ↦ first ≤ character.toNat && character.toNat < first + 10

/-- `[A-Za-z0-9._%+-]`. -/
def isMailLocal (character : Char) : Bool :=
  character.isAlphanum || ['.', '_', '%', '+', '-'].contains character

/-- `[A-Za-z0-9.-]`. -/
def isMailDomain (character : Char) : Bool :=
  character.isAlphanum || ['.', '-'].contains character

/-- `[\d ()\-]`. -/
def isTelephone (character : Char) : Bool :=
  isDecimal character || [' ', '(', ')', '-'].contains character

/-- `[A-Za-z0-9._%+-]+@[A-Za-z0-9.-]+\.[A-Za-z]{2,}`. -/
def mailPattern : Pattern Char :=
  .seq (.atLeast 1 isMailLocal) <| .seq (.one fun character ↦ character = '@') <|
    .seq (.atLeast 1 isMailDomain) <| .seq (.one fun character ↦ character = '.') <|
      .atLeast 2 Char.isAlpha

/-- `\+?\d[\d ()\-]{7,}\d`. -/
def telephonePattern : Pattern Char :=
  .seq (.optional (.one fun character ↦ character = '+')) <| .seq (.one isDecimal) <|
    .seq (.atLeast 7 isTelephone) (.one isDecimal)

/-- `\d{4,}`. -/
def numberPattern : Pattern Char := .atLeast 4 isDecimal

/-- `_PII_PATTERNS`. -/
def piiPatterns : List (Pattern Char) := [mailPattern, telephonePattern, numberPattern]

/-- `_redact_pii`. -/
def redactPii (value : Text) : Text := maskAll maskCharacter piiPatterns value

/-- `REDACTION_POLICIES`. -/
def redactionPolicies : List (Text × (Text → Text)) :=
  [(lit "none", fun value ↦ value), (lit "redact_pii", redactPii), (lit "redact_all", maskText)]

/-- `REDACTION_POLICIES.get(redaction_policy, _redact_everything)`. -/
def redactionOf (redactionPolicy : Text) : Text → Text :=
  (getKey redactionPolicies redactionPolicy).getD maskText

/-- Redaction keeps the length of a text. -/
@[simp] theorem length_redactionOf (redactionPolicy value : Text) :
    (redactionOf redactionPolicy value).length = value.length := by
  have hmask : (maskText value).length = value.length := List.length_replicate ..
  unfold redactionOf redactionPolicies
  simp only [getKey]
  split
  · rfl
  · split
    · exact length_maskAll _ _ _
    · split
      · exact hmask
      · exact hmask

/-! ### The diagnostic -/

/-- `SourceSpanDiagnostic`. -/
structure SourceSpanDiagnostic where
  spanId : Uuid
  sourceStateAssertionId : Option Uuid
  documentId : Option Uuid
  chapterId : Option Uuid
  chunkId : Option Uuid
  characterStart : ℕ
  characterEnd : ℕ
  byteOffset : Option ℕ
  lengthBoundary : Option ℕ
  contextBefore : Option Text
  contextAfter : Option Text
  authorizationDecision : Text
  redactionPolicy : Text
  redactionApplied : Bool
  page : Option ℤ
  boundingBox : Option Dict
  fragmentSha256 : Text

/-- The arguments of `build_integrity_diagnostic`, and the `uuid4()` of the span. -/
structure DiagnosticCall where
  spanId : Uuid
  sourceText : Text
  reconstructedText : Text
  integrityOutcome : IntegrityOutcome
  firstDifferenceOffset : Option ℤ
  documentId : Option Uuid
  chapterId : Option Uuid
  chunkId : Option Uuid
  authorization : Text
  redactionPolicy : Text
  contextLimit : ℤ
  sourceStateAssertionId : Option Uuid := none
  page : Option ℤ := none
  boundingBox : Option Dict := none

/-- `CONTEXT_AUTHORIZED_DECISIONS`. -/
def contextAuthorizedDecisions : List Text := [lit "owner", lit "operator", lit "auditor"]

/-- The check of the locator. -/
def locatorOf (firstDifferenceOffset : Option ℤ) : Except Failure ℕ :=
  match firstDifferenceOffset with
  | none => .error (.value "a difference locator needs a non-negative byte offset")
  | some offset =>
    if offset < 0 then .error (.value "a difference locator needs a non-negative byte offset")
    else .ok offset.toNat

/-- The character boundary at which the contexts meet. -/
def DiagnosticCall.located (call : DiagnosticCall) (offset : ℕ) : ℕ :=
  (decodeIgnoring ((encodeUtf8 call.sourceText).take offset)).length

/-- The start of the window. -/
def DiagnosticCall.windowStart (call : DiagnosticCall) (offset : ℕ) : ℕ :=
  call.located offset - call.contextLimit.toNat

/-- The end of the window. -/
def DiagnosticCall.windowEnd (call : DiagnosticCall) (offset : ℕ) : ℕ :=
  min call.sourceText.length (call.located offset + call.contextLimit.toNat)

/-- What stands in the window before the boundary. -/
def DiagnosticCall.exactBefore (call : DiagnosticCall) (offset : ℕ) : Text :=
  slice call.sourceText (call.windowStart offset) (call.located offset)

/-- What stands in the window behind the boundary. -/
def DiagnosticCall.exactAfter (call : DiagnosticCall) (offset : ℕ) : Text :=
  slice call.sourceText (call.located offset) (call.windowEnd offset)

/-- What is told about a difference at an offset. -/
def DiagnosticCall.diagnostic (host : Host) (call : DiagnosticCall) (offset : ℕ) :
    SourceSpanDiagnostic :=
  let exactBefore := call.exactBefore offset
  let exactAfter := call.exactAfter offset
  let redactedBefore := redactionOf call.redactionPolicy exactBefore
  let redactedAfter := redactionOf call.redactionPolicy exactAfter
  let authorized := contextAuthorizedDecisions.contains call.authorization
  let fragment := slice call.sourceText (call.windowStart offset) (call.windowEnd offset)
  { spanId := call.spanId
    sourceStateAssertionId := call.sourceStateAssertionId
    documentId := call.documentId
    chapterId := call.chapterId
    chunkId := call.chunkId
    characterStart := call.windowStart offset
    characterEnd := call.windowEnd offset
    byteOffset := if call.integrityOutcome = .mismatch then some offset else none
    lengthBoundary := if call.integrityOutcome = .lengthBoundary then some offset else none
    contextBefore :=
      if authorized then some (redactedBefore.take call.contextLimit.toNat) else none
    contextAfter := if authorized then some (redactedAfter.take call.contextLimit.toNat) else none
    authorizationDecision := call.authorization
    redactionPolicy := call.redactionPolicy
    redactionApplied := authorized && (redactedBefore ≠ exactBefore || redactedAfter ≠ exactAfter)
    page := call.page
    boundingBox := call.boundingBox
    fragmentSha256 := host.hexdigest fragment }

/-- `build_integrity_diagnostic`. -/
def buildIntegrityDiagnostic (host : Host) (call : DiagnosticCall) :
    Except Failure SourceSpanDiagnostic := do
  raiseIf (call.integrityOutcome = .matching)
    (.value "a matching round trip has no integrity diagnostic to build")
  raiseIf (call.sourceText = call.reconstructedText)
    (.value "identical source and reconstruction cannot carry a difference locator")
  let offset ← locatorOf call.firstDifferenceOffset
  raiseIf call.authorization.isEmpty
    (.value "a span must name the authorization decision made for its caller")
  raiseIf call.redactionPolicy.isEmpty
    (.value "a span must name the redaction policy applied to its context")
  raiseIf (call.contextLimit < 0) (.value "a context limit cannot be negative")
  raiseIf (max (encodeUtf8 call.sourceText).length (encodeUtf8 call.reconstructedText).length <
      offset)
    (.value "the difference locator lies past the end of both compared texts")
  return call.diagnostic host offset

/-! ### The verdict -/

/-- The lengths up to which two lists agree. -/
def commonPrefixes {α : Type*} (first second : List α) : Set ℕ :=
  {count | count ≤ first.length ∧ count ≤ second.length ∧ first.take count = second.take count}

/-- The position of the first difference is the length of the longest common prefix. -/
theorem isGreatest_firstDifference (first second : List UInt8) :
    IsGreatest (commonPrefixes first second) (firstDifference first second) := by
  induction first generalizing second with
  | nil =>
    rw [firstDifference.eq_def]
    exact ⟨⟨Nat.le_refl 0, Nat.zero_le _, rfl⟩, fun count hcount ↦ hcount.1⟩
  | cons byte first ih =>
    cases second with
    | nil => exact ⟨⟨Nat.zero_le _, Nat.le_refl 0, rfl⟩, fun count hcount ↦ hcount.2.1⟩
    | cons other second =>
      rw [firstDifference]
      by_cases hbyte : byte = other
      · subst hbyte
        rw [if_pos rfl]
        obtain ⟨⟨hfirst, hsecond, htake⟩, hgreatest⟩ := ih second
        refine ⟨⟨Nat.succ_le_succ hfirst, Nat.succ_le_succ hsecond, congrArg (byte :: ·) htake⟩, ?_⟩
        rintro (_ | count) ⟨hfirst, hsecond, htake⟩
        · exact Nat.zero_le _
        · exact Nat.succ_le_succ (hgreatest ⟨Nat.le_of_succ_le_succ hfirst,
            Nat.le_of_succ_le_succ hsecond, (List.cons.inj htake).2⟩)
      · rw [if_neg hbyte]
        refine ⟨⟨Nat.zero_le _, Nat.zero_le _, rfl⟩, ?_⟩
        rintro (_ | count) ⟨-, -, htake⟩
        · exact Nat.le_refl 0
        · exact absurd (List.cons.inj htake).1 hbyte

/-- The first difference is at the end of the shorter list exactly when that is a prefix. -/
theorem firstDifference_eq_min_iff {first second : List UInt8} :
    firstDifference first second = min first.length second.length ↔
      first <+: second ∨ second <+: first := by
  obtain ⟨⟨hfirst, hsecond, htake⟩, hgreatest⟩ := isGreatest_firstDifference first second
  constructor
  · intro hmin
    rcases Nat.le_total first.length second.length with hle | hle
    · rw [hmin, Nat.min_eq_left hle, List.take_length] at htake
      exact .inl (htake ▸ List.take_prefix _ _)
    · rw [hmin, Nat.min_eq_right hle, List.take_length] at htake
      exact .inr (htake ▸ List.take_prefix _ _)
  · intro hleading
    refine Nat.le_antisymm (Nat.le_min.mpr ⟨hfirst, hsecond⟩) (hgreatest ?_)
    rcases hleading with hleading | hleading
    · rw [Nat.min_eq_left hleading.length_le]
      exact ⟨Nat.le_refl _, hleading.length_le, by
        rw [List.take_length]
        exact List.prefix_iff_eq_take.mp hleading⟩
    · rw [Nat.min_eq_right hleading.length_le]
      exact ⟨hleading.length_le, Nat.le_refl _, by
        rw [List.take_length]
        exact (List.prefix_iff_eq_take.mp hleading).symm⟩

/-- What the verdict says of two texts: where the encodings part, and whether one of them ends
there. -/
structure Measures (sourceText reconstructedText : Text) (verdict : IntegrityOutcome × Option ℕ)
    (offset : ℕ) : Prop where
  reported : verdict.2 = some offset
  greatest : IsGreatest
    (commonPrefixes (encodeUtf8 sourceText) (encodeUtf8 reconstructedText)) offset
  lengthBoundary : verdict.1 = .lengthBoundary ↔
    encodeUtf8 sourceText <+: encodeUtf8 reconstructedText ∨
      encodeUtf8 reconstructedText <+: encodeUtf8 sourceText
  mismatch : verdict.1 = .mismatch ↔
    ¬(encodeUtf8 sourceText <+: encodeUtf8 reconstructedText ∨
      encodeUtf8 reconstructedText <+: encodeUtf8 sourceText)

theorem measures_integrityVerdict {sourceText reconstructedText : Text}
    (hne : sourceText ≠ reconstructedText) :
    Measures sourceText reconstructedText (integrityVerdict sourceText reconstructedText)
      (firstDifference (encodeUtf8 sourceText) (encodeUtf8 reconstructedText)) := by
  have hleading :=
    @firstDifference_eq_min_iff (encodeUtf8 sourceText) (encodeUtf8 reconstructedText)
  rw [integrityVerdict, if_neg hne]
  dsimp only
  split
  next hmin => exact ⟨rfl, isGreatest_firstDifference _ _, by simp [hleading.mp hmin],
    by simp [hleading.mp hmin]⟩
  next hmin => exact ⟨rfl, isGreatest_firstDifference _ _, by simp [← hleading, hmin],
    by simp [← hleading, hmin]⟩

/-! ### What is told -/

/-- What the diagnostic tells of a difference at an offset.
- `oneLocator`: it is reported as the offset of a byte or as a length boundary, and not as both;
- `lastBoundary`: the last character boundary of the source that is not behind the offset;
- `before`, `after`: the contexts are redacted pieces of the source that meet there, and are no
  longer than the limit. -/
structure Tells (call : DiagnosticCall) (offset boundary : ℕ) (diagnostic : SourceSpanDiagnostic) :
    Prop where
  oneLocator : (diagnostic.byteOffset = some offset ∧ diagnostic.lengthBoundary = none) ∨
    (diagnostic.byteOffset = none ∧ diagnostic.lengthBoundary = some offset)
  lastBoundary : IsGreatest (boundariesWithin call.sourceText offset) boundary
  before : ∀ context, diagnostic.contextBefore = some context →
    (context.length : ℤ) ≤ call.contextLimit ∧
      diagnostic.characterStart + context.length = boundary ∧
      context = redactionOf call.redactionPolicy
        (slice call.sourceText diagnostic.characterStart boundary)
  after : ∀ context, diagnostic.contextAfter = some context →
    (context.length : ℤ) ≤ call.contextLimit ∧
      boundary + context.length = diagnostic.characterEnd ∧
      context = redactionOf call.redactionPolicy
        (slice call.sourceText boundary diagnostic.characterEnd)

section Tells

variable {host : Host} {call : DiagnosticCall} {offset : ℕ}

theorem located_le (call : DiagnosticCall) (offset : ℕ) :
    call.located offset ≤ call.sourceText.length :=
  (isGreatest_decodeIgnoring call.sourceText offset).1.1

theorem length_exactBefore (call : DiagnosticCall) (offset : ℕ) :
    (call.exactBefore offset).length = call.located offset - call.windowStart offset :=
  length_slice_of_le _ (located_le call offset)

theorem length_exactAfter (call : DiagnosticCall) (offset : ℕ) :
    (call.exactAfter offset).length = call.windowEnd offset - call.located offset :=
  length_slice_of_le _ (Nat.min_le_left _ _)

/-- The contexts are bounded by the windows already. -/
theorem take_redactionOf {context : Text} (hlength : context.length ≤ call.contextLimit.toNat) :
    (redactionOf call.redactionPolicy context).take call.contextLimit.toNat =
      redactionOf call.redactionPolicy context :=
  List.take_of_length_le (by rwa [length_redactionOf])

/-- The diagnostic of a difference tells where it is and what stands around it. -/
theorem tells_diagnostic (hdifference : call.integrityOutcome ≠ .matching)
    (hlimit : 0 ≤ call.contextLimit) :
    Tells call offset (call.located offset) (call.diagnostic host offset) := by
  have hlocated := located_le call offset
  have hbound : (call.contextLimit.toNat : ℤ) = call.contextLimit := Int.toNat_of_nonneg hlimit
  have hbefore : (call.exactBefore offset).length ≤ call.contextLimit.toNat := by
    rw [length_exactBefore, DiagnosticCall.windowStart]
    omega
  have hafter : (call.exactAfter offset).length ≤ call.contextLimit.toNat := by
    rw [length_exactAfter, DiagnosticCall.windowEnd]
    omega
  refine ⟨?_, isGreatest_decodeIgnoring call.sourceText offset, fun context hcontext ↦ ?_,
    fun context hcontext ↦ ?_⟩
  · cases houtcome : call.integrityOutcome with
    | matching => exact absurd houtcome hdifference
    | lengthBoundary => exact .inr (by simp [DiagnosticCall.diagnostic, houtcome])
    | mismatch => exact .inl (by simp [DiagnosticCall.diagnostic, houtcome])
  · simp only [DiagnosticCall.diagnostic, Option.ite_none_right_eq_some, Option.some.injEq] at hcontext
    obtain ⟨-, rfl⟩ := hcontext
    rw [take_redactionOf hbefore, length_redactionOf]
    refine ⟨by omega, ?_, rfl⟩
    rw [length_exactBefore]
    exact Nat.add_sub_cancel' (Nat.sub_le _ _)
  · simp only [DiagnosticCall.diagnostic, Option.ite_none_right_eq_some, Option.some.injEq] at hcontext
    obtain ⟨-, rfl⟩ := hcontext
    rw [take_redactionOf hafter, length_redactionOf]
    refine ⟨by omega, ?_, rfl⟩
    rw [length_exactAfter]
    exact Nat.add_sub_cancel' (Nat.le_min.mpr ⟨hlocated, Nat.le_add_right _ _⟩)

/-- A call that passes every check returns its diagnostic. -/
theorem buildIntegrityDiagnostic_eq_ok (hdifference : call.integrityOutcome ≠ .matching)
    (hne : call.sourceText ≠ call.reconstructedText)
    (hoffset : call.firstDifferenceOffset = some (offset : ℤ)) (hauthorization : call.authorization ≠ [])
    (hpolicy : call.redactionPolicy ≠ []) (hlimit : 0 ≤ call.contextLimit)
    (hbound : offset ≤ (encodeUtf8 call.sourceText).length) :
    buildIntegrityDiagnostic host call = .ok (call.diagnostic host offset) := by
  have hlocator : locatorOf call.firstDifferenceOffset = .ok offset := by
    rw [hoffset, locatorOf]
    exact if_neg (Int.not_lt.mpr (Int.natCast_nonneg offset))
  unfold buildIntegrityDiagnostic
  rw [raiseIf_bind_eq_ok, raiseIf_bind_eq_ok, bind_eq_ok]
  refine ⟨decide_eq_false hdifference, decide_eq_false hne, offset, hlocator, ?_⟩
  rw [raiseIf_bind_eq_ok, raiseIf_bind_eq_ok, raiseIf_bind_eq_ok, raiseIf_bind_eq_ok]
  exact ⟨List.isEmpty_eq_false_iff.mpr hauthorization, List.isEmpty_eq_false_iff.mpr hpolicy,
    decide_eq_false (Int.not_lt.mpr hlimit),
    decide_eq_false (Nat.not_lt.mpr (Nat.le_trans hbound (Nat.le_max_left _ _))), rfl⟩

end Tells

/-- **Verdict and diagnostic fit together.** For two different texts the verdict is where their
encodings part, and whether one of them ends there. Called with it and with any limit that is not
negative, under a decision and a policy that have names, the diagnostic is built; it reports the
offset once, and its contexts meet at the last character boundary of the source that is not behind
the offset and are no longer than the limit. -/
theorem exists_diagnostic {sourceText reconstructedText : Text}
    (hne : sourceText ≠ reconstructedText) : ∃ offset,
    Measures sourceText reconstructedText (integrityVerdict sourceText reconstructedText) offset ∧
      ∀ (host : Host) (call : DiagnosticCall), call.sourceText = sourceText →
        call.reconstructedText = reconstructedText →
        call.integrityOutcome = (integrityVerdict sourceText reconstructedText).1 →
        call.firstDifferenceOffset =
          (integrityVerdict sourceText reconstructedText).2.map Int.ofNat →
        call.authorization ≠ [] → call.redactionPolicy ≠ [] → 0 ≤ call.contextLimit →
        ∃ diagnostic boundary, buildIntegrityDiagnostic host call = .ok diagnostic ∧
          Tells call offset boundary diagnostic := by
  have hmeasures := measures_integrityVerdict hne
  refine ⟨_, hmeasures, ?_⟩
  rintro host call rfl rfl houtcome hoffset hauthorization hpolicy hlimit
  have hdifference : call.integrityOutcome ≠ .matching := by
    rw [houtcome]
    intro hmatching
    have hboundary := hmeasures.lengthBoundary
    have hmismatch := hmeasures.mismatch
    rw [hmatching] at hboundary hmismatch
    by_cases hleading : encodeUtf8 call.sourceText <+: encodeUtf8 call.reconstructedText ∨
        encodeUtf8 call.reconstructedText <+: encodeUtf8 call.sourceText
    · cases hboundary.mpr hleading
    · cases hmismatch.mpr hleading
  rw [hmeasures.reported] at hoffset
  exact ⟨_, _, buildIntegrityDiagnostic_eq_ok hdifference hne hoffset hauthorization hpolicy hlimit
    hmeasures.greatest.1.1, tells_diagnostic hdifference hlimit⟩

/-- Two texts that part inside of a character of two bytes. -/
theorem exists_diagnostic_inside_character : ∃ offset,
    Measures (lit "aé") (lit "aè") (integrityVerdict (lit "aé") (lit "aè")) offset ∧
      ∃ diagnostic boundary, buildIntegrityDiagnostic sampleHost
        { spanId := 1, sourceText := lit "aé", reconstructedText := lit "aè"
          integrityOutcome := .mismatch, firstDifferenceOffset := some 2, documentId := some 2
          chapterId := some 3, chunkId := some 4, authorization := lit "owner"
          redactionPolicy := lit "redact_pii", contextLimit := 64 } = .ok diagnostic ∧
        Tells
          { spanId := 1, sourceText := lit "aé", reconstructedText := lit "aè"
            integrityOutcome := .mismatch, firstDifferenceOffset := some 2, documentId := some 2
            chapterId := some 3, chunkId := some 4, authorization := lit "owner"
            redactionPolicy := lit "redact_pii", contextLimit := 64 } offset boundary diagnostic := by
  obtain ⟨offset, hmeasures, hdiagnostic⟩ :=
    @exists_diagnostic (lit "aé") (lit "aè") (by decide)
  exact ⟨offset, hmeasures, hdiagnostic sampleHost _ rfl rfl (by decide +kernel) (by decide +kernel)
    (by decide) (by decide) (by decide)⟩

end DocStore
