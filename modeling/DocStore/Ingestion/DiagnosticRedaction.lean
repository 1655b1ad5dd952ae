import DocStore.Ingestion.IntegrityDiagnostics

/-!
# What a redacted diagnostic shows

`_redact_pii` looks for its patterns in each of the two contexts of a diagnostic, not in the source.
A match that begins in front of a context, or goes on behind it, need not be one there any more, and
where the contexts meet a match can fall apart into two pieces that are none. And the patterns are
applied one behind the other: what one has masked, a later one does not see.

Where no match of a pattern is cut by what the patterns in front of it mask, the contexts show
nothing of a match of the source exactly when what they have of it belongs to matches of their own
(`leaksNothing_iff`), which is so when no match of the source crosses an edge of a context
(`foundAgain_of_spares`). Redaction itself is safe to apply (`redactPii_safe`): whatever the patterns
mask, none of them matches what is left.
-/

set_option autoImplicit false
set_option relaxedAutoImplicit false

namespace DocStore

open Foundation

/-- A character that belongs to a match of a pattern. -/
def IsPersonal (text : Text) (position : ℕ) : Prop :=
  ∃ pattern ∈ piiPatterns, (pattern.covered text)[position]? = some true

/-- Each character of the contexts that belongs to a match in the whole source is masked. -/
structure LeaksNothing (call : DiagnosticCall) (offset : ℕ) (diagnostic : SourceSpanDiagnostic) :
    Prop where
  before : ∀ context, diagnostic.contextBefore = some context → ∀ position < context.length,
    IsPersonal call.sourceText (call.windowStart offset + position) →
      context[position]? = some maskCharacter
  after : ∀ context, diagnostic.contextAfter = some context → ∀ position < context.length,
    IsPersonal call.sourceText (call.located offset + position) →
      context[position]? = some maskCharacter

/-- What the contexts have of a match in the whole source belongs to matches in them. -/
structure FoundAgain (call : DiagnosticCall) (offset : ℕ) : Prop where
  before : ∀ position < (call.exactBefore offset).length,
    IsPersonal call.sourceText (call.windowStart offset + position) →
      IsPersonal (call.exactBefore offset) position
  after : ∀ position < (call.exactAfter offset).length,
    IsPersonal call.sourceText (call.located offset + position) →
      IsPersonal (call.exactAfter offset) position

/-! ### Contexts -/

/-- No pattern accepts the mask. -/
theorem accepts_maskCharacter : ∀ pattern ∈ piiPatterns, pattern.accepts maskCharacter = false := by
  decide

/-- A character of a match is not the mask. -/
theorem IsPersonal.ne_mask {text : Text} {position : ℕ} (hpersonal : IsPersonal text position) :
    text[position]? ≠ some maskCharacter := by
  obtain ⟨pattern, hpattern, hcovered⟩ := hpersonal
  obtain ⟨letter, hletter, haccepts⟩ := accepts_of_covered hcovered
  rintro hmask
  rw [hletter, Option.some.injEq] at hmask
  rw [hmask, accepts_maskCharacter pattern hpattern] at haccepts
  cases haccepts

/-- No pattern has an empty match. -/
theorem leastLength_pos : ∀ pattern ∈ piiPatterns, 0 < pattern.leastLength := by
  decide

/-- **Redaction is safe to apply.** It keeps the length, changes a character to the mask only, leaves
no match of a pattern anywhere, and changes nothing when it is applied again. -/
theorem redactPii_safe (value : Text) :
    (redactPii value).length = value.length ∧
      (∀ position : ℕ, (redactPii value)[position]? = value[position]? ∨
        (redactPii value)[position]? = some maskCharacter) ∧
      (∀ pattern ∈ piiPatterns, ¬pattern.FoundIn (redactPii value)) ∧
      redactPii (redactPii value) = redactPii value := by
  have hnone : ∀ pattern ∈ piiPatterns, ¬pattern.FoundIn (redactPii value) :=
    not_foundIn_maskAll accepts_maskCharacter leastLength_pos value
  exact ⟨length_maskAll _ _ _, getElem?_maskAll_or _ _ _, hnone, maskAll_eq_self hnone⟩

section Contexts

variable {text : Text} {start stop position : ℕ}

/-- A personal character of a piece is masked exactly when it belongs to a match in the piece. -/
theorem redactPii_slice_iff (hturn : MasksInTurn piiPatterns (slice text start stop))
    (hposition : position < (slice text start stop).length)
    (hpersonal : IsPersonal text (start + position)) :
    (redactPii (slice text start stop))[position]? = some maskCharacter ↔
      IsPersonal (slice text start stop) position := by
  have hinside : position < stop - start := by
    rw [length_slice] at hposition
    exact Nat.lt_of_lt_of_le hposition (Nat.min_le_left _ _)
  have hletter : (slice text start stop)[position]? ≠ some maskCharacter := by
    rw [slice, List.getElem?_take_of_lt hinside, List.getElem?_drop]
    exact hpersonal.ne_mask
  exact getElem?_maskAll_eq_mark_iff accepts_maskCharacter hturn hposition hletter

/-- A piece that no match crosses the edges of has the matches of the text. -/
theorem isPersonal_slice (hspares : ∀ pattern ∈ piiPatterns, pattern.Spares text start stop)
    (hposition : position < (slice text start stop).length)
    (hpersonal : IsPersonal text (start + position)) :
    IsPersonal (slice text start stop) position := by
  obtain ⟨pattern, hpattern, hcovered⟩ := hpersonal
  have hinside : position < stop - start := by
    rw [length_slice] at hposition
    exact Nat.lt_of_lt_of_le hposition (Nat.min_le_left _ _)
  refine ⟨pattern, hpattern, ?_⟩
  rw [covered_slice (hspares pattern hpattern), slice, List.getElem?_take_of_lt hinside,
    List.getElem?_drop]
  exact hcovered

end Contexts

/-! ### The diagnostic -/

section Diagnostic

variable {host : Host} {call : DiagnosticCall} {offset : ℕ}

/-- A diagnostic that is built is the one at the offset of the call, whose limit is not negative. -/
theorem eq_diagnostic_of_build {diagnostic : SourceSpanDiagnostic}
    (hbuild : buildIntegrityDiagnostic host call = .ok diagnostic)
    (hoffset : call.firstDifferenceOffset = some (offset : ℤ)) :
    0 ≤ call.contextLimit ∧ diagnostic = call.diagnostic host offset := by
  obtain ⟨-, hbuild⟩ := raiseIf_bind_eq_ok.mp hbuild
  obtain ⟨-, hbuild⟩ := raiseIf_bind_eq_ok.mp hbuild
  obtain ⟨located, hlocated, hbuild⟩ := bind_eq_ok.mp hbuild
  obtain ⟨-, hbuild⟩ := raiseIf_bind_eq_ok.mp hbuild
  obtain ⟨-, hbuild⟩ := raiseIf_bind_eq_ok.mp hbuild
  obtain ⟨hlimit, hbuild⟩ := raiseIf_bind_eq_ok.mp hbuild
  obtain ⟨-, hbuild⟩ := raiseIf_bind_eq_ok.mp hbuild
  cases hbuild
  have hlocator : locatorOf call.firstDifferenceOffset = .ok offset := by
    rw [hoffset, locatorOf]
    exact if_neg (Int.not_lt.mpr (Int.natCast_nonneg offset))
  rw [hlocator, Except.ok.injEq] at hlocated
  exact ⟨Int.not_lt.mp (of_decide_eq_false hlimit), hlocated ▸ rfl⟩

/-- What is disclosed under `redact_pii`. -/
theorem contexts_of_build {diagnostic : SourceSpanDiagnostic}
    (hbuild : buildIntegrityDiagnostic host call = .ok diagnostic)
    (hoffset : call.firstDifferenceOffset = some (offset : ℤ))
    (hpolicy : call.redactionPolicy = lit "redact_pii") :
    diagnostic.contextBefore =
        (if call.authorization ∈ contextAuthorizedDecisions then
          some (redactPii (call.exactBefore offset)) else none) ∧
      diagnostic.contextAfter =
        if call.authorization ∈ contextAuthorizedDecisions then
          some (redactPii (call.exactAfter offset)) else none := by
  obtain ⟨hlimit, rfl⟩ := eq_diagnostic_of_build hbuild hoffset
  have hredaction : redactionOf call.redactionPolicy = redactPii := by
    rw [hpolicy]
    rfl
  have hbefore : (call.exactBefore offset).length ≤ call.contextLimit.toNat := by
    rw [length_exactBefore, DiagnosticCall.windowStart]
    omega
  have hafter : (call.exactAfter offset).length ≤ call.contextLimit.toNat := by
    rw [length_exactAfter, DiagnosticCall.windowEnd]
    omega
  rw [← hredaction]
  simp only [DiagnosticCall.diagnostic, take_redactionOf hbefore, take_redactionOf hafter,
    List.contains_iff_mem, and_self]

/-- **What a redacted diagnostic shows.** Where no match in a context is cut by what the patterns in
front of its own mask there, the contexts show nothing of a match of the source exactly when they
are not disclosed or what they have of it belongs to matches of their own. -/
theorem leaksNothing_iff {diagnostic : SourceSpanDiagnostic}
    (hbuild : buildIntegrityDiagnostic host call = .ok diagnostic)
    (hoffset : call.firstDifferenceOffset = some (offset : ℤ))
    (hpolicy : call.redactionPolicy = lit "redact_pii")
    (hbefore : MasksInTurn piiPatterns (call.exactBefore offset))
    (hafter : MasksInTurn piiPatterns (call.exactAfter offset)) :
    LeaksNothing call offset diagnostic ↔
      (call.authorization ∈ contextAuthorizedDecisions → FoundAgain call offset) := by
  obtain ⟨hcontextBefore, hcontextAfter⟩ := contexts_of_build hbuild hoffset hpolicy
  have hlengthBefore : (redactPii (call.exactBefore offset)).length =
      (call.exactBefore offset).length := length_maskAll _ _ _
  have hlengthAfter : (redactPii (call.exactAfter offset)).length =
      (call.exactAfter offset).length := length_maskAll _ _ _
  constructor
  · intro hleaks hauthorized
    rw [if_pos hauthorized] at hcontextBefore hcontextAfter
    refine ⟨fun position hposition hpersonal ↦ ?_, fun position hposition hpersonal ↦ ?_⟩
    · exact (redactPii_slice_iff hbefore hposition hpersonal).mp
        (hleaks.before _ hcontextBefore position (hlengthBefore ▸ hposition) hpersonal)
    · exact (redactPii_slice_iff hafter hposition hpersonal).mp
        (hleaks.after _ hcontextAfter position (hlengthAfter ▸ hposition) hpersonal)
  · intro hfound
    by_cases hauthorized : call.authorization ∈ contextAuthorizedDecisions
    · rw [if_pos hauthorized] at hcontextBefore hcontextAfter
      refine ⟨fun context hcontext position hposition hpersonal ↦ ?_,
        fun context hcontext position hposition hpersonal ↦ ?_⟩
      · obtain rfl := Option.some.inj (hcontextBefore.symm.trans hcontext)
        rw [hlengthBefore] at hposition
        exact (redactPii_slice_iff hbefore hposition hpersonal).mpr
          ((hfound hauthorized).before position hposition hpersonal)
      · obtain rfl := Option.some.inj (hcontextAfter.symm.trans hcontext)
        rw [hlengthAfter] at hposition
        exact (redactPii_slice_iff hafter hposition hpersonal).mpr
          ((hfound hauthorized).after position hposition hpersonal)
    · rw [if_neg hauthorized] at hcontextBefore hcontextAfter
      refine ⟨fun context hcontext ↦ ?_, fun context hcontext ↦ ?_⟩
      · rw [hcontextBefore] at hcontext
        cases hcontext
      · rw [hcontextAfter] at hcontext
        cases hcontext

/-- Where no match of the source crosses an edge of a context, the contexts have its matches. -/
theorem foundAgain_of_spares (hedges : ∀ pattern ∈ piiPatterns, ∀ cut ∈
    [call.windowStart offset, call.located offset, call.windowEnd offset],
      ¬pattern.Crosses call.sourceText cut) : FoundAgain call offset := by
  have hlocated := located_le call offset
  refine ⟨fun position hposition hpersonal ↦ ?_, fun position hposition hpersonal ↦ ?_⟩
  · refine isPersonal_slice (fun pattern hpattern ↦ ⟨?_, ?_, Nat.sub_le _ _, hlocated⟩) hposition
      hpersonal
    · exact hedges pattern hpattern _ (by simp)
    · exact hedges pattern hpattern _ (by simp)
  · refine isPersonal_slice (fun pattern hpattern ↦ ⟨?_, ?_, ?_, Nat.min_le_left _ _⟩) hposition
      hpersonal
    · exact hedges pattern hpattern _ (by simp)
    · exact hedges pattern hpattern _ (by simp)
    · exact Nat.le_min.mpr ⟨hlocated, Nat.le_add_right _ _⟩

end Diagnostic

/-! ### An address in the window, and one that is cut -/

/-- The call of a publication for two texts that part at an offset. -/
def redactedCall (sourceText reconstructedText : Text) (offset : ℕ) : DiagnosticCall where
  spanId := 1
  sourceText
  reconstructedText
  integrityOutcome := .mismatch
  firstDifferenceOffset := some offset
  documentId := some 2
  chapterId := some 3
  chunkId := some 4
  authorization := lit "owner"
  redactionPolicy := lit "redact_pii"
  contextLimit := 64

/-- An address in front of the difference is masked. -/
theorem leaksNothing_iff_mailContext : ∃ diagnostic,
    buildIntegrityDiagnostic sampleHost (redactedCall (lit "ab@c.de x") (lit "ab@c.de y") 8) =
        .ok diagnostic ∧
      (LeaksNothing (redactedCall (lit "ab@c.de x") (lit "ab@c.de y") 8) 8 diagnostic ↔
        (lit "owner" ∈ contextAuthorizedDecisions →
          FoundAgain (redactedCall (lit "ab@c.de x") (lit "ab@c.de y") 8) 8)) := by
  obtain ⟨diagnostic, hbuild⟩ : ∃ diagnostic,
      buildIntegrityDiagnostic sampleHost (redactedCall (lit "ab@c.de x") (lit "ab@c.de y") 8) =
        .ok diagnostic := exists_of_succeeds (by decide +kernel)
  exact ⟨diagnostic, hbuild, leaksNothing_iff hbuild rfl rfl (by decide +kernel) (by decide +kernel)⟩

/-- An address that goes on behind the difference is shown up to it. -/
theorem exists_leaked_mail : ∃ (call : DiagnosticCall) (diagnostic : SourceSpanDiagnostic),
    (integrityVerdict call.sourceText call.reconstructedText = (.mismatch, some 6)) ∧
      call.integrityOutcome = .mismatch ∧ call.firstDifferenceOffset = some 6 ∧
      call.redactionPolicy = lit "redact_pii" ∧
      buildIntegrityDiagnostic sampleHost call = .ok diagnostic ∧
      ¬LeaksNothing call 6 diagnostic := by
  obtain ⟨diagnostic, hbuild⟩ : ∃ diagnostic,
      buildIntegrityDiagnostic sampleHost (redactedCall (lit "ab@c.de") (lit "ab@c.dx") 6) =
        .ok diagnostic := exists_of_succeeds (by decide +kernel)
  refine ⟨_, diagnostic, by decide +kernel, rfl, rfl, rfl, hbuild, fun hleaks ↦ ?_⟩
  have hbefore := (contexts_of_build hbuild (show _ = some ((6 : ℕ) : ℤ) from rfl) rfl).1
  have hmasked := hleaks.before _ hbefore 0 (by decide +kernel)
    ⟨mailPattern, List.mem_cons_self, by decide +kernel⟩
  exact absurd hmasked (by decide +kernel)

end DocStore
