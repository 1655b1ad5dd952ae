import DocStore.Domain.Searching
import DocStore.Ingestion.SentencePlan

/-!
# The ranges of accepted chunks

A chunk is located by its stated range, by a literal search or by a search for its words. Whichever
of them succeeds, the range has the body or the text of the chunk in it, up to white space
(`StandsFor`), and it lies behind the ranges of the earlier chunks (`acceptedRanges`). So the check
for overlapping ranges never fails.
-/

set_option autoImplicit false
set_option relaxedAutoImplicit false

namespace DocStore

open Foundation

/-! ### What a range stands for -/

/-- The body of a chunk. -/
def AdapterChunk.rawBody (value : AdapterChunk) : Text := value.body.getD []

/-- The text of a chunk, or its body when it has no text. -/
def AdapterChunk.textBody (value : AdapterChunk) : Text :=
  if (value.text.getD []).isEmpty then value.rawBody else value.text.getD []

/-- A part of the source is the body or the text of a chunk, literally, or stripped, or word by
word. -/
def StandsFor (rawBody textBody part : Text) : Prop :=
  part = rawBody ∨ part = textBody ∨ part = strip rawBody ∨ part = strip textBody ∨
    splitWords part = splitWords textBody

section Resolving

variable {sourceText rawBody textBody : Text} {previousEnd : ℕ} {rawStart rawEnd : ℤ}
  {range : ℕ × ℕ}

theorem standsFor_of_mem_rangeCandidates {candidate : Text}
    (hmem : candidate ∈ rangeCandidates rawBody textBody) :
    StandsFor rawBody textBody candidate := by
  have hlisted : candidate ∈ [rawBody, textBody, strip rawBody, strip textBody] :=
    List.mem_of_mem_filter (List.mem_eraseDups.mp hmem)
  simp only [List.mem_cons, List.not_mem_nil, or_false] at hlisted
  rcases hlisted with hbody | htext | hbody | htext
  · exact .inl hbody
  · exact .inr (.inl htext)
  · exact .inr (.inr (.inl hbody))
  · exact .inr (.inr (.inr (.inl htext)))

/-- A resolved range stands for its chunk. -/
theorem standsFor_of_resolveRuntimeRange
    (hresolved : resolveRuntimeRange sourceText previousEnd rawStart rawEnd rawBody textBody =
      some range) : StandsFor rawBody textBody (slice sourceText range.1 range.2) := by
  unfold resolveRuntimeRange at hresolved
  simp only [Bool.and_eq_true, Bool.or_eq_true, decide_eq_true_eq] at hresolved
  split at hresolved
  next hstated =>
    cases hresolved
    rcases hstated.2 with hbody | htext
    · exact .inl hbody
    · exact .inr (.inl htext)
  next =>
    split at hresolved
    next found hfound =>
      cases hresolved
      obtain ⟨candidate, hmem, hposition⟩ := List.exists_of_findSome?_eq_some hfound
      obtain ⟨position, hat, rfl⟩ := Option.map_eq_some_iff.mp hposition
      rw [slice_find hat]
      exact standsFor_of_mem_rangeCandidates hmem
    next =>
      split at hresolved
      · cases hresolved
      next =>
        obtain ⟨inner, hinner, rfl⟩ := Option.map_eq_some_iff.mp hresolved
        have hfound := splitWords_slice_searchWords (fun _ ↦ isWord_of_mem_splitWords) hinner
        rw [slice_drop, splitWords_strip] at hfound
        exact .inr (.inr (.inr (.inr hfound)))

end Resolving

/-! ### Accepted responses -/

/-- The ranges of the chunks of a response: not empty, inside the source, one behind the other,
numbered, and each of them stands for its chunk. -/
structure AcceptedRanges (sourceText : Text) (index : ℕ) (raws : List RawItem)
    (chunks : List RuntimeChunk) : Prop where
  nonempty : ∀ chunk ∈ chunks, chunk.start < chunk.stop
  inside : ∀ chunk ∈ chunks, chunk.stop ≤ sourceText.length
  increasing : chunks.Pairwise fun first second ↦ first.start < second.start
  disjoint : chunks.Pairwise fun first second ↦ first.stop ≤ second.start
  ordinals : chunks.map RuntimeChunk.ordinal = List.range' index chunks.length
  texts : List.Forall₂ (fun raw chunk ↦ ∃ payload value, raw = .chunk payload value ∧
    chunk.text = value.textBody ∧
      StandsFor value.rawBody value.textBody (slice sourceText chunk.start chunk.stop)) raws chunks

section Validating

variable {sourceText expectedSource : Text} {index previousEnd : ℕ}

/-- An accepted item is a chunk, and its range stands for it. -/
theorem standsFor_of_validateRuntimeChunk {raw : RawItem} {chunk : RuntimeChunk}
    (hvalid : validateRuntimeChunk sourceText expectedSource index previousEnd raw = .ok chunk) :
    ∃ payload value, raw = .chunk payload value ∧ chunk.text = value.textBody ∧
      StandsFor value.rawBody value.textBody (slice sourceText chunk.start chunk.stop) := by
  cases raw with
  | foreign typeName => cases hvalid
  | rejected errorType message => cases hvalid
  | chunk payload value =>
    refine ⟨payload, value, rfl, ?_⟩
    obtain ⟨-, hvalid⟩ := raiseIf_bind_eq_ok.mp hvalid
    split at hvalid
    next rawStart rawEnd _ _ =>
      obtain ⟨-, hvalid⟩ := raiseIf_bind_eq_ok.mp hvalid
      split at hvalid
      next => cases hvalid
      next start stop hresolved =>
        obtain ⟨-, hvalid⟩ := raiseIf_bind_eq_ok.mp hvalid
        obtain ⟨-, hvalid⟩ := raiseIf_bind_eq_ok.mp hvalid
        split at hvalid
        next => cases hvalid
        next uuid _ =>
          obtain ⟨-, hvalid⟩ := raiseIf_bind_eq_ok.mp hvalid
          cases hvalid
          exact ⟨rfl, standsFor_of_resolveRuntimeRange hresolved⟩
    next => cases hvalid

/-- The chunks of accepted items, all of them behind a position. -/
theorem acceptedRanges_of_validateRuntimeChunksFrom {raws : List RawItem}
    {chunks : List RuntimeChunk}
    (hvalid : validateRuntimeChunksFrom sourceText expectedSource index previousEnd raws =
      .ok chunks) :
    AcceptedRanges sourceText index raws chunks ∧ ∀ chunk ∈ chunks, previousEnd ≤ chunk.start := by
  induction raws generalizing index previousEnd chunks with
  | nil =>
    cases hvalid
    exact ⟨⟨by simp, by simp, .nil, .nil, rfl, .nil⟩, by simp⟩
  | cons raw raws ih =>
    obtain ⟨chunk, hchunk, hvalid⟩ := bind_eq_ok.mp hvalid
    obtain ⟨rest, hrest, hvalid⟩ := bind_eq_ok.mp hvalid
    cases hvalid
    obtain ⟨hprevious, hrange, hlength, hordinal, -⟩ := validateRuntimeChunk_spec hchunk
    obtain ⟨haccepted, hbehind⟩ := ih hrest
    refine ⟨⟨List.forall_mem_cons.mpr ⟨hrange, haccepted.nonempty⟩,
      List.forall_mem_cons.mpr ⟨hlength, haccepted.inside⟩,
      List.pairwise_cons.mpr ⟨fun later hlater ↦ hrange.trans_le (hbehind later hlater),
        haccepted.increasing⟩,
      List.pairwise_cons.mpr ⟨hbehind, haccepted.disjoint⟩, ?_,
      .cons (standsFor_of_validateRuntimeChunk hchunk) haccepted.texts⟩, ?_⟩
    · rw [List.map_cons, List.length_cons, List.range'_succ, hordinal, haccepted.ordinals]
    · exact List.forall_mem_cons.mpr ⟨hprevious, fun later hlater ↦
        hprevious.trans (hrange.le.trans (hbehind later hlater))⟩

/-- What a refusal for overlapping ranges says. -/
def isOverlapRefusal : Failure → Prop
  | .chunker code message _ => code = "CHUNKER_CONTRACT_ERROR" ∧
      message = "external chunker returned overlapping or unordered ranges"
  | _ => False

theorem not_isOverlapRefusal_of_validateRuntimeChunk {raw : RawItem} {failure : Failure}
    (hfails : validateRuntimeChunk sourceText expectedSource index previousEnd raw =
      .error failure) : ¬ isOverlapRefusal failure := by
  cases raw with
  | foreign typeName =>
    cases hfails
    simp [isOverlapRefusal]
  | rejected errorType message =>
    cases hfails
    simp [isOverlapRefusal]
  | chunk payload value =>
    rcases bind_eq_error.mp hfails with hraise | ⟨-, -, hfails⟩
    · obtain ⟨-, rfl⟩ := raiseIf_eq_error.mp hraise
      simp [isOverlapRefusal]
    split at hfails
    next rawStart rawEnd _ _ =>
      rcases bind_eq_error.mp hfails with hraise | ⟨-, -, hfails⟩
      · obtain ⟨-, rfl⟩ := raiseIf_eq_error.mp hraise
        simp [isOverlapRefusal]
      split at hfails
      next =>
        cases hfails
        simp [isOverlapRefusal]
      next start stop hresolved =>
        rcases bind_eq_error.mp hfails with hraise | ⟨-, -, hfails⟩
        · obtain ⟨hoverlap, -⟩ := raiseIf_eq_error.mp hraise
          have hbehind := (resolveRuntimeRange_bounds hresolved).1
          rw [decide_eq_true_eq] at hoverlap
          exact absurd hoverlap (Nat.not_lt.mpr hbehind)
        rcases bind_eq_error.mp hfails with hraise | ⟨-, -, hfails⟩
        · obtain ⟨-, rfl⟩ := raiseIf_eq_error.mp hraise
          simp [isOverlapRefusal]
        split at hfails
        next =>
          cases hfails
          simp [isOverlapRefusal]
        next uuid _ =>
          rcases bind_eq_error.mp hfails with hraise | ⟨-, -, hfails⟩
          · obtain ⟨-, rfl⟩ := raiseIf_eq_error.mp hraise
            simp [isOverlapRefusal]
          · cases hfails
    next =>
      cases hfails
      simp [isOverlapRefusal]

theorem not_isOverlapRefusal_of_validateRuntimeChunksFrom {raws : List RawItem} {failure : Failure}
    (hfails : validateRuntimeChunksFrom sourceText expectedSource index previousEnd raws =
      .error failure) : ¬ isOverlapRefusal failure := by
  induction raws generalizing index previousEnd with
  | nil => cases hfails
  | cons raw raws ih =>
    rcases bind_eq_error.mp hfails with hfirst | ⟨chunk, -, hfails⟩
    · exact not_isOverlapRefusal_of_validateRuntimeChunk hfirst
    · rcases bind_eq_error.mp hfails with hrest | ⟨rest, -, hfails⟩
      · exact ih hrest
      · cases hfails

end Validating

/-- **Accepted chunks have good ranges, and no response is refused for overlapping ones.** -/
theorem acceptedRanges_and_no_overlap (rawChunks : RawResponse) (sourceText : Text)
    (sourceId : Uuid) :
    (∀ chunks, validateRuntimeChunks rawChunks sourceText sourceId = .ok chunks →
      ∃ raws, rawChunks = .items raws ∧ AcceptedRanges sourceText 0 raws chunks) ∧
    ∀ failure, validateRuntimeChunks rawChunks sourceText sourceId = .error failure →
      ¬ isOverlapRefusal failure := by
  cases rawChunks with
  | notASequence typeName =>
    refine ⟨fun chunks hvalid ↦ (nomatch hvalid), fun failure hfails ↦ ?_⟩
    cases hfails
    simp [isOverlapRefusal]
  | items raws =>
    cases raws with
    | nil =>
      refine ⟨fun chunks hvalid ↦ (nomatch hvalid), fun failure hfails ↦ ?_⟩
      cases hfails
      simp [isOverlapRefusal]
    | cons raw raws =>
      exact ⟨fun chunks hvalid ↦
          ⟨raw :: raws, rfl, (acceptedRanges_of_validateRuntimeChunksFrom hvalid).1⟩,
        fun failure hfails ↦ not_isOverlapRefusal_of_validateRuntimeChunksFrom hfails⟩

/-- A chunk of the sample response, without a usable range of its own. -/
def gappedChunk (uuid : Uuid) (body : Text) (ordinal : ℕ) : RawItem :=
  .chunk [] {
    uuid := some uuid
    sourceId := some (uuidText 7)
    body := some body
    text := none
    start := some (-3)
    stop := some 90
    ordinal := some ordinal }

/-- A response whose first chunk is found by its words, and whose second one literally. -/
def gappedResponse : List RawItem :=
  [gappedChunk 0x00000000000040008000000000000001 (lit "One two") 0,
    gappedChunk 0x00000000000040008000000000000002 (lit " three ") 1]

/-- The ranges of a response whose chunks state none. -/
theorem acceptedRanges_gappedResponse :
    ∃ chunks raws, validateRuntimeChunks (.items gappedResponse) (lit "One  two three") 7 =
        .ok chunks ∧ RawResponse.items gappedResponse = .items raws ∧
      AcceptedRanges (lit "One  two three") 0 raws chunks := by
  obtain ⟨chunks, hchunks⟩ : ∃ chunks,
      validateRuntimeChunks (.items gappedResponse) (lit "One  two three") 7 = .ok chunks :=
    exists_of_succeeds (by decide +kernel)
  obtain ⟨raws, hraws, haccepted⟩ :=
    (acceptedRanges_and_no_overlap (.items gappedResponse) (lit "One  two three") 7).1 chunks
      hchunks
  exact ⟨chunks, raws, hchunks, hraws, haccepted⟩

end DocStore
