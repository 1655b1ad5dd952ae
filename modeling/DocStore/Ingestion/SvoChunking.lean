import DocStore.Domain.Metadata

/-!
# Validation of chunker responses

The external chunker answers with raw items. `validateRuntimeChunks` turns them into runtime
chunks, locating each one in the source behind the previous one, or refuses the response with the
code and message of the violated rule. The adapter that parses an item is a third-party package:
an item arrives here as what the adapter makes of it (`RawItem`).

`validateRuntimeChunks_located` is what the rest of the ingestion relies on: the chunks of an
accepted response have non-empty, ordered, disjoint ranges inside the source.
-/

set_option autoImplicit false
set_option relaxedAutoImplicit false

namespace DocStore

open Foundation

/-- One validated chunk: a text with its range in the source. -/
structure RuntimeChunk where
  uuid : Uuid
  text : Text
  start : ℕ
  stop : ℕ
  ordinal : ℕ
  metadata : Dict

/-- The source range of a chunk. -/
def RuntimeChunk.range (chunk : RuntimeChunk) : ℕ × ℕ := (chunk.start, chunk.stop)

/-- The fields of a deserialized adapter chunk that the validation reads. A range bound or an
ordinal that is no integer, and a `uuid` that is no UUID, are `none`. -/
structure AdapterChunk where
  uuid : Option Uuid
  sourceId : Option Text
  body : Option Text
  text : Option Text
  start : Option ℤ
  stop : Option ℤ
  ordinal : Option ℤ

/-- An item of a chunker response: no adapter chunk at all, one that the adapter refuses to
serialize, or its payload together with the chunk deserialized from it. -/
inductive RawItem where
  | foreign (typeName : Text)
  | rejected (errorType message : Text)
  | chunk (payload : Dict) (value : AdapterChunk)

/-- A chunker response. -/
inductive RawResponse where
  | notASequence (typeName : Text)
  | items (items : List RawItem)

/-! ### Locating a chunk -/

/-- `_range_candidates`: the distinct non-empty texts a chunk may stand under in the source. -/
def rangeCandidates (rawBody textBody : Text) : List Text :=
  ([rawBody, textBody, strip rawBody, strip textBody].filter fun text ↦ !text.isEmpty).eraseDups

/-- `_resolve_runtime_range`: the stated range when the source has the chunk there, else the first
candidate found behind the previous chunk, else the words of the text up to white space. -/
def resolveRuntimeRange (sourceText : Text) (previousEnd : ℕ) (rawStart rawEnd : ℤ)
    (rawBody textBody : Text) : Option (ℕ × ℕ) :=
  let stated := slice sourceText rawStart.toNat rawEnd.toNat
  if 0 ≤ rawStart && rawStart < rawEnd && rawEnd ≤ sourceText.length && previousEnd ≤ rawStart &&
      (stated = rawBody || stated = textBody) then
    some (rawStart.toNat, rawEnd.toNat)
  else
    let found := (rangeCandidates rawBody textBody).findSome? fun candidate ↦
      (find sourceText candidate previousEnd).map fun position ↦
        (position, position + candidate.length)
    match found with
    | some range => some range
    | none =>
      if (strip textBody).isEmpty then none
      else
        (searchWords (splitWords (strip textBody)) (sourceText.drop previousEnd)).map fun range ↦
          (previousEnd + range.1, previousEnd + range.2)

theorem ne_nil_of_mem_rangeCandidates {rawBody textBody candidate : Text}
    (hmem : candidate ∈ rangeCandidates rawBody textBody) : candidate ≠ [] := by
  simpa using (List.mem_filter.mp (List.mem_eraseDups.mp hmem)).2

/-- A resolved range is a non-empty range of the source behind the previous chunk. -/
theorem resolveRuntimeRange_bounds {sourceText rawBody textBody : Text} {previousEnd : ℕ}
    {rawStart rawEnd : ℤ} {range : ℕ × ℕ}
    (hresolved : resolveRuntimeRange sourceText previousEnd rawStart rawEnd rawBody textBody =
      some range) :
    previousEnd ≤ range.1 ∧ range.1 < range.2 ∧ range.2 ≤ sourceText.length := by
  unfold resolveRuntimeRange at hresolved
  simp only [Bool.and_eq_true, Bool.or_eq_true, decide_eq_true_eq] at hresolved
  split at hresolved
  next hstated =>
    cases hresolved
    omega
  next =>
    split at hresolved
    next found hfound =>
      cases hresolved
      obtain ⟨candidate, hmem, hposition⟩ := List.exists_of_findSome?_eq_some hfound
      obtain ⟨position, hat, rfl⟩ := Option.map_eq_some_iff.mp hposition
      have hbounds := find_bounds hat
      have hlength := List.length_pos_iff.mpr (ne_nil_of_mem_rangeCandidates hmem)
      dsimp only
      omega
    next =>
      split at hresolved
      · cases hresolved
      next hstripped =>
        obtain ⟨inner, hinner, rfl⟩ := Option.map_eq_some_iff.mp hresolved
        have hwords : splitWords (strip textBody) ≠ [] :=
          splitWords_strip_ne_nil (by simpa using hstripped)
        have hbounds := searchWords_bounds hwords (fun word ↦ ne_nil_of_mem_splitWords) hinner
        rw [List.length_drop] at hbounds
        dsimp only
        omega

/-! ### Validating a response -/

/-- The checks on one item of a response, at its index and behind the previous chunk. -/
def validateRuntimeChunk (sourceText expectedSource : Text) (index previousEnd : ℕ) :
    RawItem → Except Failure RuntimeChunk
  | .foreign typeName => .error (.chunker "CHUNKER_INVALID_RESPONSE"
      "external chunker returned a non-SemanticChunk item"
      [("index", .num index), ("item_type", .str typeName)])
  | .rejected errorType message => .error (.chunker "CHUNKER_INVALID_RESPONSE"
      "external chunker returned an invalid SemanticChunk"
      [("index", .num index), ("error_type", .str errorType), ("message", .str message)])
  | .chunk payload value => do
    let rawBody := value.body.getD []
    let body := if (value.text.getD []).isEmpty then rawBody else value.text.getD []
    raiseIf (value.sourceId ≠ some expectedSource) (.chunker "CHUNKER_CONTRACT_ERROR"
      "external chunker returned a chunk for a different source_id"
      [("index", .num index), ("expected", .str expectedSource),
        ("actual", .ofOption value.sourceId)])
    match value.start, value.stop with
    | some rawStart, some rawEnd => do
      raiseIf body.isEmpty (.chunker "CHUNKER_CONTRACT_ERROR"
        "external chunker returned an empty chunk body" [("index", .num index)])
      match resolveRuntimeRange sourceText previousEnd rawStart rawEnd rawBody body with
      | none => .error (.chunker "CHUNKER_CONTRACT_ERROR"
          "external chunker returned a chunk that cannot be located in the source text"
          [("index", .num index), ("start", .num rawStart), ("end", .num rawEnd),
            ("previous_end", .num previousEnd), ("source_length", .num sourceText.length)])
      | some (start, stop) => do
        raiseIf (start < previousEnd) (.chunker "CHUNKER_CONTRACT_ERROR"
          "external chunker returned overlapping or unordered ranges"
          [("index", .num index), ("start", .num start), ("previous_end", .num previousEnd)])
        raiseIf (value.ordinal.any fun ordinal ↦ ordinal ≠ (index : ℤ)) (.chunker
          "CHUNKER_CONTRACT_ERROR" "external chunker returned non-sequential ordinals"
          [("index", .num index), ("ordinal", .num (value.ordinal.getD 0))])
        match value.uuid with
        | none => .error (.value "badly formed hexadecimal UUID string")
        | some uuid => do
          raiseIf (uuidVersion uuid ≠ some 4) (.chunker "CHUNKER_CONTRACT_ERROR"
            "external chunker returned a non-UUID4 chunk uuid"
            [("index", .num index), ("uuid", .str (uuidText uuid))])
          return { uuid, text := body, start, stop, ordinal := index, metadata := payload }
    | _, _ => .error (.chunker "CHUNKER_CONTRACT_ERROR"
        "external chunker returned a chunk without integer source range" [("index", .num index)])

/-- The loop over the items of a response. -/
def validateRuntimeChunksFrom (sourceText expectedSource : Text) :
    ℕ → ℕ → List RawItem → Except Failure (List RuntimeChunk)
  | _, _, [] => .ok []
  | index, previousEnd, raw :: raws => do
    let chunk ← validateRuntimeChunk sourceText expectedSource index previousEnd raw
    let chunks ← validateRuntimeChunksFrom sourceText expectedSource (index + 1) chunk.stop raws
    return chunk :: chunks

/-- `_validate_runtime_chunks`. -/
def validateRuntimeChunks (rawChunks : RawResponse) (sourceText : Text) (sourceId : Uuid) :
    Except Failure (List RuntimeChunk) :=
  match rawChunks with
  | .notASequence typeName => .error (.chunker "CHUNKER_INVALID_RESPONSE"
      "external chunker returned a non-list response" [("response_type", .str typeName)])
  | .items [] => .error (.chunker "CHUNKER_EMPTY_RESULT" "external chunker returned no chunks" [])
  | .items items => validateRuntimeChunksFrom sourceText (uuidText sourceId) 0 0 items

/-- Chunks with non-empty, ordered, disjoint ranges between two positions. -/
structure Located (cursor : ℕ) (chunks : List RuntimeChunk) (stop : ℕ) : Prop where
  ordered : Ordered cursor (chunks.map RuntimeChunk.range) stop
  nonempty : ∀ chunk ∈ chunks, chunk.start < chunk.stop

/-- What an accepted item says about its chunk. -/
theorem validateRuntimeChunk_spec {sourceText expectedSource : Text} {index previousEnd : ℕ}
    {raw : RawItem} {chunk : RuntimeChunk}
    (hvalid : validateRuntimeChunk sourceText expectedSource index previousEnd raw = .ok chunk) :
    previousEnd ≤ chunk.start ∧ chunk.start < chunk.stop ∧ chunk.stop ≤ sourceText.length ∧
      chunk.ordinal = index ∧ chunk.text ≠ [] ∧ uuidVersion chunk.uuid = some 4 := by
  cases raw with
  | foreign typeName => cases hvalid
  | rejected errorType message => cases hvalid
  | chunk payload value =>
    obtain ⟨_, -, hvalid⟩ := bind_eq_ok.mp hvalid
    split at hvalid
    next rawStart rawEnd _ _ =>
      obtain ⟨_, hbody, hvalid⟩ := bind_eq_ok.mp hvalid
      split at hvalid
      next => cases hvalid
      next start stop hresolved =>
        obtain ⟨_, -, hvalid⟩ := bind_eq_ok.mp hvalid
        obtain ⟨_, -, hvalid⟩ := bind_eq_ok.mp hvalid
        split at hvalid
        next => cases hvalid
        next uuid _ =>
          obtain ⟨_, hversion, hvalid⟩ := bind_eq_ok.mp hvalid
          cases hvalid
          obtain ⟨hprevious, hrange, hlength⟩ := resolveRuntimeRange_bounds hresolved
          refine ⟨hprevious, hrange, hlength, rfl, ?_, ?_⟩
          · simpa using raiseIf_eq_ok.mp hbody
          · simpa using raiseIf_eq_ok.mp hversion
    next => cases hvalid

theorem validateRuntimeChunksFrom_located {sourceText expectedSource : Text}
    {index previousEnd : ℕ} {raws : List RawItem} {chunks : List RuntimeChunk}
    (hprevious : previousEnd ≤ sourceText.length)
    (hvalid : validateRuntimeChunksFrom sourceText expectedSource index previousEnd raws =
      .ok chunks) : Located previousEnd chunks sourceText.length := by
  induction raws generalizing index previousEnd chunks with
  | nil =>
    cases hvalid
    exact ⟨hprevious, by simp⟩
  | cons raw raws ih =>
    obtain ⟨chunk, hchunk, hvalid⟩ := bind_eq_ok.mp hvalid
    obtain ⟨rest, hrest, hvalid⟩ := bind_eq_ok.mp hvalid
    cases hvalid
    obtain ⟨hstart, hrange, hstop, -⟩ := validateRuntimeChunk_spec hchunk
    have hlocated := ih hstop hrest
    exact ⟨⟨hstart, hrange.le, hlocated.ordered⟩,
      List.forall_mem_cons.mpr ⟨hrange, hlocated.nonempty⟩⟩

/-- The chunks of an accepted response lie in the source, one behind the other, and there is at
least one. -/
theorem validateRuntimeChunks_located {rawChunks : RawResponse} {sourceText : Text}
    {sourceId : Uuid} {chunks : List RuntimeChunk}
    (hvalid : validateRuntimeChunks rawChunks sourceText sourceId = .ok chunks) :
    Located 0 chunks sourceText.length ∧ chunks ≠ [] := by
  unfold validateRuntimeChunks at hvalid
  split at hvalid
  next => cases hvalid
  next => cases hvalid
  next items hitems =>
    refine ⟨validateRuntimeChunksFrom_located (Nat.zero_le _) hvalid, ?_⟩
    cases items with
    | nil => exact absurd rfl hitems
    | cons item items =>
      obtain ⟨chunk, -, hvalid⟩ := bind_eq_ok.mp hvalid
      obtain ⟨rest, -, hvalid⟩ := bind_eq_ok.mp hvalid
      cases hvalid
      simp

end DocStore
