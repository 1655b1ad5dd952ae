import DocStore.Domain.Metadata

/-!
# Exact reconstruction metadata

A published chunk keeps, under one metadata key, what is needed to put the source together again
around it: the gap in front of it, the source slice when the chunk text differs from it, and on the
last chunk the suffix behind it. `buildExactReconstructionPieces` computes the pieces from the
source ranges of the chunks, `mergePieceMetadata` stores one and `selectExactReconstructionPiece`
reads it back.

`buildExactReconstructionPieces_eq_ok` says that ordered ranges are all the builder asks for when
it may override chunk texts, `flatten_exactPieces` that the pieces it builds spell the source, and
`selectExactReconstructionPiece_merge` that a stored piece is read back as it was.
-/

set_option autoImplicit false
set_option relaxedAutoImplicit false

namespace DocStore

open Foundation

/-- The metadata key of an exact reconstruction entry. -/
def exactReconstructionKey : String := "doc_store_exact_reconstruction"

/-- The version of the entry format. -/
def exactReconstructionVersion : ℚ := 1

/-- What one chunk contributes to the reconstruction besides its text. -/
structure ExactReconstructionPiece where
  gapBefore : Text
  sourceText : Option Text := none
  suffixAfter : Option Text := none
deriving DecidableEq, Inhabited

/-- A chunk as the builder sees it. -/
structure ExactReconstructionInput where
  text : Text
  sourceStart : Option ℕ
  sourceEnd : Option ℕ

/-! ### Building the pieces -/

/-- The loop of the builder: a piece for each chunk and the position behind the last one. -/
def collectPieces (sourceText : Text) (scopeEnd : ℕ) (allowSourceTextOverride : Bool) :
    ℕ → List ExactReconstructionInput → Except Failure (List ExactReconstructionPiece × ℕ)
  | cursor, [] => .ok ([], cursor)
  | cursor, chunk :: chunks =>
    match chunk.sourceStart, chunk.sourceEnd with
    | some start, some stop => do
      raiseIf (start < cursor || stop < start || scopeEnd < stop) (.value
        "exact reconstruction source ranges must be monotonic and non-overlapping")
      let chunkSourceText := slice sourceText start stop
      raiseIf (chunkSourceText ≠ chunk.text && !allowSourceTextOverride) (.value
        "exact reconstruction source slice does not equal chunk text")
      let (pieces, last) ← collectPieces sourceText scopeEnd allowSourceTextOverride stop chunks
      return (
        { gapBefore := slice sourceText cursor start
          sourceText := if chunkSourceText = chunk.text then none else some chunkSourceText }
        :: pieces, last)
    | _, _ => .error (.value "exact reconstruction requires source coordinates")

/-- Puts the suffix on the last piece. -/
def sealLast (suffix : Text) : List ExactReconstructionPiece → List ExactReconstructionPiece
  | [] => []
  | [piece] => [{ piece with suffixAfter := some suffix }]
  | piece :: pieces => piece :: sealLast suffix pieces

/-- `build_exact_reconstruction_pieces`: exact gaps and the final suffix from source ranges. -/
def buildExactReconstructionPieces (sourceText : Text) (chunks : List ExactReconstructionInput)
    (scopeStart : ℕ := 0) (scopeEnd : Option ℕ := none) (allowSourceTextOverride : Bool := false) :
    Except Failure (List ExactReconstructionPiece) := do
  let scopeEnd := scopeEnd.getD sourceText.length
  raiseIf (scopeEnd < scopeStart || sourceText.length < scopeEnd) (.value
    "exact reconstruction scope is outside the source text")
  let (pieces, cursor) ←
    collectPieces sourceText scopeEnd allowSourceTextOverride scopeStart chunks
  raiseIf pieces.isEmpty (.value "exact reconstruction requires at least one chunk")
  return sealLast (slice sourceText cursor scopeEnd) pieces

/-- The pieces of chunks with the given texts and ranges, before the suffix is known. -/
def exactPieces (sourceText : Text) : ℕ → List (Text × ℕ × ℕ) → List ExactReconstructionPiece
  | _, [] => []
  | cursor, (text, start, stop) :: chunks =>
    { gapBefore := slice sourceText cursor start
      sourceText :=
        if slice sourceText start stop = text then none else some (slice sourceText start stop) }
    :: exactPieces sourceText stop chunks

/-- A chunk with a text and a range as the builder sees it. -/
def ExactReconstructionInput.ofRange (chunk : Text × ℕ × ℕ) : ExactReconstructionInput where
  text := chunk.1
  sourceStart := some chunk.2.1
  sourceEnd := some chunk.2.2

theorem collectPieces_of_ordered (sourceText : Text) {scopeEnd cursor : ℕ}
    {chunks : List (Text × ℕ × ℕ)}
    (hordered : Ordered cursor (chunks.map Prod.snd) scopeEnd) :
    collectPieces sourceText scopeEnd true cursor (chunks.map ExactReconstructionInput.ofRange) =
      .ok (exactPieces sourceText cursor chunks, lastStop cursor (chunks.map Prod.snd)) := by
  induction chunks generalizing cursor with
  | nil => rfl
  | cons chunk chunks ih =>
    obtain ⟨text, start, stop⟩ := chunk
    obtain ⟨hstart, hrange, hrest⟩ := hordered
    have hstop : stop ≤ scopeEnd := hrest.cursor_le_lastStop.trans hrest.lastStop_le
    have hcheck : (start < cursor || stop < start || scopeEnd < stop : Bool) = false := by
      simp only [Bool.or_eq_false_iff, decide_eq_false_iff_not, not_lt]
      exact ⟨⟨hstart, hrange⟩, hstop⟩
    simp only [List.map_cons, collectPieces, ExactReconstructionInput.ofRange, hcheck, raiseIf,
      Bool.not_true, Bool.and_false, Bool.false_eq_true, if_false]
    change (collectPieces sourceText scopeEnd true stop
      (chunks.map ExactReconstructionInput.ofRange) >>= _) = _
    rw [ih hrest]
    rfl

/-- With source text overrides allowed, the builder accepts every non-empty list of chunks whose
ranges are ordered inside the source, and says what it then builds. -/
theorem buildExactReconstructionPieces_eq_ok {sourceText : Text} {chunks : List (Text × ℕ × ℕ)}
    (hordered : Ordered 0 (chunks.map Prod.snd) sourceText.length) (hne : chunks ≠ []) :
    buildExactReconstructionPieces sourceText (chunks.map ExactReconstructionInput.ofRange) 0 none
        true =
      .ok (sealLast (slice sourceText (lastStop 0 (chunks.map Prod.snd)) sourceText.length)
        (exactPieces sourceText 0 chunks)) := by
  have hpieces : (exactPieces sourceText 0 chunks).isEmpty = false := by
    cases chunks with
    | nil => exact absurd rfl hne
    | cons chunk chunks => rfl
  have hscope : (sourceText.length < 0 || sourceText.length < sourceText.length : Bool) = false := by
    simp
  simp only [buildExactReconstructionPieces, Option.getD_none, hscope, raiseIf,
    Bool.false_eq_true, if_false]
  change (collectPieces sourceText sourceText.length true 0
    (chunks.map ExactReconstructionInput.ofRange) >>= _) = _
  rw [collectPieces_of_ordered sourceText hordered]
  simp [bind, Except.bind, hpieces, pure, Except.pure]

/-! ### Putting the source together -/

/-- What a chunk contributes to the reconstruction: its gap and its slot. -/
def ExactReconstructionPiece.emit (piece : ExactReconstructionPiece) (text : Text) : Text :=
  piece.gapBefore ++ piece.sourceText.getD text

@[simp] theorem ExactReconstructionPiece.emit_seal (piece : ExactReconstructionPiece)
    (suffix : Option Text) (text : Text) :
    { piece with suffixAfter := suffix }.emit text = piece.emit text :=
  rfl

@[simp] theorem length_exactPieces (sourceText : Text) (cursor : ℕ)
    (chunks : List (Text × ℕ × ℕ)) :
    (exactPieces sourceText cursor chunks).length = chunks.length := by
  induction chunks generalizing cursor with
  | nil => rfl
  | cons chunk chunks ih => simp [exactPieces, ih]

@[simp] theorem length_sealLast (suffix : Text) (pieces : List ExactReconstructionPiece) :
    (sealLast suffix pieces).length = pieces.length := by
  induction pieces with
  | nil => rfl
  | cons piece pieces ih => cases pieces <;> simp_all [sealLast]

/-- Sealing a non-empty list of pieces changes the last piece only. -/
theorem sealLast_eq_append {pieces : List ExactReconstructionPiece} (hne : pieces ≠ [])
    (suffix : Text) : sealLast suffix pieces =
      pieces.dropLast ++ [{ pieces.getLast hne with suffixAfter := some suffix }] := by
  induction pieces with
  | nil => exact absurd rfl hne
  | cons piece pieces ih =>
    cases pieces with
    | nil => rfl
    | cons next rest =>
      rw [sealLast, ih (by simp), List.dropLast_cons_cons, List.getLast_cons_cons, List.cons_append]
      simp

theorem suffixAfter_of_mem_exactPieces {sourceText : Text} {cursor : ℕ}
    {chunks : List (Text × ℕ × ℕ)} {piece : ExactReconstructionPiece}
    (hmem : piece ∈ exactPieces sourceText cursor chunks) : piece.suffixAfter = none := by
  induction chunks generalizing cursor with
  | nil => cases hmem
  | cons chunk chunks ih =>
    rcases List.mem_cons.mp hmem with rfl | hrest
    · rfl
    · exact ih hrest

/-- The chunks emit the gaps and the source slices of their ranges. -/
theorem flatten_exactPieces (sourceText : Text) (cursor : ℕ) (chunks : List (Text × ℕ × ℕ)) :
    (List.zipWith (fun chunk piece ↦ piece.emit chunk.1) chunks
        (exactPieces sourceText cursor chunks)).flatten =
      cover sourceText cursor (chunks.map Prod.snd) := by
  induction chunks generalizing cursor with
  | nil => rfl
  | cons chunk chunks ih =>
    obtain ⟨text, start, stop⟩ := chunk
    have hslot : (if slice sourceText start stop = text then none
        else some (slice sourceText start stop)).getD text = slice sourceText start stop := by
      split <;> simp_all
    simp only [exactPieces, List.zipWith_cons_cons, List.flatten_cons, List.map_cons, cover, ih]
    simp only [ExactReconstructionPiece.emit, hslot]

/-- Sealing the last piece does not change what the chunks emit. -/
theorem zipWith_emit_sealLast {β : Type} (read : β → Text) (suffix : Text) (chunks : List β)
    (pieces : List ExactReconstructionPiece) :
    List.zipWith (fun chunk piece ↦ ExactReconstructionPiece.emit piece (read chunk)) chunks
        (sealLast suffix pieces) =
      List.zipWith (fun chunk piece ↦ piece.emit (read chunk)) chunks pieces := by
  induction pieces generalizing chunks with
  | nil => rfl
  | cons piece pieces ih =>
    cases chunks with
    | nil => simp
    | cons chunk chunks =>
      cases pieces with
      | nil => rfl
      | cons next rest =>
        rw [sealLast, List.zipWith_cons_cons, List.zipWith_cons_cons, ih]
        simp

/-! ### Storing and selecting a piece -/

/-- `metadata_for_piece`. -/
def metadataForPiece (piece : ExactReconstructionPiece) : Dict :=
  [("version", .num exactReconstructionVersion), ("gap_before", .str piece.gapBefore)] ++
    (piece.sourceText.map fun text ↦ ("source_text", Json.str text)).toList ++
    (piece.suffixAfter.map fun text ↦ ("suffix_after", Json.str text)).toList

/-- `merge_piece_metadata`. -/
def mergePieceMetadata (metadata : Dict) (piece : ExactReconstructionPiece) : Dict :=
  setKey metadata exactReconstructionKey (.obj (metadataForPiece piece))

/-- An optional string entry, `None` counting as absent. -/
def optionalString (value : Option Json) (failure : Failure) : Except Failure (Option Text) :=
  match value with
  | none => .ok none
  | some .null => .ok none
  | some (.str text) => .ok (some text)
  | some _ => .error failure

/-- Whether a JSON value equals the entry version; Python counts `True` as `1`. -/
def isEntryVersion : Option Json → Bool
  | some (.num value) => value = exactReconstructionVersion
  | some (.bool value) => value
  | _ => false

/-- `_parse_piece`. -/
def parsePiece (value : Json) : Except Failure ExactReconstructionPiece :=
  match value with
  | .obj fields => do
    raiseIf (!isEntryVersion (getKey fields "version")) (.value
      "unsupported exact reconstruction metadata version")
    match getKey fields "gap_before" with
    | some (.str gapBefore) => do
      let suffixAfter ← optionalString (getKey fields "suffix_after") (.value
        "exact reconstruction suffix_after must be a string")
      let sourceText ← optionalString (getKey fields "source_text") (.value
        "exact reconstruction source_text must be a string")
      return { gapBefore, sourceText, suffixAfter }
    | _ => .error (.value "exact reconstruction gap_before must be a string")
  | _ => .error (.value "exact reconstruction metadata must be an object")

/-- The piece in one metadata mapping, if it has the key. -/
def pieceOf (metadata : Dict) : Except Failure (Option ExactReconstructionPiece) :=
  match getKey metadata exactReconstructionKey with
  | none => .ok none
  | some value => (parsePiece value).map some

/-- `select_exact_reconstruction_piece`: one piece from the chunk's and the text's metadata,
refusing two that differ. -/
def selectExactReconstructionPiece (chunkMetadata textMetadata : Dict) :
    Except Failure (Option ExactReconstructionPiece) := do
  let selected ← pieceOf chunkMetadata
  let piece ← pieceOf textMetadata
  match selected, piece with
  | some first, some second => do
    raiseIf (first ≠ second) (.value "conflicting exact reconstruction metadata")
    return some second
  | some first, none => return some first
  | none, second => return second

/-- A stored piece is parsed back as it was. -/
theorem parsePiece_metadataForPiece (piece : ExactReconstructionPiece) :
    parsePiece (.obj (metadataForPiece piece)) = .ok piece := by
  obtain ⟨gapBefore, sourceText, suffixAfter⟩ := piece
  cases sourceText <;> cases suffixAfter <;> rfl

theorem pieceOf_eq_none {metadata : Dict} (habsent : getKey metadata exactReconstructionKey = none) :
    pieceOf metadata = .ok none := by
  simp [pieceOf, habsent]

theorem pieceOf_mergePieceMetadata (metadata : Dict) (piece : ExactReconstructionPiece) :
    pieceOf (mergePieceMetadata metadata piece) = .ok (some piece) := by
  simp [pieceOf, mergePieceMetadata, parsePiece_metadataForPiece, Except.map]

/-- A row whose chunk metadata has no entry is read by its text metadata alone. -/
theorem selectExactReconstructionPiece_of_absent {chunkMetadata : Dict}
    (habsent : getKey chunkMetadata exactReconstructionKey = none) (textMetadata : Dict) :
    selectExactReconstructionPiece chunkMetadata textMetadata = pieceOf textMetadata := by
  rw [selectExactReconstructionPiece, pieceOf_eq_none habsent]
  cases htext : pieceOf textMetadata <;> rfl

/-- A piece merged into text metadata is selected when the chunk metadata has none. -/
theorem selectExactReconstructionPiece_merge {chunkMetadata : Dict}
    (habsent : getKey chunkMetadata exactReconstructionKey = none) (metadata : Dict)
    (piece : ExactReconstructionPiece) :
    selectExactReconstructionPiece chunkMetadata (mergePieceMetadata metadata piece) =
      .ok (some piece) := by
  rw [selectExactReconstructionPiece_of_absent habsent, pieceOf_mergePieceMetadata]

end DocStore
