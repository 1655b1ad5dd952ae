import DocStore.Domain.Host
import DocStore.Runtime.ExactReconstruction

/-!
# Reading a text back from its chunk rows

Two readers put the text of a document together from the same rows. `reconstructedScopeText` is the
integrity reader, whose answer decides whether a publication may be committed; `assemble` is the
reader that the services use, which also reports where each chunk stands in the text and stops at a
given length. Both take the exact pieces when the rows have them and legacy separators when none
has, and both refuse a mixture.

`scopeText_eq_assemble` says that the two agree on every list of rows with distinct chunk ids: they
raise together or return the same text. The argument goes through `slots`, the pieces as one list
beside the rows instead of a dict, on which the checks of both readers mean the same.
-/

set_option autoImplicit false
set_option relaxedAutoImplicit false

namespace DocStore

open Foundation

/-- A chunk row as both readers need it. -/
structure ScopeRow where
  chunkId : Uuid
  paragraphId : Uuid
  text : Text
  chunkBlockMeta : Dict
  textBlockMeta : Dict

/-- `_ChunkTextRow`, a chunk row with what the service reader reports about it. -/
structure ChunkTextRow extends ScopeRow where
  chapterId : Uuid
  documentId : Uuid
  orderIndex : ℤ
  paragraphOrderIndex : ℤ
  sourceStart : Option ℤ
  sourceEnd : Option ℤ
  sourceName : Option Text
  sourcePath : Option Text
  fileId : Option Text

/-- The separator between chunk payloads of one paragraph. -/
def withinParagraph : Text := lit " "

/-- The separator between chunk payloads of different paragraphs. -/
def betweenParagraphs : Text := lit "\n\n"

/-! ### Collecting the pieces -/

/-- A dict from chunk ids to pieces. -/
abbrev PieceMap := List (Uuid × ExactReconstructionPiece)

/-- The state of the collecting loop: the pieces so far, the rows without one, and the pieces that
carry a suffix. -/
structure Collected where
  pieces : PieceMap := []
  legacyRows : ℕ := 0
  suffixRows : ℕ := 0

/-- The loop of both readers over their rows. -/
def collectRowPieces : Collected → List ScopeRow → Except Failure Collected
  | collected, [] => .ok collected
  | collected, row :: rows => do
    match ← selectExactReconstructionPiece row.chunkBlockMeta row.textBlockMeta with
    | none => collectRowPieces { collected with legacyRows := collected.legacyRows + 1 } rows
    | some piece =>
      collectRowPieces
        { collected with
          pieces := setKey collected.pieces row.chunkId piece
          suffixRows := collected.suffixRows + if piece.suffixAfter.isSome then 1 else 0 } rows

/-! ### The integrity reader -/

/-- The checks of the integrity reader on the collected pieces. -/
def checkScopePieces (collected : Collected) (rows : List ScopeRow) : Except Failure Unit := do
  let exact := !collected.pieces.isEmpty
  raiseIf (exact && collected.legacyRows ≠ 0) (.value
    "mixed legacy and exact reconstruction metadata")
  raiseIf (exact && collected.pieces.length ≠ rows.length) (.value
    "missing exact reconstruction metadata")
  raiseIf (exact && collected.suffixRows ≠ 1) (.value
    "exact reconstruction requires one final suffix")
  let finalPiece := rows.getLast?.bind fun row ↦ getKey collected.pieces row.chunkId
  raiseIf (exact && !(finalPiece.any fun piece ↦ piece.suffixAfter.isSome)) (.value
    "exact reconstruction suffix must be on the final row")

/-- What the integrity reader joins for a row: the exact slot, or the text behind the separator
that the previous paragraph asks for. -/
def joinedPayload (piece : Option ExactReconstructionPiece) (previousParagraph : Option Uuid)
    (row : ScopeRow) : Text :=
  match piece, previousParagraph with
  | some piece, _ => piece.emit row.text
  | none, none => row.text
  | none, some paragraphId =>
    if row.paragraphId = paragraphId then withinParagraph ++ row.text
    else betweenParagraphs ++ row.text

/-- The joining loop of the integrity reader. -/
def joinScopeRows (pieces : PieceMap) : Option Uuid → List ScopeRow → Text
  | _, [] => []
  | previousParagraph, row :: rows =>
    joinedPayload (getKey pieces row.chunkId) previousParagraph row ++
      joinScopeRows pieces (some row.paragraphId) rows

/-- `_reconstructed_scope_text`, from the rows its query returns. -/
def scopeText (rows : List ScopeRow) : Except Failure Text := do
  let collected ← collectRowPieces {} rows
  checkScopePieces collected rows
  let suffix := (rows.getLast?.bind fun row ↦ getKey collected.pieces row.chunkId).bind
    ExactReconstructionPiece.suffixAfter
  return joinScopeRows collected.pieces none rows ++
    if collected.pieces.isEmpty then [] else suffix.getD []

/-! ### The service reader -/

/-- `_legacy_separator`. -/
def legacySeparator : Option Uuid → Uuid → Text
  | none, _ => []
  | some previousParagraph, paragraphId =>
    if paragraphId = previousParagraph then withinParagraph else betweenParagraphs

/-- The checks of `_select_exact_pieces` on the collected pieces. -/
def checkServicePieces (collected : Collected) (rows : List ScopeRow) : Except Failure Unit := do
  let exact := !collected.pieces.isEmpty
  raiseIf (exact && collected.legacyRows ≠ 0) (.value
    "mixed legacy and exact reconstruction metadata")
  raiseIf (exact && collected.pieces.length ≠ rows.length) (.value
    "missing exact reconstruction metadata")
  raiseIf (exact && collected.suffixRows ≠ 1) (.value
    "exact reconstruction requires one final suffix")
  let finalPiece := rows.getLast?.bind fun row ↦ getKey collected.pieces row.chunkId
  raiseIf (exact && finalPiece.isNone) (.value
    "exact reconstruction final row is missing metadata")
  raiseIf (exact && !(finalPiece.any fun piece ↦ piece.suffixAfter.isSome)) (.value
    "exact reconstruction suffix must be on the final row")
  raiseIf (rows.dropLast.any fun row ↦
      (getKey collected.pieces row.chunkId).any fun piece ↦ piece.suffixAfter.isSome) (.value
    "exact reconstruction suffix must not appear before the final row")

/-- `_select_exact_pieces`. -/
def selectExactPieces (rows : List ScopeRow) : Except Failure PieceMap := do
  let collected ← collectRowPieces {} rows
  checkServicePieces collected rows
  return collected.pieces

/-- One entry of the range map: a chunk and where its text stands in the assembled text. -/
structure RangeEntry where
  chunkId : Uuid
  paragraphId : Uuid
  chapterId : Uuid
  documentId : Uuid
  fileId : Option Text
  orderIndex : ℤ
  paragraphOrderIndex : ℤ
  textStart : ℕ
  textEnd : ℕ
  sourceStart : Option ℤ
  sourceEnd : Option ℤ
  preview : Text

/-- The state of the assembling loop. -/
structure AssemblyState where
  body : Text := []
  rangeMap : List RangeEntry := []
  truncated : Bool := false
  previousParagraph : Option Uuid := none

/-- `candidate[:available] if max_chars else candidate`, where `cursor` characters are already
emitted. -/
def emit (maxChars cursor : ℕ) (candidate : Text) : Text :=
  if maxChars = 0 then candidate else candidate.take (maxChars - cursor)

/-- The loop of `_assemble` over its rows. -/
def assembleRows (host : Host) (maxChars : ℕ) (exactPieces : PieceMap) :
    AssemblyState → List ChunkTextRow → AssemblyState
  | state, [] => state
  | state, row :: rows =>
    let cursor := state.body.length
    let exactPiece := getKey exactPieces row.chunkId
    let separator :=
      (exactPiece.map ExactReconstructionPiece.gapBefore).getD
        (legacySeparator state.previousParagraph row.paragraphId)
    let chunkText := (exactPiece.bind ExactReconstructionPiece.sourceText).getD row.text
    let candidate := separator ++ chunkText
    if maxChars ≠ 0 ∧ maxChars ≤ cursor then { state with truncated := true }
    else
      let emitted := emit maxChars cursor candidate
      let separatorLength := min separator.length emitted.length
      let chunkLength := emitted.length - separator.length
      let entry : RangeEntry :=
        { chunkId := row.chunkId
          paragraphId := row.paragraphId
          chapterId := row.chapterId
          documentId := row.documentId
          fileId := row.fileId
          orderIndex := row.orderIndex
          paragraphOrderIndex := row.paragraphOrderIndex
          textStart := cursor + separatorLength
          textEnd := cursor + separatorLength + chunkLength
          sourceStart := row.sourceStart
          sourceEnd := row.sourceEnd
          preview := host.chunkPreview chunkText }
      let next : AssemblyState :=
        { body := state.body ++ emitted
          rangeMap := if chunkLength = 0 then state.rangeMap else state.rangeMap ++ [entry]
          truncated := emitted.length < candidate.length
          previousParagraph := some row.paragraphId }
      if next.truncated then next else assembleRows host maxChars exactPieces next rows

/-- Emits the final suffix unless the text is already truncated. -/
def assembleSuffix (maxChars : ℕ) (exactPieces : PieceMap) (rows : List ChunkTextRow)
    (state : AssemblyState) : AssemblyState :=
  if exactPieces.isEmpty || state.truncated then state
  else
    let suffix := ((rows.getLast?.bind fun row ↦ getKey exactPieces row.chunkId).bind
      ExactReconstructionPiece.suffixAfter).getD []
    if maxChars ≠ 0 ∧ maxChars ≤ state.body.length then
      { state with truncated := !suffix.isEmpty }
    else
      let emitted := emit maxChars state.body.length suffix
      { state with
        body := state.body ++ emitted
        truncated := emitted.length < suffix.length }

/-- What `_assemble` returns about a text. -/
structure Assembly where
  text : Text
  preview : Text
  bodySha256 : Text
  charCount : ℕ
  chunkCount : ℕ
  paragraphCount : ℕ
  documentIds : List Uuid
  chapterIds : List Uuid
  sourceNames : List Text
  sourcePaths : List Text
  rangeMap : List RangeEntry
  truncated : Bool
  maxChars : ℕ

/-- `sorted(set(ids))`. -/
def sortedIds (ids : List Uuid) : List Uuid :=
  ids.eraseDups.insertionSort fun first second ↦ first.toNat ≤ second.toNat

/-- `_assemble`. -/
def assemble (host : Host) (rows : List ChunkTextRow) (maxChars : ℕ) :
    Except Failure Assembly := do
  let exactPieces ← selectExactPieces (rows.map ChunkTextRow.toScopeRow)
  let state := assembleSuffix maxChars exactPieces rows
    (assembleRows host maxChars exactPieces {} rows)
  return {
    text := state.body
    preview := host.chunkPreview state.body
    bodySha256 := host.hexdigest state.body
    charCount := state.body.length
    chunkCount := state.rangeMap.length
    paragraphCount := (state.rangeMap.map RangeEntry.paragraphId).eraseDups.length
    documentIds := sortedIds (rows.map ChunkTextRow.documentId)
    chapterIds := sortedIds (rows.map ChunkTextRow.chapterId)
    sourceNames := sortedSet
      ((rows.filterMap ChunkTextRow.sourceName).filter fun name ↦ !name.isEmpty)
    sourcePaths := sortedSet
      ((rows.filterMap ChunkTextRow.sourcePath).filter fun path ↦ !path.isEmpty)
    rangeMap := state.rangeMap
    truncated := state.truncated
    maxChars }

/-! ### What the collecting loop finds -/

/-- The piece that a row's metadata selects. -/
def ScopeRow.selected (row : ScopeRow) : Except Failure (Option ExactReconstructionPiece) :=
  selectExactReconstructionPiece row.chunkBlockMeta row.textBlockMeta

/-- Whether a row's collected piece carries a suffix. -/
def carriesSuffix (pieces : PieceMap) (row : ScopeRow) : Bool :=
  (getKey pieces row.chunkId).any fun piece ↦ piece.suffixAfter.isSome

/-- The collecting loop leaves other chunk ids alone, stores for each row the piece its metadata
selects, and counts. -/
structure CollectedFrom (start : Collected) (rows : List ScopeRow) (result : Collected) : Prop where
  frame : ∀ chunkId, (∀ row ∈ rows, row.chunkId ≠ chunkId) →
    getKey result.pieces chunkId = getKey start.pieces chunkId
  selected : ∀ row ∈ rows, row.selected = .ok (getKey result.pieces row.chunkId)
  legacyRows : result.legacyRows =
    start.legacyRows + rows.countP fun row ↦ (getKey result.pieces row.chunkId).isNone
  suffixRows : result.suffixRows = start.suffixRows + rows.countP (carriesSuffix result.pieces)
  length : result.pieces.length =
    start.pieces.length + rows.countP fun row ↦ (getKey result.pieces row.chunkId).isSome

theorem collectRowPieces_spec {start result : Collected} {rows : List ScopeRow}
    (hnodup : (rows.map ScopeRow.chunkId).Nodup)
    (hfresh : ∀ row ∈ rows, getKey start.pieces row.chunkId = none)
    (hcollect : collectRowPieces start rows = .ok result) : CollectedFrom start rows result := by
  induction rows generalizing start with
  | nil =>
    cases hcollect
    exact ⟨fun _ _ ↦ rfl, by simp, by simp, by simp, by simp⟩
  | cons row rows ih =>
    rw [List.map_cons, List.nodup_cons] at hnodup
    have hother : ∀ later ∈ rows, later.chunkId ≠ row.chunkId := fun later hlater heq ↦
      hnodup.1 (heq ▸ List.mem_map_of_mem hlater)
    have hlater : ∀ later ∈ rows, getKey start.pieces later.chunkId = none := fun later hmem ↦
      hfresh later (List.mem_cons_of_mem _ hmem)
    obtain ⟨piece, hselected, hcollect⟩ := bind_eq_ok.mp hcollect
    cases piece with
    | none =>
      have hspec : CollectedFrom { start with legacyRows := start.legacyRows + 1 } rows result :=
        ih hnodup.2 hlater hcollect
      have hrow : getKey result.pieces row.chunkId = none :=
        (hspec.frame row.chunkId hother).trans (hfresh row (by simp))
      refine ⟨fun chunkId hne ↦ hspec.frame chunkId fun later hmem ↦
          hne later (List.mem_cons_of_mem _ hmem),
        List.forall_mem_cons.mpr ⟨hrow ▸ hselected, hspec.selected⟩, ?_, ?_, ?_⟩
      · simp only [hspec.legacyRows, List.countP_cons, hrow, Option.isNone_none, if_true]
        omega
      · simp [hspec.suffixRows, carriesSuffix, hrow]
      · simp [hspec.length, hrow]
    | some piece =>
      have hspec := ih hnodup.2 (fun later hmem ↦ by
        rw [getKey_setKey_of_ne _ _ (hother later hmem), hlater later hmem]) hcollect
      have hrow : getKey result.pieces row.chunkId = some piece := by
        rw [hspec.frame row.chunkId hother, getKey_setKey_self]
      have hlength := length_setKey_of_getKey_eq_none piece (hfresh row (by simp))
      refine ⟨fun chunkId hne ↦ ?_,
        List.forall_mem_cons.mpr ⟨hrow ▸ hselected, hspec.selected⟩, ?_, ?_, ?_⟩
      · rw [hspec.frame chunkId fun later hmem ↦ hne later (List.mem_cons_of_mem _ hmem),
          getKey_setKey_of_ne _ _ (hne row (by simp)).symm]
      · simp [hspec.legacyRows, hrow]
      · simp only [hspec.suffixRows, List.countP_cons, carriesSuffix, hrow, Option.any_some]
        omega
      · simp only [hspec.length, List.countP_cons, hrow, hlength, Option.isSome_some, if_true]
        omega

/-! ### The two readers agree -/

/-- Once the integrity reader accepts the pieces, only the last row carries a suffix. -/
theorem no_earlier_suffix {collected : Collected} {rows : List ScopeRow}
    (hsuffix : rows.countP (carriesSuffix collected.pieces) = 1)
    (hfinal : (rows.getLast?.bind fun row ↦ getKey collected.pieces row.chunkId).any
      fun piece ↦ piece.suffixAfter.isSome) :
    rows.dropLast.any (carriesSuffix collected.pieces) = false := by
  rcases List.eq_nil_or_concat rows with rfl | ⟨front, last, rfl⟩
  · rfl
  · have hlast : carriesSuffix collected.pieces last = true := by
      simpa [carriesSuffix] using hfinal
    rw [List.concat_eq_append, List.countP_append, List.countP_singleton, if_pos hlast] at hsuffix
    have hfront : front.countP (carriesSuffix collected.pieces) = 0 := by omega
    rw [List.concat_eq_append, List.dropLast_concat, List.any_eq_false]
    exact fun row hmem ↦ List.countP_eq_zero.mp hfront row hmem

/-- What the integrity reader asks of the collected pieces: none at all, or one for every row, and
of these exactly one with a suffix, the last. -/
def PiecesAccepted (collected : Collected) (rows : List ScopeRow) : Prop :=
  collected.pieces = [] ∨
    collected.legacyRows = 0 ∧ collected.pieces.length = rows.length ∧ collected.suffixRows = 1 ∧
      (rows.getLast?.bind fun row ↦ getKey collected.pieces row.chunkId).any
        fun piece ↦ piece.suffixAfter.isSome

theorem checkScopePieces_eq_ok {collected : Collected} {rows : List ScopeRow} :
    checkScopePieces collected rows = .ok () ↔ PiecesAccepted collected rows := by
  unfold checkScopePieces PiecesAccepted
  simp only [raiseIf_bind_eq_ok, raiseIf_eq_ok]
  by_cases hempty : collected.pieces = [] <;> simp [hempty]

theorem checkServicePieces_eq_ok {collected : Collected} {rows : List ScopeRow}
    (hcollected : CollectedFrom {} rows collected) :
    checkServicePieces collected rows = .ok () ↔ PiecesAccepted collected rows := by
  have hscope : checkServicePieces collected rows = .ok () ↔
      PiecesAccepted collected rows ∧
        rows.dropLast.any (carriesSuffix collected.pieces) = false := by
    unfold checkServicePieces PiecesAccepted
    simp only [raiseIf_bind_eq_ok, raiseIf_eq_ok]
    by_cases hempty : collected.pieces = []
    · simp [hempty, carriesSuffix]
    · generalize (rows.getLast?.bind fun row ↦ getKey collected.pieces row.chunkId) = finalPiece
      cases finalPiece <;> simp [hempty, carriesSuffix, and_assoc]
  rw [hscope, and_iff_left_iff_imp]
  rintro (hempty | ⟨-, -, hsuffix, hfinal⟩)
  · simp [carriesSuffix, hempty, getKey]
  · exact no_earlier_suffix (by simpa [hsuffix] using hcollected.suffixRows.symm) hfinal

/-- What the service reader emits for a row is what the integrity reader joins for it. -/
theorem candidate_eq_joinedPayload (piece : Option ExactReconstructionPiece)
    (previousParagraph : Option Uuid) (row : ScopeRow) :
    (piece.map ExactReconstructionPiece.gapBefore).getD
          (legacySeparator previousParagraph row.paragraphId) ++
        (piece.bind ExactReconstructionPiece.sourceText).getD row.text =
      joinedPayload piece previousParagraph row := by
  cases piece with
  | some piece => rfl
  | none =>
    cases previousParagraph with
    | none => rfl
    | some paragraphId =>
      by_cases hsame : row.paragraphId = paragraphId <;>
        simp [legacySeparator, joinedPayload, hsame]

/-- Without a length limit the assembling loop emits what the joining loop joins. -/
theorem assembleRows_zero (host : Host) (pieces : PieceMap) (state : AssemblyState)
    (rows : List ChunkTextRow) (hstate : state.truncated = false) :
    (assembleRows host 0 pieces state rows).body =
        state.body ++ joinScopeRows pieces state.previousParagraph
          (rows.map ChunkTextRow.toScopeRow) ∧
      (assembleRows host 0 pieces state rows).truncated = false := by
  induction rows generalizing state with
  | nil => simp [assembleRows, joinScopeRows, hstate]
  | cons row rows ih =>
    rw [assembleRows]
    simp only [ne_eq, not_true_eq_false, false_and, if_false, emit, if_true, lt_irrefl,
      decide_false, Bool.false_eq_true]
    constructor
    · rw [(ih _ rfl).1, List.map_cons, joinScopeRows, candidate_eq_joinedPayload,
        List.append_assoc]
    · exact (ih _ rfl).2

/-- Without a length limit the suffix of the final piece follows, when there are pieces. -/
theorem assembleSuffix_zero (pieces : PieceMap) (rows : List ChunkTextRow) (state : AssemblyState)
    (hstate : state.truncated = false) :
    (assembleSuffix 0 pieces rows state).body =
      state.body ++
        if pieces.isEmpty then []
        else (((rows.map ChunkTextRow.toScopeRow).getLast?.bind fun row ↦
          getKey pieces row.chunkId).bind ExactReconstructionPiece.suffixAfter).getD [] := by
  by_cases hempty : pieces.isEmpty
  · simp [assembleSuffix, hempty]
  · simp [assembleSuffix, hempty, hstate, emit, List.getLast?_map, Option.bind_map]

/-- What the integrity reader returns, the service reader returns too. -/
theorem assemble_of_scopeText (host : Host) {rows : List ChunkTextRow} {text : Text}
    (hnodup : (rows.map fun row ↦ row.chunkId).Nodup)
    (hscope : scopeText (rows.map ChunkTextRow.toScopeRow) = .ok text) :
    ∃ assembly, assemble host rows 0 = .ok assembly ∧ assembly.text = text := by
  obtain ⟨collected, hcollect, hscope⟩ := bind_eq_ok.mp hscope
  obtain ⟨_, hcheck, hscope⟩ := bind_eq_ok.mp hscope
  have hspec := collectRowPieces_spec (by rwa [List.map_map]) (fun _ _ ↦ rfl) hcollect
  have hservice := (checkServicePieces_eq_ok hspec).mpr (checkScopePieces_eq_ok.mp hcheck)
  have hpieces : selectExactPieces (rows.map ChunkTextRow.toScopeRow) = .ok collected.pieces :=
    bind_eq_ok.mpr ⟨collected, hcollect, bind_eq_ok.mpr ⟨(), hservice, rfl⟩⟩
  have hbody := assembleRows_zero host collected.pieces {} rows rfl
  refine ⟨_, bind_eq_ok.mpr ⟨collected.pieces, hpieces, rfl⟩, ?_⟩
  cases hscope
  rw [assembleSuffix_zero collected.pieces rows _ hbody.2, hbody.1]
  rfl

/-- What the service reader returns without a length limit, the integrity reader returns too. -/
theorem scopeText_of_assemble {host : Host} {rows : List ChunkTextRow} {assembly : Assembly}
    (hnodup : (rows.map fun row ↦ row.chunkId).Nodup)
    (hassemble : assemble host rows 0 = .ok assembly) :
    scopeText (rows.map ChunkTextRow.toScopeRow) = .ok assembly.text := by
  obtain ⟨pieces, hpieces, hassembly⟩ := bind_eq_ok.mp hassemble
  obtain ⟨collected, hcollect, hpieces⟩ := bind_eq_ok.mp hpieces
  obtain ⟨_, hservice, hpieces⟩ := bind_eq_ok.mp hpieces
  cases hpieces
  have hspec := collectRowPieces_spec (by rwa [List.map_map]) (fun _ _ ↦ rfl) hcollect
  have hcheck := checkScopePieces_eq_ok.mpr ((checkServicePieces_eq_ok hspec).mp hservice)
  have hbody := assembleRows_zero host collected.pieces {} rows rfl
  refine bind_eq_ok.mpr ⟨collected, hcollect, bind_eq_ok.mpr ⟨(), hcheck, ?_⟩⟩
  cases hassembly
  rw [assembleSuffix_zero collected.pieces rows _ hbody.2, hbody.1]
  rfl

/-- **The two readers agree.** On every list of chunk rows with distinct ids the integrity reader
and the service reader without a length limit raise together or return the same text. -/
theorem scopeText_eq_assemble (host : Host) (rows : List ChunkTextRow)
    (hnodup : (rows.map fun row ↦ row.chunkId).Nodup) :
    toOption (scopeText (rows.map ChunkTextRow.toScopeRow)) =
      (toOption (assemble host rows 0)).map Assembly.text := by
  cases hassemble : assemble host rows 0 with
  | ok assembly => rw [scopeText_of_assemble hnodup hassemble, toOption_ok, toOption_ok, Option.map_some]
  | error failure =>
    cases hscope : scopeText (rows.map ChunkTextRow.toScopeRow) with
    | error other => rfl
    | ok text =>
      obtain ⟨assembly, hok, -⟩ := assemble_of_scopeText host hnodup hscope
      rw [hok] at hassemble
      cases hassemble

/-- Two rows of one paragraph, the second of which ends the document. -/
def sampleRows : List ChunkTextRow :=
  let row (chunkId : Uuid) (text : Text) (piece : ExactReconstructionPiece) : ChunkTextRow :=
    { chunkId, paragraphId := 3, text, chunkBlockMeta := []
      textBlockMeta := mergePieceMetadata [] piece, chapterId := 4, documentId := 5, orderIndex := 0
      paragraphOrderIndex := 0, sourceStart := none, sourceEnd := none, sourceName := none
      sourcePath := none, fileId := none }
  [row 1 (lit "a") { gapBefore := lit "# " },
    row 2 (lit "b") { gapBefore := lit "\n", suffixAfter := some (lit "\n") }]

/-- The readers agree on two rows. -/
theorem scopeText_eq_assemble_sampleRows :
    toOption (scopeText (sampleRows.map ChunkTextRow.toScopeRow)) =
      (toOption (assemble sampleHost sampleRows 0)).map Assembly.text :=
  scopeText_eq_assemble sampleHost sampleRows (by decide)

/-! ### Reading exact rows -/

/-- The collecting loop only fails on a row whose metadata it cannot read. -/
theorem collectRowPieces_total {rows : List ScopeRow}
    (hselected : ∀ row ∈ rows, ∃ piece, row.selected = .ok piece) (start : Collected) :
    ∃ result, collectRowPieces start rows = .ok result := by
  induction rows generalizing start with
  | nil => exact ⟨start, rfl⟩
  | cons row rows ih =>
    obtain ⟨piece, hpiece⟩ := hselected row (by simp)
    have hrest := ih fun later hmem ↦ hselected later (List.mem_cons_of_mem _ hmem)
    cases piece with
    | none =>
      obtain ⟨result, hresult⟩ := hrest { start with legacyRows := start.legacyRows + 1 }
      exact ⟨result, bind_eq_ok.mpr ⟨none, hpiece, hresult⟩⟩
    | some piece =>
      obtain ⟨result, hresult⟩ := hrest _
      exact ⟨result, bind_eq_ok.mpr ⟨some piece, hpiece, hresult⟩⟩

theorem joinScopeRows_of_exact {pieces : PieceMap} {rows : List ScopeRow}
    {exact : List ExactReconstructionPiece}
    (hpieces : rows.map (fun row ↦ getKey pieces row.chunkId) = exact.map some)
    (previousParagraph : Option Uuid) :
    joinScopeRows pieces previousParagraph rows =
      (List.zipWith (fun row piece ↦ piece.emit row.text) rows exact).flatten := by
  induction rows generalizing exact previousParagraph with
  | nil => rfl
  | cons row rows ih =>
    cases exact with
    | nil => cases hpieces
    | cons piece exact =>
      rw [List.map_cons, List.map_cons, List.cons_eq_cons] at hpieces
      rw [joinScopeRows, hpieces.1, ih hpieces.2]
      rfl

/-- When every row selects a piece and only the last piece has a suffix, the integrity reader
returns the slots of the rows, one behind the other, and the suffix. -/
theorem scopeText_of_exact {rows : List ScopeRow} {front : List ExactReconstructionPiece}
    {last : ExactReconstructionPiece} {suffix : Text}
    (hnodup : (rows.map ScopeRow.chunkId).Nodup)
    (hselected : rows.map ScopeRow.selected =
      (front ++ [last]).map fun piece ↦ .ok (some piece))
    (hfront : ∀ piece ∈ front, piece.suffixAfter = none) (hlast : last.suffixAfter = some suffix) :
    scopeText rows =
      .ok ((List.zipWith (fun row piece ↦ piece.emit row.text) rows (front ++ [last])).flatten ++
        suffix) := by
  obtain ⟨collected, hcollect⟩ := collectRowPieces_total (fun row hmem ↦ by
    obtain ⟨piece, -, hpiece⟩ := List.mem_map.mp (hselected ▸ List.mem_map_of_mem hmem)
    exact ⟨_, hpiece.symm⟩) {}
  have hspec := collectRowPieces_spec hnodup (fun _ _ ↦ rfl) hcollect
  have hmap : rows.map (fun row ↦ getKey collected.pieces row.chunkId) =
      (front ++ [last]).map some := by
    have hok : (rows.map fun row ↦ getKey collected.pieces row.chunkId).map
        (Except.ok (ε := Failure)) = ((front ++ [last]).map some).map Except.ok := by
      rw [List.map_map, List.map_map]
      exact (List.map_congr_left hspec.selected).symm.trans hselected
    exact List.map_injective_iff.mpr (fun first second ↦ Except.ok.inj) hok
  have hcount : ∀ condition : Option ExactReconstructionPiece → Bool,
      rows.countP (fun row ↦ condition (getKey collected.pieces row.chunkId)) =
        (front ++ [last]).countP fun piece ↦ condition (some piece) := by
    intro condition
    have := congrArg (List.countP condition) hmap
    rwa [List.countP_map, List.countP_map] at this
  have hfinal : (rows.getLast?.bind fun row ↦ getKey collected.pieces row.chunkId) =
      some last := by
    have := congrArg List.getLast? hmap
    rw [List.getLast?_map, List.getLast?_map, List.getLast?_concat] at this
    cases hrows : rows.getLast? with
    | none => simp [hrows] at this
    | some row => simpa [hrows] using this
  have hsuffixes : (front ++ [last]).countP (fun piece ↦ piece.suffixAfter.isSome) = 1 := by
    rw [List.countP_append, List.countP_eq_zero.mpr (by simpa using hfront),
      List.countP_singleton]
    simp [hlast]
  have haccepted : PiecesAccepted collected rows := by
    refine Or.inr ⟨?_, ?_, ?_, ?_⟩
    · simp [hspec.legacyRows, hcount Option.isNone]
    · have hlength := congrArg List.length hmap
      simp only [List.length_map] at hlength
      rw [hspec.length, hcount Option.isSome, hlength]
      simp
    · rw [hspec.suffixRows, ← hsuffixes]
      exact (Nat.zero_add _).trans
        (hcount (Option.any fun piece : ExactReconstructionPiece ↦ piece.suffixAfter.isSome))
    · simp [hfinal, hlast]
  have hempty : collected.pieces.isEmpty = false := by
    cases hpieces : collected.pieces with
    | nil => simp [hpieces, getKey] at hfinal
    | cons entry entries => rfl
  refine bind_eq_ok.mpr ⟨collected, hcollect,
    bind_eq_ok.mpr ⟨(), checkScopePieces_eq_ok.mpr haccepted, ?_⟩⟩
  simp only [hfinal, hempty, joinScopeRows_of_exact hmap, Option.bind_some, hlast]
  rfl

end DocStore
