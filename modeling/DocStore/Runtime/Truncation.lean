import DocStore.Runtime.TextReconstruction

/-!
# A text cut at a length limit

The service reader emits the slots of its rows, separator and text, until `max_chars` characters
are out. What it emits is a prefix of the text without a limit, and each range that it reports has
a prefix of its chunk text in it, whatever the limit is. The flag `truncated` says whether anything
is missing, except when the limit is reached in front of a last row that has nothing to emit: then
the loop sets the flag although the text is complete (`truncationLaw_iff`).
-/

set_option autoImplicit false
set_option relaxedAutoImplicit false

namespace DocStore

open Foundation

/-! ### The slots of the rows -/

/-- The separator in front of the text of a row. -/
def separatorOf (pieces : PieceMap) (previousParagraph : Option Uuid) (row : ChunkTextRow) : Text :=
  ((getKey pieces row.chunkId).map ExactReconstructionPiece.gapBefore).getD
    (legacySeparator previousParagraph row.paragraphId)

/-- The chunk text of a row: the exact source text, or the stored text when there is none. -/
def chunkTextOf (pieces : PieceMap) (row : ChunkTextRow) : Text :=
  ((getKey pieces row.chunkId).bind ExactReconstructionPiece.sourceText).getD row.text

/-- The slots of the rows: for each of them its separator and its text. -/
def rowSlots (pieces : PieceMap) : Option Uuid → List ChunkTextRow → List Text
  | _, [] => []
  | previousParagraph, row :: rows =>
    (separatorOf pieces previousParagraph row ++ chunkTextOf pieces row) ::
      rowSlots pieces (some row.paragraphId) rows

/-- The text behind the last slot. -/
def suffixOf (pieces : PieceMap) (rows : List ChunkTextRow) : Text :=
  ((rows.getLast?.bind fun row ↦ getKey pieces row.chunkId).bind
    ExactReconstructionPiece.suffixAfter).getD []

theorem suffixOf_nil (rows : List ChunkTextRow) : suffixOf [] rows = [] := by
  have hnone : (fun row : ChunkTextRow ↦ getKey ([] : PieceMap) row.chunkId) = fun _ ↦ none := rfl
  rw [suffixOf, hnone, Option.bind_fun_none]
  rfl

theorem flatten_rowSlots (pieces : PieceMap) (previousParagraph : Option Uuid)
    (rows : List ChunkTextRow) :
    (rowSlots pieces previousParagraph rows).flatten =
      joinScopeRows pieces previousParagraph (rows.map ChunkTextRow.toScopeRow) := by
  induction rows generalizing previousParagraph with
  | nil => rfl
  | cons row rows ih =>
    rw [rowSlots, List.flatten_cons, ih, List.map_cons, joinScopeRows,
      ← candidate_eq_joinedPayload]
    rfl

/-! ### One row -/

/-- The entry of a row whose text stands between two positions. -/
def ChunkTextRow.entry (row : ChunkTextRow) (textStart textEnd : ℕ) (preview : Text) :
    RangeEntry where
  chunkId := row.chunkId
  paragraphId := row.paragraphId
  chapterId := row.chapterId
  documentId := row.documentId
  fileId := row.fileId
  orderIndex := row.orderIndex
  paragraphOrderIndex := row.paragraphOrderIndex
  textStart := textStart
  textEnd := textEnd
  sourceStart := row.sourceStart
  sourceEnd := row.sourceEnd
  preview := preview

section Loop

variable (host : Host) (maxChars : ℕ) (pieces : PieceMap)

/-- What the loop emits for a row, as far as there is room for it. -/
def emittedFor (state : AssemblyState) (row : ChunkTextRow) : Text :=
  emit maxChars state.body.length
    (separatorOf pieces state.previousParagraph row ++ chunkTextOf pieces row)

/-- The range of a row. -/
def entryFor (state : AssemblyState) (row : ChunkTextRow) : RangeEntry :=
  let separator := separatorOf pieces state.previousParagraph row
  let emitted := emittedFor maxChars pieces state row
  let textStart := state.body.length + min separator.length emitted.length
  row.entry textStart (textStart + (emitted.length - separator.length))
    (host.chunkPreview (chunkTextOf pieces row))

/-- The state after a row, which has a range when some of its text is emitted. -/
def emitRow (state : AssemblyState) (row : ChunkTextRow) : AssemblyState :=
  let emitted := emittedFor maxChars pieces state row
  let separator := separatorOf pieces state.previousParagraph row
  { body := state.body ++ emitted
    rangeMap :=
      if emitted.length - separator.length = 0 then state.rangeMap
      else state.rangeMap ++ [entryFor host maxChars pieces state row]
    truncated := emitted.length < (separator ++ chunkTextOf pieces row).length
    previousParagraph := some row.paragraphId }

variable {host maxChars pieces} {state : AssemblyState} {row : ChunkTextRow}
  {rows : List ChunkTextRow}

theorem assembleRows_of_full (hfull : maxChars ≠ 0 ∧ maxChars ≤ state.body.length) :
    assembleRows host maxChars pieces state (row :: rows) = { state with truncated := true } := by
  rw [assembleRows, if_pos hfull]

theorem assembleRows_of_room (hroom : ¬ (maxChars ≠ 0 ∧ maxChars ≤ state.body.length)) :
    assembleRows host maxChars pieces state (row :: rows) =
      if (emitRow host maxChars pieces state row).truncated then
        emitRow host maxChars pieces state row
      else assembleRows host maxChars pieces (emitRow host maxChars pieces state row) rows := by
  rw [assembleRows, if_neg hroom]
  rfl

/-- Without the flag everything of a row is emitted. -/
theorem emittedFor_eq (hwhole : (emitRow host maxChars pieces state row).truncated = false) :
    emittedFor maxChars pieces state row =
      separatorOf pieces state.previousParagraph row ++ chunkTextOf pieces row := by
  have hlength := of_decide_eq_false hwhole
  simp only [emittedFor, emit] at hlength ⊢
  split
  next => rfl
  next hlimit =>
    rw [if_neg hlimit] at hlength
    exact List.take_of_length_le (by simpa using hlength)

end Loop

/-! ### The ranges -/

/-- An entry reports a row: the text has the beginning of the row's chunk text at the entry. -/
structure Reports (pieces : PieceMap) (text : Text) (row : ChunkTextRow) (entry : RangeEntry) :
    Prop where
  chunkId : entry.chunkId = row.chunkId
  nonempty : entry.textStart < entry.textEnd
  inside : entry.textEnd ≤ text.length
  leads : slice text entry.textStart entry.textEnd <+: chunkTextOf pieces row

/-- Entries behind a position that report some of the rows in their order, one behind the other. -/
structure RangesFrom (pieces : PieceMap) (text : Text) (cursor : ℕ) (rows : List ChunkTextRow)
    (entries : List RangeEntry) : Prop where
  reported : ∃ picked, picked.Sublist rows ∧ List.Forall₂ (Reports pieces text) picked entries
  behind : ∀ entry ∈ entries, cursor ≤ entry.textStart
  ordered : entries.Pairwise fun first second ↦ first.textEnd ≤ second.textStart

section Ranges

variable {pieces : PieceMap} {text : Text} {cursor : ℕ} {rows : List ChunkTextRow}
  {entries : List RangeEntry}

theorem Reports.append {row : ChunkTextRow} {entry : RangeEntry}
    (hreports : Reports pieces text row entry) (later : Text) :
    Reports pieces (text ++ later) row entry := by
  refine ⟨hreports.chunkId, hreports.nonempty, ?_, ?_⟩
  · rw [List.length_append]
    exact hreports.inside.trans (Nat.le_add_right _ _)
  · rw [slice_append_left _ hreports.inside]
    exact hreports.leads

theorem RangesFrom.inside (hranges : RangesFrom pieces text cursor rows entries) :
    ∀ entry ∈ entries, entry.textEnd ≤ text.length := by
  obtain ⟨picked, -, hreported⟩ := hranges.reported
  clear hranges
  induction hreported with
  | nil => simp
  | cons hreports _ ih => exact List.forall_mem_cons.mpr ⟨hreports.inside, ih⟩

theorem RangesFrom.nil (rows : List ChunkTextRow) : RangesFrom pieces text cursor rows [] :=
  ⟨⟨[], List.nil_sublist rows, .nil⟩, by simp, .nil⟩

theorem RangesFrom.of_sublist {more : List ChunkTextRow}
    (hranges : RangesFrom pieces text cursor rows entries) (hrows : rows.Sublist more) :
    RangesFrom pieces text cursor more entries := by
  obtain ⟨picked, hpicked, hreports⟩ := hranges.reported
  exact ⟨⟨picked, hpicked.trans hrows, hreports⟩, hranges.behind, hranges.ordered⟩

/-- Ranges inside a text and ranges behind it. -/
theorem RangesFrom.append {later : Text} {others : List ChunkTextRow} {further : List RangeEntry}
    (hranges : RangesFrom pieces text cursor rows entries) (hcursor : cursor ≤ text.length)
    (hlater : RangesFrom pieces (text ++ later) text.length others further) :
    RangesFrom pieces (text ++ later) cursor (rows ++ others) (entries ++ further) := by
  obtain ⟨picked, hpicked, hreports⟩ := hranges.reported
  obtain ⟨others, hothers, hfurther⟩ := hlater.reported
  refine ⟨⟨picked ++ others, hpicked.append hothers, ?_⟩, ?_, ?_⟩
  · exact List.rel_append (hreports.imp fun _ _ hrow ↦ hrow.append later) hfurther
  · intro entry hmem
    rcases List.mem_append.mp hmem with hmem | hmem
    · exact hranges.behind entry hmem
    · exact hcursor.trans (hlater.behind entry hmem)
  · refine List.pairwise_append.mpr ⟨hranges.ordered, hlater.ordered, ?_⟩
    intro first hfirst second hsecond
    exact (hranges.inside first hfirst).trans (hlater.behind second hsecond)

/-- What is emitted begins as the slot. -/
theorem emit_prefix (maxChars cursor : ℕ) (candidate : Text) :
    emit maxChars cursor candidate <+: candidate := by
  rw [emit]
  split
  · exact List.prefix_rfl
  · exact List.take_prefix _ _

variable {host : Host} {maxChars : ℕ} {state : AssemblyState} {row : ChunkTextRow}

/-- The entry of a row reports it. -/
theorem reports_entryFor
    (hlong : (separatorOf pieces state.previousParagraph row).length <
      (emittedFor maxChars pieces state row).length) :
    Reports pieces (emitRow host maxChars pieces state row).body row
      (entryFor host maxChars pieces state row) := by
  obtain ⟨rest, hrest⟩ : emittedFor maxChars pieces state row <+: _ := emit_prefix _ _ _
  obtain ⟨front, hfront⟩ := List.prefix_of_prefix_length_le
    (List.prefix_append _ (chunkTextOf pieces row)) ⟨rest, hrest⟩ hlong.le
  have hchunk : front ++ rest = chunkTextOf pieces row := by
    rw [← hfront, List.append_assoc] at hrest
    exact List.append_cancel_left hrest
  have hbody : (emitRow host maxChars pieces state row).body =
      (state.body ++ separatorOf pieces state.previousParagraph row) ++ (front ++ []) := by
    rw [List.append_nil, List.append_assoc, hfront]
    rfl
  have hstart : (entryFor host maxChars pieces state row).textStart =
      (state.body ++ separatorOf pieces state.previousParagraph row).length := by
    rw [List.length_append]
    exact congrArg _ (Nat.min_eq_left hlong.le)
  have hstop : (entryFor host maxChars pieces state row).textEnd =
      (state.body ++ separatorOf pieces state.previousParagraph row).length + front.length := by
    have hlength : (emittedFor maxChars pieces state row).length -
        (separatorOf pieces state.previousParagraph row).length = front.length := by
      rw [← hfront, List.length_append, Nat.add_sub_cancel_left]
    rw [← hlength, ← hstart]
    rfl
  have hpositive : 0 < front.length := by
    rw [← hfront, List.length_append] at hlong
    omega
  refine ⟨rfl, by omega, ?_, ?_⟩
  · rw [hstop, hbody, List.append_nil]
    exact List.length_append.ge
  · rw [hstart, hstop, hbody, slice_middle, ← hchunk]
    exact List.prefix_append _ _

/-- What a row adds to the range map. -/
theorem ranges_emitRow :
    ∃ own, (emitRow host maxChars pieces state row).rangeMap = state.rangeMap ++ own ∧
      RangesFrom pieces (emitRow host maxChars pieces state row).body state.body.length [row]
        own := by
  by_cases hlong : (separatorOf pieces state.previousParagraph row).length <
      (emittedFor maxChars pieces state row).length
  · refine ⟨[entryFor host maxChars pieces state row], if_neg (by omega), ?_⟩
    refine ⟨⟨[row], List.Sublist.refl _, .cons (reports_entryFor hlong) .nil⟩, ?_,
      List.pairwise_singleton _ _⟩
    exact List.forall_mem_singleton.mpr (Nat.le_add_right _ _)
  · refine ⟨[], ?_, .nil [row]⟩
    rw [List.append_nil]
    exact if_pos (by omega)

/-- What the loop adds to the text and to the range map. -/
theorem ranges_assembleRows (state : AssemblyState) :
    ∃ added entries, (assembleRows host maxChars pieces state rows).body = state.body ++ added ∧
      (assembleRows host maxChars pieces state rows).rangeMap = state.rangeMap ++ entries ∧
      RangesFrom pieces (assembleRows host maxChars pieces state rows).body state.body.length rows
        entries := by
  induction rows generalizing state with
  | nil => exact ⟨[], [], (List.append_nil _).symm, (List.append_nil _).symm, .nil _⟩
  | cons row rows ih =>
    by_cases hfull : maxChars ≠ 0 ∧ maxChars ≤ state.body.length
    · rw [assembleRows_of_full hfull]
      exact ⟨[], [], (List.append_nil _).symm, (List.append_nil _).symm, .nil _⟩
    rw [assembleRows_of_room hfull]
    obtain ⟨own, hown, hranges⟩ :=
      @ranges_emitRow pieces host maxChars state row
    split
    · refine ⟨emittedFor maxChars pieces state row, own, rfl, hown, ?_⟩
      exact hranges.of_sublist (List.singleton_sublist.mpr List.mem_cons_self)
    · obtain ⟨added, entries, hadded, hentries, hlater⟩ :=
        ih (emitRow host maxChars pieces state row)
      refine ⟨emittedFor maxChars pieces state row ++ added, own ++ entries, ?_, ?_, ?_⟩
      · rw [hadded, ← List.append_assoc]
        rfl
      · rw [hentries, hown, List.append_assoc]
      · rw [hadded] at hlater ⊢
        have hcursor : state.body.length ≤ (emitRow host maxChars pieces state row).body.length :=
          (List.prefix_append _ _).length_le
        exact hranges.append hcursor hlater

end Ranges

/-! ### The text -/

section Text

variable {host : Host} {maxChars : ℕ} {pieces : PieceMap} {rows : List ChunkTextRow}

/-- Slots reach a limit before the last of them. -/
def ReachedEarly (maxChars cursor : ℕ) (slots : List Text) : Prop :=
  slots ≠ [] ∧ maxChars ≤ cursor + slots.dropLast.flatten.length

theorem rowSlots_eq_nil {previousParagraph : Option Uuid} :
    rowSlots pieces previousParagraph rows = [] ↔ rows = [] := by
  cases rows <;> simp [rowSlots]

theorem reachedEarly_cons {cursor : ℕ} {slot : Text} {slots : List Text}
    (hroom : cursor < maxChars) :
    ReachedEarly maxChars cursor (slot :: slots) ↔
      ReachedEarly maxChars (cursor + slot.length) slots := by
  cases slots with
  | nil => simp [ReachedEarly, hroom]
  | cons next slots => simp [ReachedEarly, Nat.add_assoc]

/-- What the loop emits under a limit, and when it sets the flag. -/
theorem assembleRows_limited (hlimit : 0 < maxChars) (state : AssemblyState)
    (hstate : state.truncated = false) (hroom : state.body.length ≤ maxChars) :
    (assembleRows host maxChars pieces state rows).body =
        (state.body ++ (rowSlots pieces state.previousParagraph rows).flatten).take maxChars ∧
      ((assembleRows host maxChars pieces state rows).truncated = true ↔
        maxChars < (state.body ++ (rowSlots pieces state.previousParagraph rows).flatten).length ∨
          ReachedEarly maxChars state.body.length (rowSlots pieces state.previousParagraph rows)) := by
  induction rows generalizing state with
  | nil =>
    refine ⟨?_, ?_⟩
    · simp [assembleRows, rowSlots, List.take_of_length_le hroom]
    · simp [assembleRows, rowSlots, ReachedEarly, hstate, hroom]
  | cons row rows ih =>
    by_cases hfull : maxChars ≠ 0 ∧ maxChars ≤ state.body.length
    · have hlength : state.body.length = maxChars := Nat.le_antisymm hroom hfull.2
      rw [assembleRows_of_full hfull]
      refine ⟨?_, ?_⟩
      · rw [List.take_append_of_le_length hlength.ge, List.take_of_length_le hroom]
      · have hearly : ReachedEarly maxChars state.body.length
            (rowSlots pieces state.previousParagraph (row :: rows)) :=
          ⟨List.cons_ne_nil _ _, hlength.ge.trans (Nat.le_add_right _ _)⟩
        exact iff_of_true rfl (.inr hearly)
    have hspace : state.body.length < maxChars := by omega
    rw [assembleRows_of_room hfull, rowSlots, List.flatten_cons, reachedEarly_cons hspace]
    set slot := separatorOf pieces state.previousParagraph row ++ chunkTextOf pieces row with hslot
    have hemitted : state.body ++ emittedFor maxChars pieces state row =
        (state.body ++ slot).take maxChars := by
      rw [List.take_append, List.take_of_length_le hroom, emittedFor, emit,
        if_neg hlimit.ne']
    split
    next htruncated =>
      have hlong : maxChars < (state.body ++ slot).length := by
        have hshort := of_decide_eq_true htruncated
        simp only [emittedFor, emit, if_neg hlimit.ne', ← hslot] at hshort
        rw [List.length_take] at hshort
        rw [List.length_append]
        omega
      refine ⟨?_, iff_of_true htruncated (.inl ?_)⟩
      · rw [← List.append_assoc, List.take_append_of_le_length hlong.le]
        exact hemitted
      · rw [← List.append_assoc, List.length_append]
        exact Nat.lt_add_right _ hlong
    next hwhole =>
      have hwhole := Bool.eq_false_iff.mpr hwhole
      have hbody : (emitRow host maxChars pieces state row).body = state.body ++ slot :=
        congrArg _ (emittedFor_eq hwhole)
      have hfits : (state.body ++ slot).length ≤ maxChars := by
        have hlength := congrArg List.length hemitted
        rw [emittedFor_eq hwhole, ← hslot, List.length_take] at hlength
        exact hlength.le.trans (Nat.min_le_left _ _)
      obtain ⟨htext, hflag⟩ := ih (emitRow host maxChars pieces state row) hwhole (hbody ▸ hfits)
      rw [hbody] at htext hflag
      rw [← List.append_assoc, ← List.length_append]
      exact ⟨htext, hflag⟩

/-- The suffix is emitted as far as there is room for it. -/
theorem assembleSuffix_limited (hlimit : 0 < maxChars) {state : AssemblyState} {slots : List Text}
    (hbody : state.body = slots.flatten.take maxChars)
    (hflag : state.truncated = true ↔
      maxChars < slots.flatten.length ∨ ReachedEarly maxChars 0 slots) :
    (assembleSuffix maxChars pieces rows state).body =
        (slots.flatten ++ suffixOf pieces rows).take maxChars ∧
      ((assembleSuffix maxChars pieces rows state).truncated = true ↔
        maxChars < (slots.flatten ++ suffixOf pieces rows).length ∨
          ReachedEarly maxChars 0 slots) := by
  have hlonger : slots.flatten.length ≤ (slots.flatten ++ suffixOf pieces rows).length := by
    rw [List.length_append]
    exact Nat.le_add_right _ _
  by_cases htruncated : state.truncated = true
  · have hreached : maxChars ≤ slots.flatten.length := by
      rcases hflag.mp htruncated with hlong | hearly
      · exact hlong.le
      · refine hearly.2.trans ?_
        rw [Nat.zero_add]
        conv_rhs => rw [← List.dropLast_append_getLast hearly.1]
        rw [List.flatten_append, List.length_append]
        exact Nat.le_add_right _ _
    have hsame : assembleSuffix maxChars pieces rows state = state := by
      rw [assembleSuffix, htruncated, Bool.or_true, if_pos rfl]
    rw [hsame, List.take_append_of_le_length hreached]
    refine ⟨hbody, iff_of_true htruncated ?_⟩
    exact (hflag.mp htruncated).imp_left fun hlong ↦ hlong.trans_le hlonger
  · obtain ⟨hshort, hearly⟩ := not_or.mp (htruncated ∘ hflag.mpr)
    rw [List.take_of_length_le (not_lt.mp hshort)] at hbody
    by_cases hpieces : pieces = []
    · have hsame : assembleSuffix maxChars pieces rows state = state := by
        rw [assembleSuffix, hpieces]
        rfl
      rw [hsame, hpieces, suffixOf_nil, List.append_nil, List.take_of_length_le (not_lt.mp hshort)]
      exact ⟨hbody, hflag⟩
    have hopen : (pieces.isEmpty || state.truncated) = false := by
      simp [hpieces, Bool.eq_false_iff.mpr htruncated]
    have hsuffix : assembleSuffix maxChars pieces rows state =
        if maxChars ≠ 0 ∧ maxChars ≤ state.body.length then
          { state with truncated := !(suffixOf pieces rows).isEmpty }
        else
          { state with
            body := state.body ++ emit maxChars state.body.length (suffixOf pieces rows)
            truncated := (emit maxChars state.body.length (suffixOf pieces rows)).length <
              (suffixOf pieces rows).length } := by
      rw [assembleSuffix, hopen, if_neg Bool.false_ne_true]
      rfl
    rw [hsuffix, or_iff_left hearly]
    split
    next hfull =>
      have hlength : state.body.length = maxChars :=
        Nat.le_antisymm (hbody ▸ not_lt.mp hshort) hfull.2
      rw [← hbody, List.take_append_of_le_length hfull.2, List.take_of_length_le hlength.le,
        List.length_append, hlength]
      refine ⟨rfl, ?_⟩
      rw [Bool.not_eq_true', List.isEmpty_eq_false_iff, ← List.length_pos_iff,
        Nat.lt_add_right_iff_pos]
    next hroom =>
      have hspace : state.body.length < maxChars := by omega
      rw [← hbody, List.take_append, List.take_of_length_le hspace.le, emit, if_neg hlimit.ne',
        List.length_append]
      refine ⟨rfl, ?_⟩
      rw [decide_eq_true_eq, List.length_take]
      omega

end Text

/-! ### The law -/

/-- What a length limit does to a text: it cuts it, the flag says whether anything is missing, and
the ranges are right with and without it. -/
structure TruncationLaw (pieces : PieceMap) (rows : List ChunkTextRow) (maxChars : ℕ)
    (whole cut : Assembly) : Prop where
  text : 0 < maxChars → cut.text = whole.text.take maxChars
  truncated : 0 < maxChars → (cut.truncated = true ↔ maxChars < whole.text.length)
  wholeRanges : RangesFrom pieces whole.text 0 rows whole.rangeMap
  cutRanges : RangesFrom pieces cut.text 0 rows cut.rangeMap

/-- The slots of the rows are as long as the limit, and there is nothing in the last of them, nor
behind it. -/
structure EndsEmpty (pieces : PieceMap) (rows : List ChunkTextRow) (maxChars : ℕ) : Prop where
  positive : 0 < maxChars
  length : (rowSlots pieces none rows).flatten.length = maxChars
  lastSlot : (rowSlots pieces none rows).getLast? = some []
  suffix : suffixOf pieces rows = []

section Law

variable {host : Host} {maxChars : ℕ} {pieces : PieceMap} {rows : List ChunkTextRow}

/-- A text that ends at its limit is flagged when the limit is reached before the last slot. -/
theorem endsEmpty_iff (hpositive : 0 < maxChars) :
    EndsEmpty pieces rows maxChars ↔
      ReachedEarly maxChars 0 (rowSlots pieces none rows) ∧
        ((rowSlots pieces none rows).flatten ++ suffixOf pieces rows).length ≤ maxChars := by
  rcases List.eq_nil_or_concat (rowSlots pieces none rows) with hslots | ⟨front, last, hslots⟩
  · constructor
    · intro hempty
      have hlast := hempty.lastSlot
      rw [hslots] at hlast
      cases hlast
    · rintro ⟨hearly, -⟩
      exact absurd hslots hearly.1
  · rw [List.concat_eq_append] at hslots
    have hlength : (rowSlots pieces none rows).flatten.length =
        front.flatten.length + last.length := by
      rw [hslots, List.flatten_append, List.length_append, List.flatten_singleton]
    have hfront : (rowSlots pieces none rows).dropLast = front := by
      rw [hslots, List.dropLast_concat]
    have hlast : (rowSlots pieces none rows).getLast? = some last := by
      rw [hslots, List.getLast?_concat]
    constructor
    · rintro ⟨-, htotal, hempty, hsuffix⟩
      obtain rfl : last = [] := Option.some.inj (hlast.symm.trans hempty)
      refine ⟨⟨by simp [hslots], ?_⟩, ?_⟩
      · rw [hfront, Nat.zero_add, ← htotal, hlength]
        rfl
      · rw [hsuffix, List.append_nil, htotal]
    · rintro ⟨⟨-, hearly⟩, htotal⟩
      rw [hfront, Nat.zero_add] at hearly
      rw [List.length_append, hlength] at htotal
      have hnone : last = [] := List.length_eq_zero_iff.mp (by omega)
      exact ⟨hpositive, by omega, hnone ▸ hlast, List.length_eq_zero_iff.mp (by omega)⟩

/-- What `_assemble` returns for accepted rows. -/
theorem exists_assemble (hpieces : selectExactPieces (rows.map ChunkTextRow.toScopeRow) = .ok pieces)
    (maxChars : ℕ) :
    ∃ assembly, assemble host rows maxChars = .ok assembly ∧
      assembly.text = (assembleSuffix maxChars pieces rows
        (assembleRows host maxChars pieces {} rows)).body ∧
      assembly.truncated = (assembleSuffix maxChars pieces rows
        (assembleRows host maxChars pieces {} rows)).truncated ∧
      RangesFrom pieces assembly.text 0 rows assembly.rangeMap := by
  refine ⟨_, bind_eq_ok.mpr ⟨pieces, hpieces, rfl⟩, rfl, rfl, ?_⟩
  obtain ⟨added, entries, -, hentries, hranges⟩ :=
    @ranges_assembleRows pieces rows host maxChars ({} : AssemblyState)
  obtain ⟨later, hbody, hmap⟩ : ∃ later,
      (assembleSuffix maxChars pieces rows (assembleRows host maxChars pieces {} rows)).body =
        (assembleRows host maxChars pieces {} rows).body ++ later ∧
      (assembleSuffix maxChars pieces rows (assembleRows host maxChars pieces {} rows)).rangeMap =
        (assembleRows host maxChars pieces {} rows).rangeMap := by
    rw [assembleSuffix]
    split
    · exact ⟨[], (List.append_nil _).symm, rfl⟩
    · dsimp only
      split
      · exact ⟨[], (List.append_nil _).symm, rfl⟩
      · exact ⟨_, rfl, rfl⟩
  simp only [hbody, hmap, hentries]
  have hnone : RangesFrom pieces ((assembleRows host maxChars pieces {} rows).body ++ later)
      (assembleRows host maxChars pieces {} rows).body.length [] [] := .nil []
  have hall := hranges.append (Nat.zero_le _) hnone
  rwa [List.append_nil, List.append_nil] at hall

/-- **What a length limit does.** The cut text and all ranges are right, and so is the flag, unless
the text is as long as the limit and ends in front of a last slot with nothing in it. -/
theorem truncationLaw_iff (host : Host) (rows : List ChunkTextRow) (maxChars : ℕ)
    {pieces : PieceMap}
    (hpieces : selectExactPieces (rows.map ChunkTextRow.toScopeRow) = .ok pieces) :
    ∃ whole cut, assemble host rows 0 = .ok whole ∧ assemble host rows maxChars = .ok cut ∧
      (TruncationLaw pieces rows maxChars whole cut ↔ ¬ EndsEmpty pieces rows maxChars) := by
  obtain ⟨whole, hwhole, hwholeText, -, hwholeRanges⟩ := @exists_assemble host pieces rows hpieces 0
  obtain ⟨cut, hcut, hcutText, hcutFlag, hcutRanges⟩ :=
    @exists_assemble host pieces rows hpieces maxChars
  refine ⟨whole, cut, hwhole, hcut, ?_⟩
  have htext : whole.text = (rowSlots pieces none rows).flatten ++ suffixOf pieces rows := by
    have hrows := assembleRows_zero host pieces {} rows rfl
    rw [hwholeText, assembleSuffix_zero pieces rows _ hrows.2, hrows.1, flatten_rowSlots]
    by_cases hempty : pieces = []
    · subst hempty
      rw [suffixOf_nil]
      rfl
    · rw [if_neg (by simpa using hempty), suffixOf, List.getLast?_map, Option.bind_map]
      rfl
  rcases Nat.eq_zero_or_pos maxChars with hzero | hpositive
  · refine iff_of_true ⟨fun hlimit ↦ absurd hzero hlimit.ne', fun hlimit ↦ absurd hzero hlimit.ne',
      hwholeRanges, hcutRanges⟩ fun hempty ↦ hempty.positive.ne' hzero
  obtain ⟨hbody, hflag⟩ := @assembleRows_limited host maxChars pieces rows hpositive {} rfl
    (Nat.zero_le _)
  obtain ⟨hfinal, hfinalFlag⟩ := @assembleSuffix_limited maxChars pieces rows hpositive _ _ hbody hflag
  rw [← htext, ← hcutText] at hfinal
  rw [← htext, ← hcutFlag] at hfinalFlag
  rw [endsEmpty_iff hpositive, ← htext, not_and, not_le]
  constructor
  · intro hlaw hearly
    exact (hlaw.truncated hpositive).mp (hfinalFlag.mpr (.inr hearly))
  · intro hlate
    refine ⟨fun _ ↦ hfinal, fun _ ↦ hfinalFlag.trans ?_, hwholeRanges, hcutRanges⟩
    exact or_iff_left_of_imp hlate

end Law

/-- The limit cuts two rows in the text of the second. -/
theorem truncationLaw_iff_sampleRows :
    ∃ pieces whole cut, selectExactPieces (sampleRows.map ChunkTextRow.toScopeRow) = .ok pieces ∧
      assemble sampleHost sampleRows 0 = .ok whole ∧ assemble sampleHost sampleRows 4 = .ok cut ∧
      (TruncationLaw pieces sampleRows 4 whole cut ↔ ¬ EndsEmpty pieces sampleRows 4) := by
  obtain ⟨pieces, hpieces⟩ :
      ∃ pieces, selectExactPieces (sampleRows.map ChunkTextRow.toScopeRow) = .ok pieces :=
    exists_of_succeeds (by decide +kernel)
  obtain ⟨whole, cut, hlaw⟩ := truncationLaw_iff sampleHost sampleRows 4 hpieces
  exact ⟨pieces, whole, cut, hpieces, hlaw⟩

/-- A chunk with a letter, and behind it one without text. -/
def emptyEndRows : List ChunkTextRow :=
  sampleRows.map fun row ↦
    { row with
      text := if row.chunkId = 1 then lit "a" else []
      textBlockMeta := mergePieceMetadata []
        { gapBefore := [], suffixAfter := if row.chunkId = 1 then none else some [] } }

/-- With the limit at its length, a complete text is flagged as truncated. -/
theorem exists_complete_truncated :
    ¬ ∀ (host : Host) (rows : List ChunkTextRow) (maxChars : ℕ) (pieces : PieceMap),
      selectExactPieces (rows.map ChunkTextRow.toScopeRow) = .ok pieces →
      ∃ whole cut, assemble host rows 0 = .ok whole ∧ assemble host rows maxChars = .ok cut ∧
        TruncationLaw pieces rows maxChars whole cut := by
  intro hall
  obtain ⟨pieces, hpieces⟩ :
      ∃ pieces, selectExactPieces (emptyEndRows.map ChunkTextRow.toScopeRow) = .ok pieces :=
    exists_of_succeeds (by decide +kernel)
  obtain ⟨whole, cut, hwhole, hcut, hlaw⟩ := hall sampleHost emptyEndRows 1 pieces hpieces
  have htext : (toOption (assemble sampleHost emptyEndRows 0)).map Assembly.text =
      some (lit "a") := by decide +kernel
  have hflag : (toOption (assemble sampleHost emptyEndRows 1)).map Assembly.truncated =
      some true := by decide +kernel
  rw [hwhole] at htext
  rw [hcut] at hflag
  have hlonger := (hlaw.truncated Nat.one_pos).mp (Option.some.inj hflag)
  rw [Option.some.inj htext] at hlonger
  exact absurd hlonger (by decide)

end DocStore
