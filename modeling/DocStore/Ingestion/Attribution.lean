import DocStore.Foundation.Offsets
import DocStore.Ingestion.Hierarchy

/-!
# The chunk at fault

When the text that was read back is not the source, the refusal names a chunk: the one that the
first differing byte lies in. `_publish` finds it from the ends of the chunks, which it adds up while
it writes them. But it adds the separators that texts without exact metadata are joined with, and the
text is put together with the gaps of the plan. So the chunk that is named is the right one exactly
when the separators have not run away from the gaps at the offset (`namesFault_iff`).
-/

set_option autoImplicit false
set_option relaxedAutoImplicit false

namespace DocStore

open Foundation

/-! ### What `_publish` names -/

/-- `_reconstruction_separator`. -/
def reconstructionSeparator (previousParagraphId : Option Uuid) (paragraphId : Uuid) : Text :=
  match previousParagraphId with
  | none => []
  | some previous => if previous = paragraphId then withinParagraph else betweenParagraphs

/-- What `_publish` adds up while it writes the chunks. -/
structure SpanState where
  reconstructionLength : ℕ := 0
  previousParagraphId : Option Uuid := none
  chunkSpans : List (Uuid × ℕ) := []

/-- One turn of the loop over the sentences. -/
def SpanState.add (ids : PublicationIds) (state : SpanState) (placed : PlacedSentence) : SpanState :=
  let paragraphId := ids.paragraphId placed.orderIndex
  let (sentence, piece) := placed.entry
  let separator := reconstructionSeparator state.previousParagraphId paragraphId
  let reconstructionText := piece.sourceText.getD sentence.text
  let reconstructionLength := state.reconstructionLength + (encodeUtf8 separator).length +
    (encodeUtf8 reconstructionText).length
  { reconstructionLength
    previousParagraphId := some paragraphId
    chunkSpans := state.chunkSpans ++ [(sentence.uuid, reconstructionLength)] }

/-- `chunk_spans` at the end of both loops. -/
def chunkSpans (ids : PublicationIds) (plan : List PlannedParagraph) : List (Uuid × ℕ) :=
  ((placedSentences 0 plan).foldl (SpanState.add ids) {}).chunkSpans

/-- `_chunk_at_offset`. -/
def chunkAtOffset (chunkSpans : List (Uuid × ℕ)) (firstDifferenceOffset : Option ℕ) : Option Uuid :=
  firstDifferenceOffset.bind fun offset ↦
    ((chunkSpans.find? fun span ↦ offset < span.2).or chunkSpans.getLast?).map Prod.fst

/-- The chunk that the refusal of a text names. -/
def chunkAtFault (ids : PublicationIds) (plan : List PlannedParagraph)
    (sourceText reconstructedText : Text) : Option Uuid :=
  chunkAtOffset (chunkSpans ids plan) (integrityVerdict sourceText reconstructedText).2

/-! ### The slots of a plan -/

/-- A chunk of a plan with the separator and with the gap in front of it. -/
structure ChunkSlot where
  chunkId : Uuid
  separator : Text
  gap : Text
  text : Text
deriving DecidableEq

/-- The slots of some sentences behind a paragraph. -/
def chunkSlots (ids : PublicationIds) : Option Uuid → List PlacedSentence → List ChunkSlot
  | _, [] => []
  | previous, placed :: rest =>
    let paragraphId := ids.paragraphId placed.orderIndex
    { chunkId := placed.entry.1.uuid
      separator := reconstructionSeparator previous paragraphId
      gap := placed.entry.2.gapBefore
      text := placed.entry.2.sourceText.getD placed.entry.1.text } ::
        chunkSlots ids (some paragraphId) rest

/-- The slots of a plan. -/
def slotsOf (ids : PublicationIds) (plan : List PlannedParagraph) : List ChunkSlot :=
  chunkSlots ids none (placedSentences 0 plan)

namespace ChunkSlot

/-- The bytes of the separator. -/
def separatorBytes (slot : ChunkSlot) : ℕ := (encodeUtf8 slot.separator).length

/-- The bytes of the gap. -/
def gapBytes (slot : ChunkSlot) : ℕ := (encodeUtf8 slot.gap).length

/-- The bytes of the text. -/
def textBytes (slot : ChunkSlot) : ℕ := (encodeUtf8 slot.text).length

/-- The bytes of the slot: of its gap and its text. -/
def bytes (slot : ChunkSlot) : ℕ := slot.gapBytes + slot.textBytes

end ChunkSlot

/-- A byte lies in the slot of a chunk, or behind all slots, and then the chunk is the last one. -/
def IsAtFault (ids : PublicationIds) (plan : List PlannedParagraph) (offset : ℕ) (chunkId : Uuid) :
    Prop :=
  ∃ before slot after, slotsOf ids plan = before ++ slot :: after ∧ slot.chunkId = chunkId ∧
    LiesIn ChunkSlot.bytes offset before slot after

/-- The separators keep up with the gaps at an offset: those before the slot that it lies in are not
longer than the gaps there by more than what the offset is into the slot, and those up to the end of
the slot do not fall behind by what is left of it, unless it is the last one. -/
def SeparatorsKeepUp (ids : PublicationIds) (plan : List PlannedParagraph) (offset : ℕ) : Prop :=
  ∃ before slot after, slotsOf ids plan = before ++ slot :: after ∧
    LiesIn ChunkSlot.bytes offset before slot after ∧
    totalSize ChunkSlot.bytes before + totalSize ChunkSlot.separatorBytes before ≤
      offset + totalSize ChunkSlot.gapBytes before ∧
    (after = [] ∨ offset + totalSize ChunkSlot.gapBytes (before ++ [slot]) <
      totalSize ChunkSlot.bytes (before ++ [slot]) +
        totalSize ChunkSlot.separatorBytes (before ++ [slot]))

section Attribution

variable {ids : PublicationIds} {plan : List PlannedParagraph} {offset : ℕ}

/-- The bytes that `_publish` adds up for a chunk. -/
def ChunkSlot.addedBytes (slot : ChunkSlot) : ℕ := slot.separatorBytes + slot.textBytes

theorem chunkSpans_foldl (placed : List PlacedSentence) (state : SpanState) :
    (placed.foldl (SpanState.add ids) state).chunkSpans = state.chunkSpans ++
      (endsOf ChunkSlot.addedBytes state.reconstructionLength
        (chunkSlots ids state.previousParagraphId placed)).map fun entry ↦
          (entry.1.chunkId, entry.2) := by
  induction placed generalizing state with
  | nil => exact (List.append_nil _).symm
  | cons first rest ih =>
    rw [List.foldl_cons, ih, chunkSlots, endsOf, List.map_cons]
    simp only [SpanState.add, ChunkSlot.addedBytes, ChunkSlot.separatorBytes, ChunkSlot.textBytes,
      List.append_assoc, List.singleton_append, Nat.add_assoc]

/-- What is named is looked up among the slots with the bytes that were added up. -/
theorem chunkAtOffset_chunkSpans (offset : ℕ) : chunkAtOffset (chunkSpans ids plan) (some offset) =
    (partAt ChunkSlot.addedBytes offset 0 (slotsOf ids plan)).map ChunkSlot.chunkId := by
  rw [chunkAtOffset, Option.bind_some, chunkSpans, chunkSpans_foldl, List.nil_append, slotsOf, partAt,
    List.find?_map, List.getLast?_map, ← Option.map_or, Option.map_map, Option.map_map]
  rfl

theorem map_chunkId_chunkSlots (previous : Option Uuid) (placed : List PlacedSentence) :
    (chunkSlots ids previous placed).map ChunkSlot.chunkId =
      placed.map fun sentence ↦ sentence.entry.1.uuid := by
  induction placed generalizing previous with
  | nil => rfl
  | cons first rest ih => rw [chunkSlots, List.map_cons, List.map_cons, ih]

/-- Where a byte lies by the bytes that were added up. -/
theorem liesIn_addedBytes_iff {before after : List ChunkSlot} {slot : ChunkSlot} :
    LiesIn ChunkSlot.addedBytes offset before slot after ↔
      totalSize ChunkSlot.bytes before + totalSize ChunkSlot.separatorBytes before ≤
        offset + totalSize ChunkSlot.gapBytes before ∧
      (after = [] ∨ offset + totalSize ChunkSlot.gapBytes (before ++ [slot]) <
        totalSize ChunkSlot.bytes (before ++ [slot]) +
          totalSize ChunkSlot.separatorBytes (before ++ [slot])) := by
  have hadded : ∀ slots, totalSize ChunkSlot.addedBytes slots =
      totalSize ChunkSlot.separatorBytes slots + totalSize ChunkSlot.textBytes slots :=
    totalSize_add
  have hbytes : ∀ slots, totalSize ChunkSlot.bytes slots =
      totalSize ChunkSlot.gapBytes slots + totalSize ChunkSlot.textBytes slots :=
    totalSize_add
  have hend : totalSize ChunkSlot.addedBytes before + slot.addedBytes =
      totalSize ChunkSlot.addedBytes (before ++ [slot]) := by
    rw [totalSize_append, totalSize, totalSize, Nat.add_zero]
  constructor
  · rintro ⟨hstart, hstop⟩
    rw [hend] at hstop
    rw [hadded] at hstart hstop
    rw [hbytes, hbytes]
    exact ⟨by omega, hstop.imp_right fun _ ↦ by omega⟩
  · rintro ⟨hstart, hstop⟩
    rw [hbytes] at hstart hstop
    refine ⟨?_, ?_⟩
    · rw [hadded]
      omega
    · rw [hend, hadded]
      exact hstop.imp_right fun _ ↦ by omega

theorem isAtFault_iff {chunkId : Uuid} : IsAtFault ids plan offset chunkId ↔
    (partAt ChunkSlot.bytes offset 0 (slotsOf ids plan)).map ChunkSlot.chunkId = some chunkId := by
  simp only [Option.map_eq_some_iff, partAt_eq_some_iff_liesIn]
  constructor
  · rintro ⟨before, slot, after, hslots, hid, hlies⟩
    exact ⟨slot, ⟨before, after, hslots, hlies⟩, hid⟩
  · rintro ⟨slot, ⟨before, after, hslots, hlies⟩, hid⟩
    exact ⟨before, slot, after, hslots, hid, hlies⟩

instance decidableIsAtFault (ids : PublicationIds) (plan : List PlannedParagraph) (offset : ℕ)
    (chunkId : Uuid) : Decidable (IsAtFault ids plan offset chunkId) :=
  decidable_of_iff _ isAtFault_iff.symm

/-- **When the right chunk is named.** For every plan with distinct chunks and every text that is
read back and is not the source: the refusal names the chunk whose slot the first differing byte lies
in, or the last one when the byte is behind all slots, if and only if the separators keep up with the
gaps there. -/
theorem namesFault_iff {textValue reconstructed : Text}
    (hnodup : ((plannedSentences plan).map fun entry ↦ entry.1.uuid).Nodup)
    (hne : textValue ≠ reconstructed) :
    (∃ chunkId, chunkAtFault ids plan textValue reconstructed = some chunkId ∧
        IsAtFault ids plan (firstDifference (encodeUtf8 textValue) (encodeUtf8 reconstructed))
          chunkId) ↔
      SeparatorsKeepUp ids plan
        (firstDifference (encodeUtf8 textValue) (encodeUtf8 reconstructed)) := by
  set offset := firstDifference (encodeUtf8 textValue) (encodeUtf8 reconstructed) with hoffset
  have hverdict : (integrityVerdict textValue reconstructed).2 = some offset := by
    rw [integrityVerdict, if_neg hne]
    dsimp only
    split <;> rfl
  have hids : ((slotsOf ids plan).map ChunkSlot.chunkId).Nodup := by
    rw [← map_entry_placedSentences 0, List.map_map] at hnodup
    rw [slotsOf, map_chunkId_chunkSlots]
    exact hnodup
  rw [chunkAtFault, hverdict, chunkAtOffset_chunkSpans]
  have hkeeps : SeparatorsKeepUp ids plan offset ↔ ∃ slot,
      partAt ChunkSlot.bytes offset 0 (slotsOf ids plan) = some slot ∧
        partAt ChunkSlot.addedBytes offset 0 (slotsOf ids plan) = some slot := by
    rw [exists_partAt_iff (List.Nodup.of_map _ hids), SeparatorsKeepUp]
    simp only [liesIn_addedBytes_iff]
  rw [hkeeps]
  simp only [isAtFault_iff]
  constructor
  · rintro ⟨chunkId, hnamed, hfault⟩
    obtain ⟨slot, hslot, hid⟩ := Option.map_eq_some_iff.mp hfault
    obtain ⟨named, hnamed, hsame⟩ := Option.map_eq_some_iff.mp hnamed
    obtain rfl := List.inj_on_of_nodup_map hids (mem_of_partAt hnamed) (mem_of_partAt hslot)
      (hsame.trans hid.symm)
    exact ⟨named, hslot, hnamed⟩
  · rintro ⟨slot, hslot, hnamed⟩
    exact ⟨slot.chunkId, congrArg _ hnamed, congrArg _ hslot⟩

end Attribution

/-! ### Chunks without gaps -/

/-- What is drawn for a publication. -/
def spanIds : PublicationIds where
  now := 0
  runId := 9
  chapterId := 8
  paragraphId orderIndex := 0x100 + BitVec.ofNat 128 orderIndex
  versionId chunkUuid := 0x200 + chunkUuid
  assertionId := 7

/-- The plan of one paragraph whose sentences are single characters. -/
def characterPlan (textValue : Text) (starts : List ℕ) : Except Failure (List PlannedParagraph) :=
  exactSentencePlan textValue
    [{ uuid := 10, text := textValue, start := 0, stop := textValue.length, ordinal := 0
       metadata := [] }]
    (starts.zipIdx.map fun (start, ordinal) ↦
      { uuid := BitVec.ofNat 128 (ordinal + 1), text := slice textValue start (start + 1), start
        stop := start + 1, ordinal, metadata := [] })

/-- That plan, as it is made. -/
def plannedCharacters (textValue : Text) (starts : List ℕ) : List PlannedParagraph :=
  (toOption (characterPlan textValue starts)).getD []

/-- The rows of a plan that come back with other texts. -/
def alteredRows (plan : List PlannedParagraph) (texts : List Text) : List ScopeRow :=
  ((plannedSentences plan).zip texts).map fun (entry, text) ↦
    { chunkId := entry.1.uuid, paragraphId := spanIds.paragraphId 0, text, chunkBlockMeta := []
      textBlockMeta := mergePieceMetadata [] entry.2 }

/-- What they are read back as. -/
def alteredText (plan : List PlannedParagraph) (texts : List Text) : Text :=
  (toOption (scopeText (alteredRows plan texts))).getD []

/-- Where the gap is a blank, a difference in the second text is found in the second chunk. -/
theorem namesFault_plannedCharacters :
    characterPlan (lit "a b") [0, 2] = .ok (plannedCharacters (lit "a b") [0, 2]) ∧
      ∃ chunkId, chunkAtFault spanIds (plannedCharacters (lit "a b") [0, 2]) (lit "a b")
          (alteredText (plannedCharacters (lit "a b") [0, 2]) [lit "a", lit "x"]) = some chunkId ∧
        IsAtFault spanIds (plannedCharacters (lit "a b") [0, 2])
          (firstDifference (encodeUtf8 (lit "a b"))
            (encodeUtf8 (alteredText (plannedCharacters (lit "a b") [0, 2]) [lit "a", lit "x"])))
          chunkId := by
  refine ⟨eq_ok_of_succeeds (by decide +kernel),
    (namesFault_iff (by decide +kernel) (by decide +kernel)).mpr
      ⟨[{ chunkId := 1, separator := [], gap := [], text := lit "a" }],
        { chunkId := 2, separator := lit " ", gap := lit " ", text := lit "b" }, [], ?_, ⟨?_, .inl rfl⟩,
        ?_, .inl rfl⟩⟩
  · decide +kernel
  · decide +kernel
  · decide +kernel

/-- The chunks of a plan without gaps: the text of the third one comes back as another text, and the
second one is named. -/
theorem exists_other_chunk_named :
    ∃ (plan : List PlannedParagraph) (rows : List ScopeRow) (reconstructed : Text),
      characterPlan (lit "abc") [0, 1, 2] = .ok plan ∧
      ((plannedSentences plan).map fun entry ↦ entry.1.uuid).Nodup ∧
      scopeText rows = .ok reconstructed ∧ lit "abc" ≠ reconstructed ∧
      ¬∃ chunkId, chunkAtFault spanIds plan (lit "abc") reconstructed = some chunkId ∧
        IsAtFault spanIds plan (firstDifference (encodeUtf8 (lit "abc")) (encodeUtf8 reconstructed))
          chunkId := by
  refine ⟨plannedCharacters (lit "abc") [0, 1, 2],
    alteredRows (plannedCharacters (lit "abc") [0, 1, 2]) [lit "a", lit "b", lit "x"],
    alteredText (plannedCharacters (lit "abc") [0, 1, 2]) [lit "a", lit "b", lit "x"],
    eq_ok_of_succeeds (by decide +kernel), by decide +kernel, eq_ok_of_succeeds (by decide +kernel),
    by decide +kernel, ?_⟩
  rintro ⟨chunkId, hnamed, hfault⟩
  have hsecond : chunkAtFault spanIds (plannedCharacters (lit "abc") [0, 1, 2]) (lit "abc")
      (alteredText (plannedCharacters (lit "abc") [0, 1, 2]) [lit "a", lit "b", lit "x"]) =
        some 2 := by
    decide +kernel
  obtain rfl := Option.some.inj (hnamed.symm.trans hsecond)
  revert hfault
  decide +kernel

end DocStore
