import DocStore.Ingestion.SvoChunking
import DocStore.Runtime.ExactReconstruction
import Mathlib.Data.List.Nodup
import Mathlib.Data.List.Sort

/-!
# The exact sentence plan

Publication chunks a source twice: into paragraphs, and each paragraph's text into sentences whose
ranges are moved into the source. `exactSentencePlan` then groups the sentences under their
paragraphs again and attaches to each the piece from which the source is put together.

`exactSentencePlan_eq_ok` says that this cannot fail on the output of the two chunking steps: the
grouping finds every sentence under the paragraph it came from, in order, and the ranges of all of
them are what `buildExactReconstructionPieces` asks for.
-/

set_option autoImplicit false
set_option relaxedAutoImplicit false

namespace DocStore

open Foundation

/-! ### Sentences from a batch of paragraphs -/

/-- A response of the chunker to a batch of texts. -/
inductive RawBatches where
  | notASequence (typeName : Text)
  | batches (batches : List RawResponse)

/-- `SvoRuntimeChunker.chunk_batch` for one source: every batch is validated against its text. -/
def chunkBatch (texts : List Text) (sourceId : Uuid) (rawBatches : RawBatches) :
    Except Failure (List (List RuntimeChunk)) :=
  if texts.isEmpty then .ok []
  else
    match rawBatches with
    | .notASequence typeName => .error (.chunker "CHUNKER_INVALID_RESPONSE"
        "external chunker returned an invalid batch response"
        [("response_type", .str typeName), ("expected_count", .num texts.length)])
    | .batches batches => do
      raiseIf (batches.length ≠ texts.length) (.chunker "CHUNKER_INVALID_RESPONSE"
        "external chunker returned an invalid batch response"
        [("response_type", .str (lit "list")), ("expected_count", .num texts.length)])
      (batches.zip texts).mapM fun entry ↦ validateRuntimeChunks entry.1 entry.2 sourceId

/-- Moves one sentence into the source and numbers it. -/
def placeSentence (paragraph : RuntimeChunk) (ordinal : ℕ) (sentence : RuntimeChunk) :
    Except Failure RuntimeChunk := do
  let start := paragraph.start + sentence.start
  let stop := paragraph.start + sentence.stop
  raiseIf (start < paragraph.start || paragraph.stop < stop || stop ≤ start) (.chunker
    "CHUNKER_CONTRACT_ERROR" "sentence chunk range is outside its paragraph range"
    [("paragraph_start", .num paragraph.start), ("paragraph_end", .num paragraph.stop),
      ("sentence_start", .num sentence.start), ("sentence_end", .num sentence.stop)])
  return { sentence with start, stop, ordinal }

/-- The sentences of one paragraph, numbered from `ordinal` on. -/
def placeSentences (paragraph : RuntimeChunk) :
    ℕ → List RuntimeChunk → Except Failure (List RuntimeChunk)
  | _, [] => .ok []
  | ordinal, sentence :: sentences => do
    let placed ← placeSentence paragraph ordinal sentence
    let rest ← placeSentences paragraph (ordinal + 1) sentences
    return placed :: rest

/-- The loop over the paragraphs and their batches. -/
def placeBatches : ℕ → List (RuntimeChunk × List RuntimeChunk) → Except Failure (List RuntimeChunk)
  | _, [] => .ok []
  | ordinal, (paragraph, batch) :: rest => do
    raiseIf batch.isEmpty (.chunker "CHUNKER_EMPTY_RESULT"
      "sentence chunker returned no chunks for paragraph"
      [("paragraph_start", .num paragraph.start), ("paragraph_end", .num paragraph.stop)])
    let sentences ← placeSentences paragraph ordinal batch
    let placed ← placeBatches (ordinal + batch.length) rest
    return sentences ++ placed

/-- `_sentence_chunks_from_paragraph_batch`. -/
def sentenceChunksFromParagraphBatch (paragraphChunks : List RuntimeChunk) (sourceId : Uuid)
    (rawBatches : RawBatches) : Except Failure (List RuntimeChunk) :=
  if paragraphChunks.isEmpty then .ok []
  else do
    let batches ← chunkBatch (paragraphChunks.map RuntimeChunk.text) sourceId rawBatches
    raiseIf (batches.length ≠ paragraphChunks.length) (.chunker "CHUNKER_INVALID_RESPONSE"
      "sentence chunk batch count does not match paragraph count"
      [("paragraph_count", .num paragraphChunks.length), ("batch_count", .num batches.length)])
    placeBatches 0 (paragraphChunks.zip batches)

/-! ### Grouping the sentences again -/

/-- The sort key of a sentence inside its paragraph: start, end, ordinal. -/
def sentenceBefore (first second : RuntimeChunk) : Bool :=
  first.start < second.start || (first.start = second.start &&
    (first.stop < second.stop || (first.stop = second.stop && first.ordinal ≤ second.ordinal)))

/-- `_sentence_chunks_for_paragraph`: the sentences that start in a paragraph, else those that
overlap it. -/
def sentenceChunksForParagraph (paragraphChunk : RuntimeChunk) (sentenceChunks : List RuntimeChunk) :
    Except Failure (List RuntimeChunk) :=
  let starting := sentenceChunks.filter fun chunk ↦
    paragraphChunk.start ≤ chunk.start && chunk.start < paragraphChunk.stop
  let found :=
    if starting.isEmpty then
      sentenceChunks.filter fun chunk ↦
        paragraphChunk.start < chunk.stop && chunk.start < paragraphChunk.stop
    else starting
  if found.isEmpty then
    .error (.value (s!"sentence chunker returned no sentence chunks inside paragraph range " ++
      s!"{paragraphChunk.start}:{paragraphChunk.stop}"))
  else .ok (found.insertionSort fun first second ↦ sentenceBefore first second = true)

/-- The piece a dict built from `(uuid, piece)` pairs holds for a uuid; a later pair replaces an
earlier one. -/
def pieceByChunkId (pieces : List (RuntimeChunk × ExactReconstructionPiece)) (uuid : Uuid) :
    Except Failure ExactReconstructionPiece :=
  match pieces.reverse.find? fun entry ↦ entry.1.uuid = uuid with
  | some entry => .ok entry.2
  | none => .error (.lookup (String.ofList (uuidText uuid)))

/-- A paragraph with its sentences and their pieces. -/
abbrev PlannedParagraph := RuntimeChunk × List (RuntimeChunk × ExactReconstructionPiece)

/-- A sentence as the piece builder sees it. -/
def RuntimeChunk.exactInput (chunk : RuntimeChunk) : Text × ℕ × ℕ := (chunk.text, chunk.range)

/-- A paragraph with the sentences found for it. -/
def groupSentences (sentenceChunks : List RuntimeChunk) (paragraphChunk : RuntimeChunk) :
    Except Failure (RuntimeChunk × List RuntimeChunk) := do
  let paragraphSentences ← sentenceChunksForParagraph paragraphChunk sentenceChunks
  return (paragraphChunk, paragraphSentences)

/-- A sentence with the piece found for it. -/
def dealPiece (pieces : List (RuntimeChunk × ExactReconstructionPiece)) (sentence : RuntimeChunk) :
    Except Failure (RuntimeChunk × ExactReconstructionPiece) := do
  let piece ← pieceByChunkId pieces sentence.uuid
  return (sentence, piece)

/-- A group with the pieces found for its sentences. -/
def dealPieces (pieces : List (RuntimeChunk × ExactReconstructionPiece))
    (group : RuntimeChunk × List RuntimeChunk) : Except Failure PlannedParagraph := do
  let sentences ← group.2.mapM (dealPiece pieces)
  return (group.1, sentences)

/-- `_exact_sentence_plan`. -/
def exactSentencePlan (textValue : Text) (paragraphChunks sentenceChunks : List RuntimeChunk) :
    Except Failure (List PlannedParagraph) := do
  let grouped ← paragraphChunks.mapM (groupSentences sentenceChunks)
  let orderedSentences := grouped.flatMap Prod.snd
  let exactPieces ← buildExactReconstructionPieces textValue
    (orderedSentences.map fun sentence ↦ .ofRange sentence.exactInput) 0 none true
  grouped.mapM (dealPieces (orderedSentences.zip exactPieces))

/-! ### What the placed sentences look like -/

/-- Paragraphs one behind the other, each with sentences one behind the other inside it. -/
def Nested : ℕ → List (RuntimeChunk × List RuntimeChunk) → ℕ → Prop
  | cursor, [], stop => cursor ≤ stop
  | cursor, group :: rest, stop =>
    cursor ≤ group.1.start ∧ group.2 ≠ [] ∧ Located group.1.start group.2 group.1.stop ∧
      Nested group.1.stop rest stop

theorem placeSentences_spec {paragraph : RuntimeChunk} {cursor length ordinal : ℕ}
    {sentences placed : List RuntimeChunk}
    (hordered : Ordered cursor (sentences.map RuntimeChunk.range) length)
    (hcursor : paragraph.start + cursor ≤ paragraph.stop)
    (hplaced : placeSentences paragraph ordinal sentences = .ok placed) :
    Located (paragraph.start + cursor) placed paragraph.stop ∧
      placed.map RuntimeChunk.ordinal = List.range' ordinal sentences.length ∧
      placed.length = sentences.length := by
  induction sentences generalizing cursor ordinal placed with
  | nil =>
    cases hplaced
    exact ⟨⟨hcursor, by simp⟩, rfl, rfl⟩
  | cons sentence sentences ih =>
    obtain ⟨first, hfirst, hplaced⟩ := bind_eq_ok.mp hplaced
    obtain ⟨rest, hrest, hplaced⟩ := bind_eq_ok.mp hplaced
    cases hplaced
    obtain ⟨_, hchecks, hfirst⟩ := bind_eq_ok.mp hfirst
    cases hfirst
    simp only [raiseIf_eq_ok, Bool.or_eq_false_iff, decide_eq_false_iff_not, not_lt,
      not_le] at hchecks
    obtain ⟨hstart, -, hordered⟩ := hordered
    obtain ⟨hlocated, hordinals, hlength⟩ := ih hordered hchecks.1.2 hrest
    refine ⟨⟨⟨Nat.add_le_add_left hstart _, hchecks.2.le, hlocated.ordered⟩,
      List.forall_mem_cons.mpr ⟨hchecks.2, hlocated.nonempty⟩⟩, ?_, ?_⟩
    · simp [hordinals, List.range'_succ]
    · simp [hlength]

/-- Placing the sentence batches of located paragraphs yields the sentences of nested groups,
numbered through. -/
theorem placeBatches_spec {cursor stop ordinal : ℕ}
    {batches : List (RuntimeChunk × List RuntimeChunk)} {sentences : List RuntimeChunk}
    (hparagraphs : Located cursor (batches.map Prod.fst) stop)
    (hbatches : ∀ batch ∈ batches, ∃ length, Located 0 batch.2 length)
    (hplaced : placeBatches ordinal batches = .ok sentences) :
    ∃ groups, groups.map Prod.fst = batches.map Prod.fst ∧ groups.flatMap Prod.snd = sentences ∧
      Nested cursor groups stop ∧
      sentences.map RuntimeChunk.ordinal = List.range' ordinal sentences.length := by
  induction batches generalizing cursor ordinal sentences with
  | nil =>
    cases hplaced
    exact ⟨[], rfl, rfl, hparagraphs.ordered, rfl⟩
  | cons batch batches ih =>
    obtain ⟨paragraph, batch⟩ := batch
    obtain ⟨_, hbatch, hplaced⟩ := bind_eq_ok.mp hplaced
    obtain ⟨first, hfirst, hplaced⟩ := bind_eq_ok.mp hplaced
    obtain ⟨rest, hrest, hplaced⟩ := bind_eq_ok.mp hplaced
    cases hplaced
    obtain ⟨hstart, hrange, hordered⟩ := hparagraphs.ordered
    obtain ⟨length, hlocated⟩ := hbatches (paragraph, batch) (by simp)
    obtain ⟨hsentences, hordinals, hlength⟩ :=
      placeSentences_spec hlocated.ordered hrange hfirst
    obtain ⟨groups, hgroups, hflat, hnested, hnumbers⟩ :=
      ih ⟨hordered, fun chunk hmem ↦ hparagraphs.nonempty chunk (List.mem_cons_of_mem _ hmem)⟩
        (fun pair hmem ↦ hbatches pair (List.mem_cons_of_mem _ hmem)) hrest
    refine ⟨(paragraph, first) :: groups, by simp [hgroups], by simp [hflat],
      ⟨hstart, ?_, hsentences, hnested⟩, ?_⟩
    · rw [raiseIf_eq_ok, List.isEmpty_eq_false_iff] at hbatch
      rw [Ne, ← List.length_eq_zero_iff, hlength, List.length_eq_zero_iff]
      exact hbatch
    · rw [List.map_append, hordinals, hnumbers, List.length_append, hlength,
        ← List.range'_append_1]

/-- The sentences of nested groups have ordered ranges. -/
theorem Nested.ordered {cursor stop : ℕ} {groups : List (RuntimeChunk × List RuntimeChunk)}
    (hnested : Nested cursor groups stop) :
    Ordered cursor ((groups.flatMap Prod.snd).map RuntimeChunk.range) stop := by
  induction groups generalizing cursor with
  | nil => exact hnested
  | cons group groups ih =>
    obtain ⟨hstart, -, hlocated, hrest⟩ := hnested
    rw [List.flatMap_cons, List.map_append]
    exact (hlocated.ordered.mono_cursor hstart).append (ih hrest)

/-- Sentences of earlier groups start before a paragraph, those of later groups behind it. -/
theorem Nested.split {cursor stop : ℕ} {before after : List (RuntimeChunk × List RuntimeChunk)}
    {group : RuntimeChunk × List RuntimeChunk}
    (hnested : Nested cursor (before ++ group :: after) stop) :
    cursor ≤ group.1.start ∧
      (∀ sentence ∈ before.flatMap Prod.snd, sentence.start < group.1.start) ∧ group.2 ≠ [] ∧
      Located group.1.start group.2 group.1.stop ∧
      ∀ sentence ∈ after.flatMap Prod.snd, group.1.stop ≤ sentence.start := by
  induction before generalizing cursor with
  | nil =>
    obtain ⟨hstart, hne, hlocated, hrest⟩ := hnested
    refine ⟨hstart, by simp, hne, hlocated, fun sentence hmem ↦ ?_⟩
    exact (hrest.ordered.mem_bounds (List.mem_map_of_mem (f := RuntimeChunk.range) hmem)).1
  | cons first before ih =>
    obtain ⟨hstart, -, hlocated, hrest⟩ := hnested
    obtain ⟨hnext, hbefore, hgroup⟩ := ih hrest
    have hfirst : first.1.start ≤ first.1.stop :=
      hlocated.ordered.cursor_le_lastStop.trans hlocated.ordered.lastStop_le
    refine ⟨(hstart.trans hfirst).trans hnext, fun sentence hmem ↦ ?_, hgroup⟩
    rcases List.mem_append.mp (List.flatMap_cons ▸ hmem) with hmem | hmem
    · have hbounds := hlocated.ordered.mem_bounds (List.mem_map_of_mem (f := RuntimeChunk.range) hmem)
      exact (hlocated.nonempty sentence hmem).trans_le (hbounds.2.2.trans hnext)
    · exact hbefore sentence hmem

theorem Located.pairwise_sentenceBefore {cursor stop : ℕ} {chunks : List RuntimeChunk}
    (hlocated : Located cursor chunks stop) :
    chunks.Pairwise fun first second ↦ sentenceBefore first second = true := by
  have hpairwise := List.pairwise_map.mp hlocated.ordered.pairwise
  refine hpairwise.imp_of_mem fun {first second} hfirst _ hbefore ↦ ?_
  have hstart : first.start < second.start := (hlocated.nonempty first hfirst).trans_le hbefore
  simp [sentenceBefore, hstart]

/-- Grouping finds exactly the sentences a paragraph came with, in their order. -/
theorem sentenceChunksForParagraph_of_nested {cursor stop : ℕ}
    {groups : List (RuntimeChunk × List RuntimeChunk)} {group : RuntimeChunk × List RuntimeChunk}
    (hnested : Nested cursor groups stop) (hmem : group ∈ groups) :
    sentenceChunksForParagraph group.1 (groups.flatMap Prod.snd) = .ok group.2 := by
  obtain ⟨before, after, rfl⟩ := List.append_of_mem hmem
  obtain ⟨-, hbefore, hne, hlocated, hafter⟩ := hnested.split
  let inside : RuntimeChunk → Bool := fun chunk ↦
    group.1.start ≤ chunk.start && chunk.start < group.1.stop
  have hout₁ : (before.flatMap Prod.snd).filter inside = [] := by
    refine List.filter_eq_nil_iff.mpr fun sentence hsentence ↦ ?_
    have := hbefore sentence hsentence
    simp only [inside, Bool.and_eq_true, decide_eq_true_eq]
    omega
  have hown : group.2.filter inside = group.2 := by
    refine List.filter_eq_self.mpr fun sentence hsentence ↦ ?_
    have hbounds := hlocated.ordered.mem_bounds
      (List.mem_map_of_mem (f := RuntimeChunk.range) hsentence)
    have hrange := hlocated.nonempty sentence hsentence
    simp only [RuntimeChunk.range] at hbounds
    simp only [inside, Bool.and_eq_true, decide_eq_true_eq]
    omega
  have hout₂ : (after.flatMap Prod.snd).filter inside = [] := by
    refine List.filter_eq_nil_iff.mpr fun sentence hsentence ↦ ?_
    have := hafter sentence hsentence
    simp only [inside, Bool.and_eq_true, decide_eq_true_eq]
    omega
  have hfound : ((before ++ group :: after).flatMap Prod.snd).filter inside = group.2 := by
    rw [List.flatMap_append, List.flatMap_cons, List.filter_append, List.filter_append, hout₁,
      hown, hout₂, List.append_nil, List.nil_append]
  have hempty : group.2.isEmpty = false := List.isEmpty_eq_false_iff.mpr hne
  have hsorted : group.2.insertionSort (fun first second ↦ sentenceBefore first second = true) =
      group.2 := hlocated.pairwise_sentenceBefore.insertionSort_eq
  simp only [sentenceChunksForParagraph]
  rw [show (fun chunk : RuntimeChunk ↦ decide (group.1.start ≤ chunk.start) &&
    decide (chunk.start < group.1.stop)) = inside from rfl, hfound]
  simp [hempty, hsorted]

/-! ### The plan -/

/-- The sentences of a plan with their pieces, in publication order. -/
def plannedSentences (plan : List PlannedParagraph) :
    List (RuntimeChunk × ExactReconstructionPiece) :=
  plan.flatMap Prod.snd

/-- A plan that spells its source: the sentences have ordered ranges and rising ordinals, and their
pieces are the ones built from the ranges. -/
structure ExactPlan (textValue : Text) (plan : List PlannedParagraph) : Prop where
  nonempty : plannedSentences plan ≠ []
  ordered : Ordered 0 ((plannedSentences plan).map fun entry ↦ entry.1.range) textValue.length
  pieces : (plannedSentences plan).map Prod.snd =
    sealLast (slice textValue
        (lastStop 0 ((plannedSentences plan).map fun entry ↦ entry.1.range)) textValue.length)
      (exactPieces textValue 0 ((plannedSentences plan).map fun entry ↦ entry.1.exactInput))
  ordinals : ((plannedSentences plan).map fun entry ↦ entry.1.ordinal).Pairwise (· < ·)

theorem pieceByChunkId_of_mem {pieces : List (RuntimeChunk × ExactReconstructionPiece)}
    (hnodup : (pieces.map fun entry ↦ entry.1.uuid).Nodup)
    {entry : RuntimeChunk × ExactReconstructionPiece} (hmem : entry ∈ pieces) :
    pieceByChunkId pieces entry.1.uuid = .ok entry.2 := by
  unfold pieceByChunkId
  cases hfound : pieces.reverse.find? fun other ↦ other.1.uuid = entry.1.uuid with
  | none =>
    have := List.find?_eq_none.mp hfound entry (List.mem_reverse.mpr hmem)
    simp at this
  | some other =>
    have hother : other ∈ pieces := List.mem_reverse.mp (List.mem_of_find?_eq_some hfound)
    have huuid : other.1.uuid = entry.1.uuid := by simpa using List.find?_some hfound
    rw [List.inj_on_of_nodup_map hnodup hother hmem huuid]

/-- Sentences paired with pieces can be dealt out to the groups the sentences come from. -/
theorem exists_dealt (groups : List (RuntimeChunk × List RuntimeChunk))
    (pieces : List (RuntimeChunk × ExactReconstructionPiece))
    (hsentences : pieces.map Prod.fst = groups.flatMap Prod.snd) :
    ∃ plan : List PlannedParagraph,
      plan.map (fun planned ↦ (planned.1, planned.2.map Prod.fst)) = groups ∧
        plannedSentences plan = pieces := by
  induction groups generalizing pieces with
  | nil =>
    exact ⟨[], rfl, (List.map_eq_nil_iff.mp hsentences).symm⟩
  | cons group groups ih =>
    obtain ⟨own, rest, rfl, hown, hrest⟩ := List.map_eq_append_iff.mp hsentences
    obtain ⟨plan, hplan, hflat⟩ := ih rest hrest
    refine ⟨(group.1, own) :: plan, by simp [hplan, hown], ?_⟩
    rw [plannedSentences, List.flatMap_cons, ← hflat]
    rfl

theorem dealPieces_eq_ok {pieces : List (RuntimeChunk × ExactReconstructionPiece)}
    (hnodup : (pieces.map fun entry ↦ entry.1.uuid).Nodup) {planned : PlannedParagraph}
    (hmem : ∀ entry ∈ planned.2, entry ∈ pieces) :
    dealPieces pieces (planned.1, planned.2.map Prod.fst) = .ok planned := by
  have hdealt : (planned.2.map Prod.fst).mapM (dealPiece pieces) = .ok planned.2 := by
    rw [mapM_eq_ok, List.forall₂_map_left_iff, List.forall₂_same]
    intro entry hentry
    rw [dealPiece, pieceByChunkId_of_mem hnodup (hmem entry hentry)]
    rfl
  rw [dealPieces, hdealt]
  rfl

/-- Grouping finds the groups that the sentences came from. -/
theorem mapM_groupSentences_of_nested {cursor stop : ℕ}
    {groups : List (RuntimeChunk × List RuntimeChunk)} (hnested : Nested cursor groups stop) :
    (groups.map Prod.fst).mapM (groupSentences (groups.flatMap Prod.snd)) = .ok groups := by
  rw [mapM_eq_ok, List.forall₂_map_left_iff, List.forall₂_same]
  intro group hmem
  rw [groupSentences, sentenceChunksForParagraph_of_nested hnested hmem]
  rfl

theorem map_fst_of_mapM_dealPiece {pieces : List (RuntimeChunk × ExactReconstructionPiece)}
    {sentences : List RuntimeChunk} {entries : List (RuntimeChunk × ExactReconstructionPiece)}
    (hdealt : sentences.mapM (dealPiece pieces) = .ok entries) : entries.map Prod.fst = sentences := by
  rw [mapM_eq_ok] at hdealt
  induction hdealt with
  | nil => rfl
  | cons hentry _ ih =>
    obtain ⟨_, -, hentry⟩ := bind_eq_ok.mp hentry
    cases hentry
    exact congrArg _ ih

/-- A plan holds the sentences of the groups. -/
theorem sentences_of_mapM_dealPieces {pieces : List (RuntimeChunk × ExactReconstructionPiece)}
    {groups : List (RuntimeChunk × List RuntimeChunk)} {plan : List PlannedParagraph}
    (hdealt : groups.mapM (dealPieces pieces) = .ok plan) :
    (plannedSentences plan).map Prod.fst = groups.flatMap Prod.snd := by
  rw [mapM_eq_ok] at hdealt
  induction hdealt with
  | nil => rfl
  | @cons group planned groups plan hgroup _ ih =>
    obtain ⟨entries, hentries, hplanned⟩ := bind_eq_ok.mp hgroup
    cases hplanned
    rw [plannedSentences, List.flatMap_cons, List.map_append, List.flatMap_cons,
      map_fst_of_mapM_dealPiece hentries]
    exact congrArg _ ih

/-- On nested groups with distinct uuids the plan is the groups with the pieces dealt out to their
sentences. -/
theorem exactSentencePlan_of_nested {textValue : Text}
    {groups : List (RuntimeChunk × List RuntimeChunk)}
    (hnested : Nested 0 groups textValue.length) (hne : groups ≠ [])
    (hnodup : ((groups.flatMap Prod.snd).map RuntimeChunk.uuid).Nodup)
    (hordinals : ((groups.flatMap Prod.snd).map RuntimeChunk.ordinal).Pairwise (· < ·)) :
    ∃ plan, exactSentencePlan textValue (groups.map Prod.fst) (groups.flatMap Prod.snd) = .ok plan ∧
      plan.map Prod.fst = groups.map Prod.fst ∧
      (plannedSentences plan).map Prod.fst = groups.flatMap Prod.snd ∧ ExactPlan textValue plan := by
  have hsome : groups.flatMap Prod.snd ≠ [] := by
    cases groups with
    | nil => exact absurd rfl hne
    | cons group groups => simp [hnested.2.1]
  have hgrouped := mapM_groupSentences_of_nested hnested
  have hranges : ((groups.flatMap Prod.snd).map RuntimeChunk.exactInput).map Prod.snd =
      (groups.flatMap Prod.snd).map RuntimeChunk.range := List.map_map
  have hbuild := buildExactReconstructionPieces_eq_ok (hranges ▸ hnested.ordered)
    (by simpa using hsome : (groups.flatMap Prod.snd).map RuntimeChunk.exactInput ≠ [])
  rw [hranges, List.map_map] at hbuild
  set pieces := sealLast _ _ with hpieces
  have hlength : (groups.flatMap Prod.snd).length = pieces.length := by
    rw [hpieces, length_sealLast, length_exactPieces, List.length_map]
  have hfst := List.map_fst_zip hlength.le
  have hsnd := List.map_snd_zip hlength.ge
  obtain ⟨plan, hplan, hflat⟩ := exists_dealt groups _ hfst
  have huuids : (((groups.flatMap Prod.snd).zip pieces).map fun entry ↦ entry.1.uuid).Nodup := by
    rw [← hfst, List.map_map] at hnodup
    exact hnodup
  have hdealt : groups.mapM (dealPieces ((groups.flatMap Prod.snd).zip pieces)) = .ok plan := by
    rw [← hplan, mapM_eq_ok, List.forall₂_map_left_iff, List.forall₂_same, hplan]
    intro planned hmem
    refine dealPieces_eq_ok huuids fun entry hentry ↦ ?_
    rw [← hflat]
    exact List.mem_flatMap.mpr ⟨planned, hmem, hentry⟩
  have hmapped : ∀ {β : Type} (read : RuntimeChunk → β),
      (plannedSentences plan).map (fun entry ↦ read entry.1) =
        (groups.flatMap Prod.snd).map read := by
    intro β read
    rw [hflat, ← hfst, List.map_map, hfst]
    rfl
  refine ⟨plan, bind_eq_ok.mpr ⟨groups, hgrouped, bind_eq_ok.mpr ⟨pieces, hbuild, hdealt⟩⟩, ?_,
    hflat ▸ hfst, ?_⟩
  · rw [← hplan, List.map_map]
    rfl
  · refine ⟨?_, ?_, ?_, ?_⟩
    · intro hnil
      rw [hflat] at hnil
      exact hsome (by rw [← hfst, hnil, List.map_nil])
    · rw [hmapped]
      exact hnested.ordered
    · rw [hmapped, hmapped, hflat, hsnd]
    · rw [hmapped]
      exact hordinals

/-- Every batch of an accepted batch response is located in the text it was asked for. -/
theorem chunkBatch_located {texts : List Text} {sourceId : Uuid} {rawBatches : RawBatches}
    {batches : List (List RuntimeChunk)} (hbatches : chunkBatch texts sourceId rawBatches = .ok batches)
    {batch : List RuntimeChunk} (hmem : batch ∈ batches) : ∃ length, Located 0 batch length := by
  unfold chunkBatch at hbatches
  split at hbatches
  · cases hbatches
    cases hmem
  · cases rawBatches with
    | notASequence typeName => cases hbatches
    | batches raws =>
      obtain ⟨_, -, hbatches⟩ := bind_eq_ok.mp hbatches
      obtain ⟨entry, -, hvalid⟩ := exists_of_mapM_eq_ok hbatches hmem
      exact ⟨_, (validateRuntimeChunks_located hvalid).1⟩

/-- The output of the chunking is nested. -/
theorem nested_of_chunking {rawParagraphs : RawResponse} {textValue : Text} {sourceId : Uuid}
    {rawBatches : RawBatches} {paragraphChunks sentenceChunks : List RuntimeChunk}
    (hparagraphs : validateRuntimeChunks rawParagraphs textValue sourceId = .ok paragraphChunks)
    (hsentences : sentenceChunksFromParagraphBatch paragraphChunks sourceId rawBatches =
      .ok sentenceChunks) :
    ∃ groups, groups.map Prod.fst = paragraphChunks ∧ groups.flatMap Prod.snd = sentenceChunks ∧
      Nested 0 groups textValue.length ∧ groups ≠ [] ∧
      ((groups.flatMap Prod.snd).map RuntimeChunk.ordinal).Pairwise (· < ·) := by
  obtain ⟨hlocated, hne⟩ := validateRuntimeChunks_located hparagraphs
  rw [sentenceChunksFromParagraphBatch, if_neg (by simpa using hne)] at hsentences
  obtain ⟨batches, hbatches, hsentences⟩ := bind_eq_ok.mp hsentences
  obtain ⟨_, hcount, hplaced⟩ := bind_eq_ok.mp hsentences
  have hlength : paragraphChunks.length = batches.length :=
    (not_not.mp (of_decide_eq_false (raiseIf_eq_ok.mp hcount))).symm
  have hfst := List.map_fst_zip hlength.le
  obtain ⟨groups, hgroups, hflat, hnested, hordinals⟩ :=
    placeBatches_spec (hfst.symm ▸ hlocated)
      (fun pair hmem ↦ chunkBatch_located hbatches (List.of_mem_zip hmem).2) hplaced
  rw [hfst] at hgroups
  refine ⟨groups, hgroups, hflat, hnested, ?_, hflat ▸ hordinals ▸ List.pairwise_lt_range'⟩
  rintro rfl
  exact hne hgroups.symm

/-- **The plan cannot fail on the output of the chunking.** For every source text, every accepted
response to it and every accepted batch response to its paragraphs, with distinct sentence uuids,
there is a plan; it holds the paragraphs and the sentences in order, and it is exact. -/
theorem exactSentencePlan_eq_ok {rawParagraphs : RawResponse} {textValue : Text} {sourceId : Uuid}
    {rawBatches : RawBatches} {paragraphChunks sentenceChunks : List RuntimeChunk}
    (hparagraphs : validateRuntimeChunks rawParagraphs textValue sourceId = .ok paragraphChunks)
    (hsentences : sentenceChunksFromParagraphBatch paragraphChunks sourceId rawBatches =
      .ok sentenceChunks)
    (hnodup : (sentenceChunks.map RuntimeChunk.uuid).Nodup) :
    ∃ plan, exactSentencePlan textValue paragraphChunks sentenceChunks = .ok plan ∧
      plan.map Prod.fst = paragraphChunks ∧
      (plannedSentences plan).map Prod.fst = sentenceChunks ∧ ExactPlan textValue plan := by
  obtain ⟨groups, rfl, rfl, hnested, hne, hordinals⟩ := nested_of_chunking hparagraphs hsentences
  exact exactSentencePlan_of_nested hnested hne hnodup hordinals

end DocStore
