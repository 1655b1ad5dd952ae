import DocStore.Ingestion.ChunkRanges

/-!
# The texts of the placed sentences

The sentences of a paragraph are located in its text, and then moved by the position at which the
paragraph stands in the source. That is the same place only when the source has the text of the
paragraph there: a paragraph may be found stripped or word by word, and what is left out in front of
a sentence shifts it. So no sentence is refused and all of them are where they are said to be exactly
when every one lies inside the part of the source that its paragraph was found at, and there that
part reads like the text of the paragraph (`readsSentences_iff`).
-/

set_option autoImplicit false
set_option relaxedAutoImplicit false

namespace DocStore

open Foundation

/-! ### The property -/

/-- Whether a failure is a violation of the contract of the chunker. -/
def isContractError : Failure → Prop
  | .chunker code _ _ => code = "CHUNKER_CONTRACT_ERROR"
  | _ => False

/-- No sentence is refused, and the ranges of the sentences have their texts in the source, up to
white space. -/
structure ReadsSentences (sourceText : Text) (result : Except Failure (List RuntimeChunk)) :
    Prop where
  accepted : ∀ failure, result = .error failure → ¬isContractError failure
  reads : ∀ sentences, result = .ok sentences → ∀ sentence ∈ sentences,
    splitWords (slice sourceText sentence.start sentence.stop) = splitWords sentence.text

/-! ### The condition -/

/-- The part of the source that a paragraph was found at. -/
def locatedPart (sourceText : Text) (paragraph : RuntimeChunk) : Text :=
  slice sourceText paragraph.start paragraph.stop

/-- A sentence was found in its paragraph for its text, and not for a body that reads otherwise. -/
def FoundForText (paragraph sentence : RuntimeChunk) : Prop :=
  splitWords (slice paragraph.text sentence.start sentence.stop) = splitWords sentence.text

/-- A sentence of a paragraph stands in the source.
- `inside`: it ends inside the part that the paragraph was found at;
- `agrees`: where the sentence is, this part reads like the text of the paragraph;
- `foreign`: when the sentence was found for a body that reads otherwise than its text, the part has
  the text nevertheless. -/
structure SentenceStands (sourceText : Text) (paragraph sentence : RuntimeChunk) : Prop where
  inside : sentence.stop ≤ (locatedPart sourceText paragraph).length
  agrees : FoundForText paragraph sentence →
    splitWords (slice (locatedPart sourceText paragraph) sentence.start sentence.stop) =
      splitWords (slice paragraph.text sentence.start sentence.stop)
  foreign : ¬FoundForText paragraph sentence →
    splitWords (slice (locatedPart sourceText paragraph) sentence.start sentence.stop) =
      splitWords sentence.text

instance decidableFoundForText (paragraph sentence : RuntimeChunk) :
    Decidable (FoundForText paragraph sentence) :=
  inferInstanceAs (Decidable (splitWords _ = splitWords _))

instance decidableSentenceStands (sourceText : Text) (paragraph sentence : RuntimeChunk) :
    Decidable (SentenceStands sourceText paragraph sentence) :=
  decidable_of_iff (sentence.stop ≤ (locatedPart sourceText paragraph).length ∧
      (FoundForText paragraph sentence →
        splitWords (slice (locatedPart sourceText paragraph) sentence.start sentence.stop) =
          splitWords (slice paragraph.text sentence.start sentence.stop)) ∧
      (¬FoundForText paragraph sentence →
        splitWords (slice (locatedPart sourceText paragraph) sentence.start sentence.stop) =
          splitWords sentence.text))
    ⟨fun hstands ↦ ⟨hstands.1, hstands.2.1, hstands.2.2⟩,
      fun hstands ↦ ⟨hstands.inside, hstands.agrees, hstands.foreign⟩⟩

/-! ### Placing -/

/-- A chunk has its text at its range in the source, up to white space. -/
def ReadsText (sourceText : Text) (chunk : RuntimeChunk) : Prop :=
  splitWords (slice sourceText chunk.start chunk.stop) = splitWords chunk.text

/-- A sentence of a paragraph, moved into the source. -/
def RuntimeChunk.movedBy (sentence : RuntimeChunk) (paragraph : RuntimeChunk) : RuntimeChunk :=
  { sentence with
    start := paragraph.start + sentence.start
    stop := paragraph.start + sentence.stop }

/-- A sentence is placed in its paragraph, and has its text there. -/
def IsPlaced (sourceText : Text) (paragraph sentence : RuntimeChunk) : Prop :=
  paragraph.start + sentence.stop ≤ paragraph.stop ∧
    ReadsText sourceText (sentence.movedBy paragraph)

/-- A result of placing sentences: a violation of the contract, or chunks of which all have their
texts exactly when a condition holds. -/
structure PlacesWhen (sourceText : Text) (result : Except Failure (List RuntimeChunk))
    (condition : Prop) : Prop where
  refused : ∀ failure, result = .error failure → isContractError failure ∧ ¬condition
  placed : ∀ sentences, result = .ok sentences →
    ((∀ sentence ∈ sentences, ReadsText sourceText sentence) ↔ condition)

theorem PlacesWhen.reads_iff {sourceText : Text}
    {result : Except Failure (List RuntimeChunk)} {condition : Prop}
    (hplaces : PlacesWhen sourceText result condition) :
    ReadsSentences sourceText result ↔ condition := by
  cases result with
  | error failure =>
    obtain ⟨hcontract, hnot⟩ := hplaces.refused failure rfl
    exact iff_of_false (fun hreads ↦ hreads.accepted failure rfl hcontract) hnot
  | ok sentences =>
    rw [← hplaces.placed sentences rfl]
    constructor
    · intro hreads
      exact hreads.reads sentences rfl
    · intro hall
      refine ⟨fun failure hfails ↦ ?_, fun others hothers ↦ ?_⟩
      · cases hfails
      · cases hothers
        exact hall

section Placing

variable {sourceText : Text} {paragraph : RuntimeChunk} {sentences : List RuntimeChunk}
  {ordinal : ℕ}

/-- A sentence that is not empty is placed when it ends inside its paragraph, and is refused
otherwise. -/
theorem placeSentence_eq {sentence : RuntimeChunk} (hrange : sentence.start < sentence.stop) :
    (paragraph.start + sentence.stop ≤ paragraph.stop ∧
      placeSentence paragraph ordinal sentence =
        .ok { sentence.movedBy paragraph with ordinal }) ∨
    (paragraph.stop < paragraph.start + sentence.stop ∧
      ∃ failure, placeSentence paragraph ordinal sentence = .error failure ∧
        isContractError failure) := by
  unfold placeSentence
  rcases Nat.lt_or_ge paragraph.stop (paragraph.start + sentence.stop) with hout | hin
  · refine .inr ⟨hout, _, bind_eq_error.mpr (.inl (raiseIf_eq_error.mpr ⟨?_, rfl⟩)), rfl⟩
    simp [hout]
  · refine .inl ⟨hin, raiseIf_bind_eq_ok.mpr ⟨?_, rfl⟩⟩
    simp only [Bool.or_eq_false_iff, decide_eq_false_iff_not]
    omega

/-- Two results in a row place when both do. -/
theorem PlacesWhen.append {first second : Except Failure (List RuntimeChunk)} {here there : Prop}
    (hfirst : PlacesWhen sourceText first here) (hsecond : PlacesWhen sourceText second there) :
    PlacesWhen sourceText (first >>= fun placed ↦ second >>= fun rest ↦ .ok (placed ++ rest))
      (here ∧ there) := by
  cases first with
  | error failure =>
    obtain ⟨hcontract, hnot⟩ := hfirst.refused failure rfl
    refine ⟨fun raised hraised ↦ ?_, fun sentences hok ↦ ?_⟩
    · cases hraised
      exact ⟨hcontract, fun hboth ↦ hnot hboth.1⟩
    · cases hok
  | ok placed =>
    cases second with
    | error failure =>
      obtain ⟨hcontract, hnot⟩ := hsecond.refused failure rfl
      refine ⟨fun raised hraised ↦ ?_, fun sentences hok ↦ ?_⟩
      · cases hraised
        exact ⟨hcontract, fun hboth ↦ hnot hboth.2⟩
      · cases hok
    | ok rest =>
      refine ⟨fun raised hraised ↦ ?_, fun sentences hok ↦ ?_⟩
      · cases hraised
      · cases hok
        rw [List.forall_mem_append, hfirst.placed placed rfl, hsecond.placed rest rfl]

theorem placesWhen_placeSentences (hranges : ∀ sentence ∈ sentences, sentence.start < sentence.stop) :
    PlacesWhen sourceText (placeSentences paragraph ordinal sentences)
      (∀ sentence ∈ sentences, IsPlaced sourceText paragraph sentence) := by
  induction sentences generalizing ordinal with
  | nil =>
    refine ⟨fun failure hfails ↦ ?_, fun placed hplaced ↦ ?_⟩
    · cases hfails
    · cases hplaced
      simp
  | cons sentence sentences ih =>
    rw [List.forall_mem_cons] at hranges
    rw [List.forall_mem_cons]
    have hfirst : PlacesWhen sourceText
        (placeSentence paragraph ordinal sentence >>= fun placed ↦ .ok [placed])
        (IsPlaced sourceText paragraph sentence) := by
      rcases placeSentence_eq hranges.1 with ⟨hinside, hplaced⟩ | ⟨hout, failure, hfails, hcontract⟩
      · rw [hplaced]
        refine ⟨fun failure hfails ↦ ?_, fun placed hok ↦ ?_⟩
        · cases hfails
        · cases hok
          rw [List.forall_mem_singleton, IsPlaced, and_iff_right hinside]
          exact Iff.rfl
      · rw [hfails]
        refine ⟨fun raised hraised ↦ ?_, fun placed hok ↦ ?_⟩
        · cases hraised
          exact ⟨hcontract, fun hplaced ↦ absurd hplaced.1 (Nat.not_le.mpr hout)⟩
        · cases hok
    have hrest : PlacesWhen sourceText (placeSentences paragraph (ordinal + 1) sentences) _ :=
      ih hranges.2
    have happended := hfirst.append hrest
    rw [bind_assoc] at happended
    exact happended

theorem placesWhen_placeBatches {batches : List (RuntimeChunk × List RuntimeChunk)}
    (hnonempty : ∀ batch ∈ batches, batch.2 ≠ [])
    (hranges : ∀ batch ∈ batches, ∀ sentence ∈ batch.2, sentence.start < sentence.stop) :
    PlacesWhen sourceText (placeBatches ordinal batches)
      (∀ batch ∈ batches, ∀ sentence ∈ batch.2, IsPlaced sourceText batch.1 sentence) := by
  induction batches generalizing ordinal with
  | nil =>
    refine ⟨fun failure hfails ↦ ?_, fun placed hplaced ↦ ?_⟩
    · cases hfails
    · cases hplaced
      simp
  | cons batch batches ih =>
    obtain ⟨paragraph, sentences⟩ := batch
    rw [List.forall_mem_cons] at hnonempty hranges
    rw [List.forall_mem_cons]
    have hfilled : sentences.isEmpty = false := List.isEmpty_eq_false_iff.mpr hnonempty.1
    have hrest : PlacesWhen sourceText
        (placeBatches (ordinal + sentences.length) batches) _ := ih hnonempty.2 hranges.2
    have hown : PlacesWhen sourceText (placeSentences paragraph ordinal sentences) _ :=
      placesWhen_placeSentences hranges.1
    have happended := hown.append hrest
    rw [placeBatches, hfilled]
    exact happended

end Placing

/-! ### The source and the paragraph -/

section Standing

variable {sourceText : Text} {paragraph sentence : RuntimeChunk}

/-- A sentence is placed and has its text exactly when it stands in the source. -/
theorem isPlaced_iff (hstart : paragraph.start ≤ paragraph.stop)
    (hstop : paragraph.stop ≤ sourceText.length) :
    IsPlaced sourceText paragraph sentence ↔ SentenceStands sourceText paragraph sentence := by
  have hlength : (locatedPart sourceText paragraph).length = paragraph.stop - paragraph.start :=
    length_slice_of_le sourceText hstop
  have hinside : paragraph.start + sentence.stop ≤ paragraph.stop ↔
      sentence.stop ≤ (locatedPart sourceText paragraph).length := by
    rw [hlength]
    omega
  have hslice : sentence.stop ≤ (locatedPart sourceText paragraph).length →
      slice sourceText (paragraph.start + sentence.start) (paragraph.start + sentence.stop) =
        slice (locatedPart sourceText paragraph) sentence.start sentence.stop :=
    fun hpart ↦ (slice_slice sourceText hpart).symm
  constructor
  · rintro ⟨hends, hreads⟩
    have hpart := hinside.mp hends
    have htext : splitWords
        (slice (locatedPart sourceText paragraph) sentence.start sentence.stop) =
          splitWords sentence.text := hslice hpart ▸ hreads
    exact ⟨hpart, fun hfound ↦ htext.trans hfound.symm, fun _ ↦ htext⟩
  · intro hstands
    refine ⟨hinside.mpr hstands.inside, ?_⟩
    have htext : splitWords
        (slice (locatedPart sourceText paragraph) sentence.start sentence.stop) =
          splitWords sentence.text := by
      by_cases hfound : FoundForText paragraph sentence
      · exact (hstands.agrees hfound).trans hfound
      · exact hstands.foreign hfound
    exact (congrArg splitWords (hslice hstands.inside)).trans htext

/-- In a paragraph that the source has literally, every sentence that was found for its text
stands. -/
theorem sentenceStands_of_literal (hliteral : paragraph.text = locatedPart sourceText paragraph)
    (hinside : sentence.stop ≤ paragraph.text.length) (hfound : FoundForText paragraph sentence) :
    SentenceStands sourceText paragraph sentence where
  inside := hliteral ▸ hinside
  agrees _ := by rw [hliteral]
  foreign hnot := absurd hfound hnot

end Standing

/-- The batches of an accepted batch response: one for each text, none of them empty, and no
sentence without characters. -/
theorem chunkBatch_spec {texts : List Text} {sourceId : Uuid} {rawBatches : RawBatches}
    {batches : List (List RuntimeChunk)}
    (hbatches : chunkBatch texts sourceId rawBatches = .ok batches) :
    batches.length = texts.length ∧
      ∀ batch ∈ batches, batch ≠ [] ∧ ∀ sentence ∈ batch, sentence.start < sentence.stop := by
  unfold chunkBatch at hbatches
  split at hbatches
  next hempty =>
    cases hbatches
    rw [List.isEmpty_iff.mp hempty]
    exact ⟨rfl, by simp⟩
  next =>
    cases rawBatches with
    | notASequence typeName => cases hbatches
    | batches raws =>
      obtain ⟨hcount, hvalid⟩ := raiseIf_bind_eq_ok.mp hbatches
      have hraws : raws.length = texts.length := not_not.mp (of_decide_eq_false hcount)
      refine ⟨?_, fun batch hbatch ↦ ?_⟩
      · rw [← (mapM_eq_ok.mp hvalid).length_eq, List.length_zip, hraws, Nat.min_self]
      · obtain ⟨entry, -, haccepted⟩ := exists_of_mapM_eq_ok hvalid hbatch
        obtain ⟨hlocated, hfilled⟩ := validateRuntimeChunks_located haccepted
        exact ⟨hfilled, hlocated.nonempty⟩

/-- The sentences of the chunks of `gappedResponse`, without usable ranges of their own. -/
def gappedBatches : RawBatches :=
  .batches [.items [gappedChunk 0x00000000000040008000000000000003 (lit "One two") 0],
    .items [gappedChunk 0x00000000000040008000000000000004 (lit "three") 0]]

/-- The chunks of `gappedResponse` in a source. -/
def gappedParagraphs (sourceText : Text) : List RuntimeChunk :=
  (toOption (validateRuntimeChunks (.items gappedResponse) sourceText 7)).getD []

end DocStore
