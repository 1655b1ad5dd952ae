import DocStore.Foundation.Paired
import DocStore.Ingestion.ChunkConstruction

/-!
# Which hierarchies are accepted

A paragraph is accepted behind a position when it fits (`ParagraphFits`) and begins there or later,
and so is a chapter (`ChapterFits`); the two loops are sweeps over the ranges. Together with the
check at the end this accepts exactly the hierarchies whose paragraphs own every chunk once and in
order and whose ranges are in order and nested (`WellFormed`), as far as nothing in them is empty
(`Filled`).
-/

set_option autoImplicit false
set_option relaxedAutoImplicit false

namespace DocStore.Enrichment

open Foundation

variable {κ : Type}

/-! ### What is said of a hierarchy -/

/-- The span of a chapter. -/
def ChapterInput.span (input : ChapterInput) : Span := ⟨input.start, input.stop⟩

/-- The paragraphs of a hierarchy, in their order. -/
def paragraphsOf (chapters : List ChapterInput) : List ParagraphInput :=
  chapters.flatMap ChapterInput.paragraphs

/-- The chunk indexes of paragraphs, in their order. -/
def indexesOf (paragraphs : List ParagraphInput) : List ℤ :=
  paragraphs.flatMap ParagraphInput.chunkIndexes

/-- A hierarchy over chunks: the paragraphs own every chunk once and in order, and the ranges of
chapters, paragraphs and chunks are not empty, in order and nested. -/
structure WellFormed (chapters : List ChapterInput) (chunks : List ChunkFields) : Prop where
  indexes : indexesOf (paragraphsOf chapters) = (List.range chunks.length).map Int.ofNat
  located : ∀ chunk ∈ chunks, chunk.start.isSome = true ∧ chunk.stop.isSome = true
  chapterOrder : InOrder (chapters.map ChapterInput.span)
  paragraphOrder : InOrder ((paragraphsOf chapters).map ParagraphInput.span)
  chunkOrder : InOrder (chunks.map ChunkFields.span)
  paragraphsWithin : ∀ chapter ∈ chapters, ∀ paragraph ∈ chapter.paragraphs,
    paragraph.span.Within chapter.span
  chunksWithin : ∀ paragraph ∈ paragraphsOf chapters, ∀ index ∈ paragraph.chunkIndexes,
    ∀ chunk, chunks[index.toNat]? = some chunk → chunk.span.Within paragraph.span

/-- A hierarchy in which nothing is empty and no range begins below zero. -/
structure Filled (chapters : List ChapterInput) (chunks : List ChunkFields) : Prop where
  anyChunk : chunks ≠ []
  anyChapter : chapters ≠ []
  paragraphs : ∀ chapter ∈ chapters, chapter.paragraphs ≠ []
  texts : ∀ paragraph ∈ paragraphsOf chapters, paragraph.text ≠ []
  owners : ∀ paragraph ∈ paragraphsOf chapters, paragraph.chunkIndexes ≠ []
  bodies : ∀ chunk ∈ chunks, chunk.body.isSome = true ∧ chunk.body ≠ some []
  starts : ∀ chapter ∈ chapters, 0 ≤ chapter.start

/-- The span of the chunk at an index. -/
def spanAt (chunks : List ChunkFields) (index : ℤ) : Span :=
  ((chunks[index.toNat]?).map ChunkFields.span).getD ⟨0, 0⟩

/-- The number of identifiers that paragraphs draw. -/
def paragraphDraws (paragraphs : List ParagraphInput) : ℕ :=
  paragraphs.length + (indexesOf paragraphs).length

/-- The number of identifiers that a hierarchy draws. -/
def draws (chapters : List ChapterInput) : ℕ :=
  chapters.length + paragraphDraws (paragraphsOf chapters)

/-! ### Accepting a paragraph -/

/-- A paragraph that is accepted in a chapter behind any earlier paragraph. -/
structure ParagraphFits (chunks : List ChunkFields) (chapter : ChapterInput)
    (input : ParagraphInput) : Prop where
  start : 0 ≤ input.start
  within : input.span.Within chapter.span
  text : input.text ≠ []
  owners : input.chunkIndexes ≠ []
  sorted : input.chunkIndexes = input.chunkIndexes.insertionSort (· ≤ ·) ∧
    input.chunkIndexes.eraseDups.length = input.chunkIndexes.length
  inRange : ∀ index ∈ input.chunkIndexes, 0 ≤ index ∧ index < chunks.length
  chunksFit : ∀ index ∈ input.chunkIndexes, ∀ chunk, chunks[index.toNat]? = some chunk →
    chunk.Located ∧ chunk.body ≠ some [] ∧ 0 ≤ chunk.span.start ∧ chunk.span.Within input.span
  chunksFollow : Follows (-1) (input.chunkIndexes.map (spanAt chunks))

section Paragraph

variable {adapter : ChunkAdapter κ} {fresh : ℕ → Uuid} {chunks : List κ} {document : Document}
  {chapterInput : ChapterInput} {input : ParagraphInput}

theorem ChunkFields.Located.place_eq {fields : ChunkFields} (hlocated : fields.Located) :
    fields.place = (some (fields.body.getD []), some fields.span.start, some fields.span.stop) := by
  obtain ⟨body, hbody⟩ := Option.isSome_iff_exists.mp hlocated.1
  obtain ⟨start, hstart⟩ := Option.isSome_iff_exists.mp hlocated.2.1
  obtain ⟨stop, hstop⟩ := Option.isSome_iff_exists.mp hlocated.2.2
  rw [ChunkFields.place, ChunkFields.span, hbody, hstart, hstop]
  rfl

/-- A specification is that of the chunk at its index. -/
theorem SpecOf.fields_eq {index : ℤ} {spec : ChunkSpec}
    (hspec : SpecOf adapter chunks input index spec) {chunk : κ}
    (hchunk : chunks[index.toNat]? = some chunk) :
    (adapter.fields chunk).Located ∧ (adapter.fields chunk).body = some spec.body ∧
      (adapter.fields chunk).span = spec.span := by
  obtain ⟨other, hother, -, hplace⟩ := hspec.place
  rw [hchunk, Option.some.injEq] at hother
  subst hother
  simp only [ChunkFields.place, Prod.mk.injEq] at hplace
  obtain ⟨hbody, hstart, hstop⟩ := hplace
  rw [ChunkFields.Located, ChunkFields.span, hbody, hstart, hstop]
  exact ⟨⟨rfl, rfl, rfl⟩, rfl, rfl⟩

theorem getElem?_map_fields {index : ℤ} {fields : ChunkFields} :
    (chunks.map adapter.fields)[index.toNat]? = some fields ↔
      ∃ chunk, chunks[index.toNat]? = some chunk ∧ adapter.fields chunk = fields := by
  rw [List.getElem?_map, Option.map_eq_some_iff]

theorem SpecOf.spanAt_eq {index : ℤ} {spec : ChunkSpec}
    (hspec : SpecOf adapter chunks input index spec) :
    spanAt (chunks.map adapter.fields) index = spec.span := by
  obtain ⟨chunk, hchunk, -⟩ := hspec.place
  rw [spanAt, getElem?_map_fields.mpr ⟨chunk, hchunk, rfl⟩, ← (hspec.fields_eq hchunk).2.2]
  rfl

/-- The specifications of a paragraph, when every chunk is accepted. -/
theorem exists_specOf_iff (haccepts : ∀ chunk ∈ chunks, adapter.Accepts chunk) {index : ℤ} :
    (∃ spec, SpecOf adapter chunks input index spec) ↔
      ∃ fields, (chunks.map adapter.fields)[index.toNat]? = some fields ∧ fields.Located ∧
        fields.span.Within input.span := by
  constructor
  · rintro ⟨spec, hspec⟩
    obtain ⟨chunk, hchunk, -⟩ := hspec.place
    obtain ⟨hlocated, -, hspan⟩ := hspec.fields_eq hchunk
    exact ⟨_, getElem?_map_fields.mpr ⟨chunk, hchunk, rfl⟩, hlocated, hspan ▸ hspec.within⟩
  · rintro ⟨fields, hfields, hlocated, hwithin⟩
    obtain ⟨chunk, hchunk, rfl⟩ := getElem?_map_fields.mp hfields
    exact ⟨⟨_, _, _, none, none⟩, ⟨chunk, hchunk, haccepts _ (List.mem_of_getElem? hchunk),
      hlocated.place_eq⟩, hwithin, rfl⟩

/-- The state behind a paragraph. -/
def ParagraphState.add (state : ParagraphState κ) (fresh : ℕ → Uuid) (input : ParagraphInput)
    (produced : List κ) (drawn : ℕ) : ParagraphState κ where
  built :=
    { state.built with
      drawn
      paragraphs :=
        state.built.paragraphs ++ [⟨state.chapter.id, fresh state.built.drawn, input.text⟩]
      chunks := state.built.chunks ++ produced
      seenIndexes := state.built.seenIndexes ++ input.chunkIndexes }
  chapter :=
    { state.chapter with
      paragraphs :=
        state.chapter.paragraphs ++ [⟨state.chapter.id, fresh state.built.drawn, input.text⟩] }
  previousEnd := input.stop

/-- The checks in front of the chunks of a paragraph. -/
structure PassesGuards (chunks : List κ) (chapter : ChapterInput) (input : ParagraphInput) :
    Prop where
  start : 0 ≤ input.start
  within : input.span.Within chapter.span
  text : input.text ≠ []
  owners : input.chunkIndexes ≠ []
  sorted : input.chunkIndexes = input.chunkIndexes.insertionSort (· ≤ ·) ∧
    input.chunkIndexes.eraseDups.length = input.chunkIndexes.length
  inRange : ∀ index ∈ input.chunkIndexes, 0 ≤ index ∧ index < chunks.length

/-- The steps of a turn of the loop over paragraphs. -/
theorem enrichParagraph_eq_ok_iff {state next : ParagraphState κ}
    (hversion : uuidVersion (fresh state.built.drawn) = some 4) :
    enrichParagraph adapter fresh chunks document chapterInput state input = .ok next ↔
      PassesGuards chunks chapterInput input ∧ input.span.Proper ∧
        state.previousEnd ≤ input.start ∧ ∃ specs produced drawn,
          input.chunkIndexes.foldlM (collectSpec adapter chunks input) [] = .ok specs ∧
          buildSemanticChunks adapter fresh (state.built.drawn + 1) document state.chapter
            ⟨state.chapter.id, fresh state.built.drawn, input.text⟩ specs = .ok (produced, drawn) ∧
          next = state.add fresh input produced drawn := by
  rw [enrichParagraph, newParagraph, uuid4Text_of_version hversion]
  simp only [validateRange, raiseIf_bind_eq_ok, ok_bind]
  simp only [bind_eq_ok, pure_eq_ok, Bool.or_eq_false_iff, decide_eq_false_iff_not, not_lt, not_le,
    ne_eq, not_not, List.isEmpty_eq_false_iff, List.any_eq_false, Bool.not_eq_true]
  constructor
  · rintro ⟨⟨hstart, hproper⟩, hwithin, hbehind, htext, howners, hsorted, hrange, paragraph, rfl,
      specs, hspecs, ⟨produced, drawn⟩, hproduced, hnext⟩
    exact ⟨⟨hstart, hwithin, htext, howners, hsorted, hrange⟩, hproper, hbehind, specs, produced,
      drawn, hspecs, hproduced, hnext⟩
  · rintro ⟨hpasses, hproper, hbehind, specs, produced, drawn, hspecs, hproduced, hnext⟩
    exact ⟨⟨hpasses.start, hproper⟩, hpasses.within, hbehind, hpasses.text, hpasses.owners,
      hpasses.sorted, hpasses.inRange, _, rfl, specs, hspecs, ⟨produced, drawn⟩, hproduced, hnext⟩

section Specs

variable {indexes : List ℤ} {specs : List ChunkSpec}
  (hspecs : List.Forall₂ (SpecOf adapter chunks input) indexes specs)
include hspecs

theorem taken_of_specs : ∀ spec ∈ specs, Taken adapter spec := by
  intro spec hmem
  obtain ⟨index, -, hspec⟩ := exists_of_forall₂_right hspecs hmem
  obtain ⟨chunk, -, haccepts, hplace⟩ := hspec.place
  exact ⟨hspec.uuid, chunk, haccepts, hplace⟩

theorem map_span_of_specs :
    specs.map ChunkSpec.span = indexes.map (spanAt (chunks.map adapter.fields)) := by
  induction hspecs with
  | nil => rfl
  | cons hspec _ ih => rw [List.map_cons, List.map_cons, ih, hspec.spanAt_eq]

/-- What is checked of the specifications is what is said of the chunks. -/
theorem forall_specs_iff :
    (∀ spec ∈ specs, spec.body ≠ [] ∧ 0 ≤ spec.start) ↔
      ∀ index ∈ indexes, ∀ fields, (chunks.map adapter.fields)[index.toNat]? = some fields →
        fields.body ≠ some [] ∧ 0 ≤ fields.span.start := by
  induction hspecs with
  | nil => simp
  | @cons index spec indexes specs hspec _ ih =>
    rw [List.forall_mem_cons, List.forall_mem_cons, ih]
    refine and_congr_left fun _ ↦ ?_
    obtain ⟨chunk, hchunk, -⟩ := hspec.place
    obtain ⟨-, hbody, hspan⟩ := hspec.fields_eq hchunk
    have hfields : (chunks.map adapter.fields)[index.toNat]? = some (adapter.fields chunk) :=
      getElem?_map_fields.mpr ⟨chunk, hchunk, rfl⟩
    simp only [hfields, Option.some.injEq, forall_eq', hbody, hspan, ChunkSpec.span, ne_eq]

end Specs

/-- Specifications of all chunks that a paragraph names, numbered in their order. -/
theorem exists_numbered_specs {indexes : List ℤ} (number : ℕ)
    (hall : ∀ index ∈ indexes, ∃ spec, SpecOf adapter chunks input index spec) :
    ∃ specs, List.Forall₂ (SpecOf adapter chunks input) indexes specs ∧ Numbered number specs := by
  induction indexes generalizing number with
  | nil => exact ⟨[], .nil, trivial⟩
  | cons index indexes ih =>
    obtain ⟨⟨spec, hspec⟩, hrest⟩ := List.forall_mem_cons.mp hall
    obtain ⟨specs, hspecs, hnumbered⟩ := ih (number + 1) hrest
    exact ⟨{ spec with ordinal := some (number : ℤ) } :: specs,
      .cons ⟨hspec.place, hspec.within, hspec.uuid⟩ hspecs, rfl, hnumbered⟩

/-- **A paragraph is accepted exactly when it fits and begins behind the earlier ones.** -/
theorem exists_enrichParagraph_iff (hadapter : adapter.Documented)
    (haccepts : ∀ chunk ∈ chunks, adapter.Accepts chunk) {state : ParagraphState κ}
    (hdocument : uuidVersion document.id = some 4) (hchapter : uuidVersion state.chapter.id = some 4)
    (hbelongs : state.chapter.document = document.id)
    (hfresh : Fresh fresh (state.built.drawn + 1 + input.chunkIndexes.length)) :
    (∃ next, enrichParagraph adapter fresh chunks document chapterInput state input = .ok next) ↔
      ParagraphFits (chunks.map adapter.fields) chapterInput input ∧ input.span.Proper ∧
        state.previousEnd ≤ input.start := by
  have hversion : uuidVersion (fresh state.built.drawn) = some 4 := hfresh.version _ (by omega)
  have hhierarchy : Hierarchical document state.chapter
      ⟨state.chapter.id, fresh state.built.drawn, input.text⟩ :=
    ⟨hdocument, hchapter, hversion, hbelongs, rfl⟩
  simp only [enrichParagraph_eq_ok_iff hversion]
  constructor
  · rintro ⟨next, hpasses, hproper, hbehind, specs, produced, drawn, hcollect, hbuilt, -⟩
    obtain ⟨added, hspecs, hnumbered, rfl⟩ := (collectSpecs_eq_ok_iff hadapter).mp hcollect
    obtain ⟨hne, hbodies, hfollows⟩ := (exists_buildSemanticChunks_iff hadapter hhierarchy
      (taken_of_specs hspecs) hnumbered (hspecs.length_eq ▸ hfresh)).mp ⟨_, hbuilt⟩
    rw [map_span_of_specs hspecs] at hfollows
    refine ⟨⟨hpasses.start, hpasses.within, hpasses.text, hpasses.owners, hpasses.sorted,
      by rw [List.length_map]; exact hpasses.inRange, fun index hindex fields hfields ↦ ?_,
      hfollows⟩, hproper, hbehind⟩
    obtain ⟨hbody, hstart⟩ := (forall_specs_iff hspecs).mp hbodies index hindex fields hfields
    obtain ⟨spec, -, hspec⟩ := exists_of_forall₂_left hspecs hindex
    obtain ⟨other, hother, hlocated, hwithin⟩ := (exists_specOf_iff haccepts).mp ⟨spec, hspec⟩
    rw [hfields, Option.some.injEq] at hother
    subst hother
    exact ⟨hlocated, hbody, hstart, hwithin⟩
  · rintro ⟨hfits, hproper, hbehind⟩
    have hinRange := hfits.inRange
    rw [List.length_map] at hinRange
    have hspec : ∀ index ∈ input.chunkIndexes, ∃ spec, SpecOf adapter chunks input index spec := by
      intro index hindex
      have hless : index.toNat < (chunks.map adapter.fields).length := by
        have hbounds := hfits.inRange index hindex
        omega
      have hfields := List.getElem?_eq_getElem hless
      obtain ⟨hlocated, -, -, hwithin⟩ := hfits.chunksFit index hindex _ hfields
      exact (exists_specOf_iff haccepts).mpr ⟨_, hfields, hlocated, hwithin⟩
    obtain ⟨specs, hspecs, hnumbered⟩ := exists_numbered_specs 0 hspec
    have hne : specs ≠ [] := fun hnil ↦
      hfits.owners (List.length_eq_zero_iff.mp (by rw [hspecs.length_eq, hnil, List.length_nil]))
    have hbodies := (forall_specs_iff hspecs).mpr fun index hindex fields hfields ↦
      ⟨(hfits.chunksFit index hindex fields hfields).2.1,
        (hfits.chunksFit index hindex fields hfields).2.2.1⟩
    obtain ⟨⟨produced, drawn⟩, hbuilt⟩ := (exists_buildSemanticChunks_iff hadapter hhierarchy
      (taken_of_specs hspecs) hnumbered (hspecs.length_eq ▸ hfresh)).mpr
        ⟨hne, hbodies, map_span_of_specs hspecs ▸ hfits.chunksFollow⟩
    exact ⟨_, ⟨hfits.start, hfits.within, hfits.text, hfits.owners, hfits.sorted, hinRange⟩, hproper,
      hbehind, specs, produced, drawn,
      (collectSpecs_eq_ok_iff hadapter).mpr ⟨specs, hspecs, hnumbered, rfl⟩, hbuilt, rfl⟩

end Paragraph

/-! ### What a paragraph becomes -/

/-- A paragraph that was built, with what it was built from. -/
structure Outcome (κ : Type) where
  input : ParagraphInput
  paragraph : Paragraph
  chunks : List κ

/-- The paragraph has the identifier with a number, and its chunks are those it names. -/
structure Outcome.Holds (adapter : ChunkAdapter κ) (fresh : ℕ → Uuid) (chunks : List κ)
    (documentId chapterId : Uuid) (number : ℕ) (outcome : Outcome κ) : Prop where
  paragraph : outcome.paragraph = ⟨chapterId, fresh number, outcome.input.text⟩
  constructed : Constructed fresh (uuidText documentId) (uuidText (fresh number))
    (uuidText chapterId) (number + 1) 0 (outcome.chunks.map adapter.fields)
  places : List.Forall₂ (fun index chunk ↦ ∃ source, chunks[index.toNat]? = some source ∧
    (adapter.fields chunk).place = (adapter.fields source).place) outcome.input.chunkIndexes
      outcome.chunks

/-- Paragraphs that were built one after the other, with identifiers from a number on. -/
def AllHold (adapter : ChunkAdapter κ) (fresh : ℕ → Uuid) (chunks : List κ)
    (documentId chapterId : Uuid) : ℕ → List (Outcome κ) → Prop
  | _, [] => True
  | number, outcome :: outcomes =>
    outcome.Holds adapter fresh chunks documentId chapterId number ∧
      AllHold adapter fresh chunks documentId chapterId
        (number + 1 + outcome.input.chunkIndexes.length) outcomes

@[simp] theorem paragraphDraws_cons (input : ParagraphInput) (inputs : List ParagraphInput) :
    paragraphDraws (input :: inputs) = 1 + input.chunkIndexes.length + paragraphDraws inputs := by
  simp only [paragraphDraws, indexesOf, List.length_cons, List.flatMap_cons, List.length_append]
  omega

section Paragraphs

variable {adapter : ChunkAdapter κ} {fresh : ℕ → Uuid} {chunks : List κ} {document : Document}
  {chapterInput : ChapterInput}

variable (fresh document) in
/-- What the loop relies on in front of the paragraphs that are left. -/
structure ParagraphsReady (state : ParagraphState κ) (inputs : List ParagraphInput) : Prop where
  documentVersion : uuidVersion document.id = some 4
  chapterVersion : uuidVersion state.chapter.id = some 4
  belongs : state.chapter.document = document.id
  drawable : Fresh fresh (state.built.drawn + paragraphDraws inputs)

theorem ParagraphsReady.fresh_first {state : ParagraphState κ} {input : ParagraphInput}
    {inputs : List ParagraphInput} (hready : ParagraphsReady fresh document state (input :: inputs)) :
    Fresh fresh (state.built.drawn + 1 + input.chunkIndexes.length) := by
  refine hready.drawable.mono ?_
  rw [paragraphDraws_cons]
  omega

/-- What a turn of the loop over paragraphs adds. -/
theorem of_enrichParagraph (hadapter : adapter.Documented) {state next : ParagraphState κ}
    {input : ParagraphInput} {inputs : List ParagraphInput}
    (hready : ParagraphsReady fresh document state (input :: inputs))
    (hnext : enrichParagraph adapter fresh chunks document chapterInput state input = .ok next) :
    ∃ produced, Outcome.Holds adapter fresh chunks document.id state.chapter.id state.built.drawn
        ⟨input, ⟨state.chapter.id, fresh state.built.drawn, input.text⟩, produced⟩ ∧
      next = state.add fresh input produced (state.built.drawn + 1 + input.chunkIndexes.length) := by
  have hfresh := hready.fresh_first
  have hversion : uuidVersion (fresh state.built.drawn) = some 4 := hfresh.version _ (by omega)
  have hhierarchy : Hierarchical document state.chapter
      ⟨state.chapter.id, fresh state.built.drawn, input.text⟩ :=
    ⟨hready.documentVersion, hready.chapterVersion, hversion, hready.belongs, rfl⟩
  obtain ⟨-, -, -, specs, produced, drawn, hcollect, hbuilt, rfl⟩ :=
    (enrichParagraph_eq_ok_iff hversion).mp hnext
  obtain ⟨added, hspecs, hnumbered, rfl⟩ := (collectSpecs_eq_ok_iff hadapter).mp hcollect
  obtain ⟨rfl, hconstructed, hplaces⟩ := of_buildSemanticChunks hadapter hhierarchy
    (taken_of_specs hspecs) hnumbered (hspecs.length_eq ▸ hfresh) hbuilt
  refine ⟨produced, ⟨rfl, hconstructed, ?_⟩, by rw [hspecs.length_eq]⟩
  refine (forall₂_trans hspecs hplaces).imp fun index chunk hboth ↦ ?_
  obtain ⟨spec, hspec, hplace⟩ := hboth
  obtain ⟨source, hsource, -, hsourcePlace⟩ := hspec.place
  exact ⟨source, hsource, hplace.trans hsourcePlace.symm⟩

/-- Behind a paragraph the loop is ready for the others. -/
theorem ParagraphsReady.add {state : ParagraphState κ} {input : ParagraphInput}
    {inputs : List ParagraphInput} (hready : ParagraphsReady fresh document state (input :: inputs))
    (produced : List κ) :
    ParagraphsReady fresh document
      (state.add fresh input produced (state.built.drawn + 1 + input.chunkIndexes.length)) inputs := by
  refine ⟨hready.documentVersion, hready.chapterVersion, hready.belongs, ?_⟩
  have hdrawable := hready.drawable
  rw [paragraphDraws_cons, ← Nat.add_assoc, ← Nat.add_assoc] at hdrawable
  exact hdrawable

/-- What the loop over paragraphs has built at its end. -/
theorem of_foldlM_enrichParagraph (hadapter : adapter.Documented) {state final : ParagraphState κ}
    {inputs : List ParagraphInput} (hready : ParagraphsReady fresh document state inputs)
    (hrun : inputs.foldlM (enrichParagraph adapter fresh chunks document chapterInput) state =
      .ok final) :
    ∃ outcomes, AllHold adapter fresh chunks document.id state.chapter.id state.built.drawn outcomes ∧
      outcomes.map Outcome.input = inputs ∧
      final.built =
        { drawn := state.built.drawn + paragraphDraws inputs
          chapters := state.built.chapters
          paragraphs := state.built.paragraphs ++ outcomes.map Outcome.paragraph
          chunks := state.built.chunks ++ outcomes.flatMap Outcome.chunks
          seenIndexes := state.built.seenIndexes ++ indexesOf inputs } ∧
      final.chapter =
        { state.chapter with
          paragraphs := state.chapter.paragraphs ++ outcomes.map Outcome.paragraph } := by
  induction inputs generalizing state with
  | nil =>
    cases hrun
    refine ⟨[], trivial, rfl, ?_, ?_⟩
    · simp [paragraphDraws, indexesOf]
    · simp
  | cons input inputs ih =>
    obtain ⟨next, hnext, hrest⟩ := foldlM_cons_eq_ok.mp hrun
    obtain ⟨produced, hholds, rfl⟩ := of_enrichParagraph hadapter hready hnext
    obtain ⟨outcomes, hall, hinputs, hbuilt, hchapter⟩ := ih (hready.add produced) hrest
    refine ⟨⟨input, _, produced⟩ :: outcomes, ⟨hholds, hall⟩, by rw [List.map_cons, hinputs], ?_, ?_⟩
    · rw [hbuilt, paragraphDraws_cons]
      simp [ParagraphState.add, indexesOf, Nat.add_assoc]
    · rw [hchapter]
      simp [ParagraphState.add]

end Paragraphs

/-! ### Accepting a chapter -/

/-- A chapter that is accepted behind any earlier chapter. -/
structure ChapterFits (chunks : List ChunkFields) (input : ChapterInput) : Prop where
  start : 0 ≤ input.start
  paragraphs : input.paragraphs ≠ []
  paragraphsFit : ∀ paragraph ∈ input.paragraphs, ParagraphFits chunks input paragraph
  paragraphsFollow : Follows (-1) (input.paragraphs.map ParagraphInput.span)

section Chapter

variable {adapter : ChunkAdapter κ} {fresh : ℕ → Uuid} {chunks : List κ} {document : Document}
  {input : ChapterInput}

/-- The steps of a turn of the loop over chapters. -/
theorem enrichChapter_eq_ok_iff {state next : ChapterState κ}
    (hversion : uuidVersion (fresh state.built.drawn) = some 4) :
    enrichChapter adapter fresh chunks document state input = .ok next ↔
      0 ≤ input.start ∧ input.span.Proper ∧ state.previousEnd ≤ input.start ∧
        input.paragraphs ≠ [] ∧ ∃ last,
          input.paragraphs.foldlM (enrichParagraph adapter fresh chunks document input)
            ⟨{ state.built with drawn := state.built.drawn + 1 },
              ⟨document.id, fresh state.built.drawn, []⟩, -1⟩ = .ok last ∧
          next = ⟨{ last.built with chapters := last.built.chapters ++ [last.chapter] },
            input.stop⟩ := by
  rw [enrichChapter, newChapter, uuid4Text_of_version hversion]
  simp only [validateRange, raiseIf_bind_eq_ok, ok_bind]
  simp only [bind_eq_ok, pure_eq_ok, Bool.or_eq_false_iff, decide_eq_false_iff_not, not_lt, not_le,
    ne_eq, List.isEmpty_eq_false_iff]
  constructor
  · rintro ⟨⟨hstart, hproper⟩, hbehind, hne, chapter, rfl, last, hlast, hnext⟩
    exact ⟨hstart, hproper, hbehind, hne, last, hlast, hnext⟩
  · rintro ⟨hstart, hproper, hbehind, hne, last, hlast, hnext⟩
    exact ⟨⟨hstart, hproper⟩, hbehind, hne, _, rfl, last, hlast, hnext⟩

/-- The loop over the paragraphs of a chapter gets to its end exactly when they fit and follow each
other. -/
theorem exists_foldlM_enrichParagraph_iff (hadapter : adapter.Documented)
    (haccepts : ∀ chunk ∈ chunks, adapter.Accepts chunk) {state : ParagraphState κ}
    {inputs : List ParagraphInput} (hready : ParagraphsReady fresh document state inputs) :
    (∃ final, inputs.foldlM (enrichParagraph adapter fresh chunks document input) state =
      .ok final) ↔
      (∀ paragraph ∈ inputs, ParagraphFits (chunks.map adapter.fields) input paragraph) ∧
        Follows state.previousEnd (inputs.map ParagraphInput.span) := by
  refine exists_foldlM_eq_ok_iff (ParagraphsReady fresh document) _ ParagraphInput.span
    ParagraphState.previousEnd (fun state paragraph inputs hready ↦ ?_)
    (fun state paragraph inputs next hready hnext ↦ ?_) hready
  · exact exists_enrichParagraph_iff hadapter haccepts hready.documentVersion hready.chapterVersion
      hready.belongs hready.fresh_first
  · obtain ⟨produced, -, rfl⟩ := of_enrichParagraph hadapter hready hnext
    exact ⟨hready.add produced, rfl⟩

theorem paragraphDraws_append (first second : List ParagraphInput) :
    paragraphDraws (first ++ second) = paragraphDraws first + paragraphDraws second := by
  simp only [paragraphDraws, indexesOf, List.flatMap_append, List.length_append]
  omega

@[simp] theorem draws_cons (input : ChapterInput) (inputs : List ChapterInput) :
    draws (input :: inputs) = 1 + paragraphDraws input.paragraphs + draws inputs := by
  simp only [draws, paragraphsOf, List.flatMap_cons, paragraphDraws_append, List.length_cons]
  omega

variable (fresh document) in
/-- What the loop relies on in front of the chapters that are left. -/
structure ChaptersReady (state : ChapterState κ) (inputs : List ChapterInput) : Prop where
  documentVersion : uuidVersion document.id = some 4
  drawable : Fresh fresh (state.built.drawn + draws inputs)

/-- A chapter begins with a state that is ready for its paragraphs. -/
theorem ChaptersReady.paragraphs {state : ChapterState κ} {inputs : List ChapterInput}
    (hready : ChaptersReady fresh document state (input :: inputs)) :
    ParagraphsReady fresh document
      ⟨{ state.built with drawn := state.built.drawn + 1 },
        ⟨document.id, fresh state.built.drawn, []⟩, -1⟩ input.paragraphs := by
  have hdrawable := hready.drawable
  rw [draws_cons] at hdrawable
  exact ⟨hready.documentVersion, hdrawable.version _ (by omega), rfl,
    hdrawable.mono (by dsimp only; omega)⟩

theorem ChaptersReady.version {state : ChapterState κ} {inputs : List ChapterInput}
    (hready : ChaptersReady fresh document state (input :: inputs)) :
    uuidVersion (fresh state.built.drawn) = some 4 :=
  hready.paragraphs.chapterVersion

/-- **A chapter is accepted exactly when it fits and begins behind the earlier ones.** -/
theorem exists_enrichChapter_iff (hadapter : adapter.Documented)
    (haccepts : ∀ chunk ∈ chunks, adapter.Accepts chunk) {state : ChapterState κ}
    {inputs : List ChapterInput} (hready : ChaptersReady fresh document state (input :: inputs)) :
    (∃ next, enrichChapter adapter fresh chunks document state input = .ok next) ↔
      ChapterFits (chunks.map adapter.fields) input ∧ input.span.Proper ∧
        state.previousEnd ≤ input.start := by
  have hloop := @exists_foldlM_enrichParagraph_iff _ _ _ _ _ input hadapter haccepts _ _
    hready.paragraphs
  simp only [enrichChapter_eq_ok_iff hready.version]
  constructor
  · rintro ⟨next, hstart, hproper, hbehind, hne, last, hlast, -⟩
    obtain ⟨hfit, hfollow⟩ := hloop.mp ⟨last, hlast⟩
    exact ⟨⟨hstart, hne, hfit, hfollow⟩, hproper, hbehind⟩
  · rintro ⟨hfits, hproper, hbehind⟩
    obtain ⟨last, hlast⟩ := hloop.mpr ⟨hfits.paragraphsFit, hfits.paragraphsFollow⟩
    exact ⟨_, hfits.start, hproper, hbehind, hfits.paragraphs, last, hlast, rfl⟩

end Chapter

/-! ### What a chapter becomes -/

/-- A chapter that was built, with what it was built from. -/
structure ChapterOutcome (κ : Type) where
  input : ChapterInput
  chapter : Chapter
  paragraphs : List (Outcome κ)

/-- The chapter has the identifier with a number, and its paragraphs were built from those of its
input. -/
structure ChapterOutcome.Holds (adapter : ChunkAdapter κ) (fresh : ℕ → Uuid) (chunks : List κ)
    (documentId : Uuid) (number : ℕ) (outcome : ChapterOutcome κ) : Prop where
  chapter : outcome.chapter =
    ⟨documentId, fresh number, outcome.paragraphs.map Outcome.paragraph⟩
  inputs : outcome.paragraphs.map Outcome.input = outcome.input.paragraphs
  paragraphs : AllHold adapter fresh chunks documentId (fresh number) (number + 1) outcome.paragraphs

/-- Chapters that were built one after the other, with identifiers from a number on. -/
def ChaptersHold (adapter : ChunkAdapter κ) (fresh : ℕ → Uuid) (chunks : List κ)
    (documentId : Uuid) : ℕ → List (ChapterOutcome κ) → Prop
  | _, [] => True
  | number, outcome :: outcomes =>
    outcome.Holds adapter fresh chunks documentId number ∧
      ChaptersHold adapter fresh chunks documentId
        (number + 1 + paragraphDraws outcome.input.paragraphs) outcomes

section Chapters

variable {adapter : ChunkAdapter κ} {fresh : ℕ → Uuid} {chunks : List κ} {document : Document}

/-- The state behind a chapter. -/
def ChapterState.add (state : ChapterState κ) (outcome : ChapterOutcome κ) : ChapterState κ where
  built :=
    { drawn := state.built.drawn + 1 + paragraphDraws outcome.input.paragraphs
      chapters := state.built.chapters ++ [outcome.chapter]
      paragraphs := state.built.paragraphs ++ outcome.paragraphs.map Outcome.paragraph
      chunks := state.built.chunks ++ outcome.paragraphs.flatMap Outcome.chunks
      seenIndexes := state.built.seenIndexes ++ indexesOf outcome.input.paragraphs }
  previousEnd := outcome.input.stop

/-- What a turn of the loop over chapters adds. -/
theorem of_enrichChapter (hadapter : adapter.Documented) {state next : ChapterState κ}
    {input : ChapterInput} {inputs : List ChapterInput}
    (hready : ChaptersReady fresh document state (input :: inputs))
    (hnext : enrichChapter adapter fresh chunks document state input = .ok next) :
    ∃ outcome, outcome.Holds adapter fresh chunks document.id state.built.drawn ∧
      outcome.input = input ∧ next = state.add outcome := by
  obtain ⟨-, -, -, -, last, hlast, rfl⟩ := (enrichChapter_eq_ok_iff hready.version).mp hnext
  obtain ⟨outcomes, hall, hinputs, hbuilt, hchapter⟩ :=
    of_foldlM_enrichParagraph hadapter hready.paragraphs hlast
  refine ⟨⟨input, last.chapter, outcomes⟩, ⟨?_, hinputs, hall⟩, rfl, ?_⟩
  · rw [hchapter, List.nil_append]
  · rw [hbuilt]
    rfl

theorem ChaptersReady.add {state : ChapterState κ} {input : ChapterInput}
    {inputs : List ChapterInput} (hready : ChaptersReady fresh document state (input :: inputs))
    {outcome : ChapterOutcome κ} (hinput : outcome.input = input) :
    ChaptersReady fresh document (state.add outcome) inputs := by
  refine ⟨hready.documentVersion, ?_⟩
  have hdrawable := hready.drawable
  rw [draws_cons, ← Nat.add_assoc, ← Nat.add_assoc, ← hinput] at hdrawable
  exact hdrawable

/-- The loop over chapters gets to its end exactly when they fit and follow each other. -/
theorem exists_foldlM_enrichChapter_iff (hadapter : adapter.Documented)
    (haccepts : ∀ chunk ∈ chunks, adapter.Accepts chunk) {state : ChapterState κ}
    {inputs : List ChapterInput} (hready : ChaptersReady fresh document state inputs) :
    (∃ final, inputs.foldlM (enrichChapter adapter fresh chunks document) state = .ok final) ↔
      (∀ chapter ∈ inputs, ChapterFits (chunks.map adapter.fields) chapter) ∧
        Follows state.previousEnd (inputs.map ChapterInput.span) := by
  refine exists_foldlM_eq_ok_iff (ChaptersReady fresh document) _ ChapterInput.span
    ChapterState.previousEnd (fun state chapter inputs hready ↦ ?_)
    (fun state chapter inputs next hready hnext ↦ ?_) hready
  · exact exists_enrichChapter_iff hadapter haccepts hready
  · obtain ⟨outcome, -, hinput, rfl⟩ := of_enrichChapter hadapter hready hnext
    exact ⟨hready.add hinput, hinput ▸ rfl⟩

/-- What the loop over chapters has built at its end. -/
theorem of_foldlM_enrichChapter (hadapter : adapter.Documented) {state final : ChapterState κ}
    {inputs : List ChapterInput} (hready : ChaptersReady fresh document state inputs)
    (hrun : inputs.foldlM (enrichChapter adapter fresh chunks document) state = .ok final) :
    ∃ outcomes, ChaptersHold adapter fresh chunks document.id state.built.drawn outcomes ∧
      outcomes.map ChapterOutcome.input = inputs ∧
      final.built =
        { drawn := state.built.drawn + draws inputs
          chapters := state.built.chapters ++ outcomes.map ChapterOutcome.chapter
          paragraphs := state.built.paragraphs ++
            (outcomes.flatMap ChapterOutcome.paragraphs).map Outcome.paragraph
          chunks := state.built.chunks ++
            (outcomes.flatMap ChapterOutcome.paragraphs).flatMap Outcome.chunks
          seenIndexes := state.built.seenIndexes ++ indexesOf (paragraphsOf inputs) } := by
  induction inputs generalizing state with
  | nil =>
    cases hrun
    refine ⟨[], trivial, rfl, ?_⟩
    simp [draws, paragraphDraws, indexesOf, paragraphsOf]
  | cons input inputs ih =>
    obtain ⟨next, hnext, hrest⟩ := foldlM_cons_eq_ok.mp hrun
    obtain ⟨outcome, hholds, hinput, rfl⟩ := of_enrichChapter hadapter hready hnext
    obtain ⟨outcomes, hall, hinputs, hbuilt⟩ := ih (hready.add hinput) hrest
    refine ⟨outcome :: outcomes, ⟨hholds, hall⟩, by rw [List.map_cons, hinput, hinputs], ?_⟩
    rw [hbuilt, draws_cons]
    simp [ChapterState.add, indexesOf, paragraphsOf, hinput, Nat.add_assoc]

end Chapters

end DocStore.Enrichment
