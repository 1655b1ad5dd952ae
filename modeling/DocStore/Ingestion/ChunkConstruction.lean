import DocStore.Ingestion.HierarchyEnrichment

/-!
# Constructing the chunks of a paragraph

The specifications that a paragraph collects are those of the chunks it names, numbered in their
order (`collectSpecs_eq_ok_iff`). When an adapter package does what is documented
(`ChunkAdapter.Documented`), the construction succeeds exactly when the bodies are not empty and the
ranges follow each other (`exists_buildSemanticChunks_iff`), and its chunks have the bodies and the
ranges of the specifications, under the paragraph, with identifiers in the order they were drawn
(`of_buildSemanticChunks`).
-/

set_option autoImplicit false
set_option relaxedAutoImplicit false

namespace DocStore.Enrichment

open Foundation

variable {κ : Type}

/-! ### What is documented of the adapter package -/

/-- The body and the range of a chunk. -/
def ChunkFields.place (fields : ChunkFields) : Option Text × Option ℤ × Option ℤ :=
  (fields.body, fields.start, fields.stop)

/-- The span of a chunk. -/
def ChunkFields.span (fields : ChunkFields) : Span := ⟨fields.start.getD 0, fields.stop.getD 0⟩

/-- A chunk with a body and a range. -/
def ChunkFields.Located (fields : ChunkFields) : Prop :=
  fields.body.isSome = true ∧ fields.start.isSome = true ∧ fields.stop.isSome = true

/-- The text of a version 4 UUID. -/
def IsUuid4 (text : Text) : Prop := ∃ id, uuidVersion id = some 4 ∧ text = uuidText id

/-- A payload for a chunk of a paragraph. -/
structure ChunkPayload.WellFormed (payload : ChunkPayload) : Prop where
  uuid : IsUuid4 payload.uuid
  sourceId : IsUuid4 payload.sourceId
  blockId : IsUuid4 payload.blockId
  body : payload.body ≠ []
  text : payload.text = payload.body
  order : 0 ≤ payload.ordinal ∧ payload.blockIndex = payload.ordinal
  range : 0 ≤ payload.start ∧ payload.start < payload.stop

/-- The fields of a chunk are those of the payload it was constructed from. -/
structure ChunkPayload.KeptIn (payload : ChunkPayload) (fields : ChunkFields) : Prop where
  uuid : fields.uuid = payload.uuid
  sourceId : fields.sourceId = some payload.sourceId
  blockId : fields.blockId = some payload.blockId
  place : fields.place = (some payload.body, some payload.start, some payload.stop)
  ordinal : fields.ordinal = some payload.ordinal
  blockIndex : fields.blockIndex = some payload.blockIndex
  chapterId : (fields.blockMeta.bind fun fields ↦ getKey fields "chapter_id") =
    getKey payload.blockMeta "chapter_id"

/-- A chunk that the adapter package accepts. -/
def ChunkAdapter.Accepts (adapter : ChunkAdapter κ) (chunk : κ) : Prop :=
  succeeds (adapter.modelValidate chunk) = true

/-- What is documented of the adapter package: validation and serialization hand the fields of a
chunk on; the factory accepts a well-formed payload with the body and the range of a chunk that is
accepted, and keeps its fields in a chunk that is accepted. -/
structure ChunkAdapter.Documented (adapter : ChunkAdapter κ) : Prop where
  dumped : ∀ chunk, adapter.modelDump chunk = adapter.fields chunk
  validated : ∀ chunk result, adapter.modelValidate chunk = .ok result →
    adapter.fields result = adapter.fields chunk
  constructs : ∀ payload chunk, payload.WellFormed → adapter.Accepts chunk →
    (adapter.fields chunk).place = (some payload.body, some payload.start, some payload.stop) →
      ∃ result, adapter.fromDict payload = .ok result
  kept : ∀ payload result, payload.WellFormed → adapter.fromDict payload = .ok result →
    payload.KeptIn (adapter.fields result) ∧ adapter.Accepts result

/-- Identifiers of which the first ones are distinct version 4 UUIDs. -/
structure Fresh (fresh : ℕ → Uuid) (count : ℕ) : Prop where
  version : ∀ number < count, uuidVersion (fresh number) = some 4
  distinct : ∀ first < count, ∀ second < count, fresh first = fresh second → first = second

theorem Fresh.mono {fresh : ℕ → Uuid} {count fewer : ℕ} (hfresh : Fresh fresh count)
    (hle : fewer ≤ count) : Fresh fresh fewer :=
  ⟨fun number hless ↦ hfresh.version number (hless.trans_le hle),
    fun first hfirst second hsecond ↦
      hfresh.distinct first (hfirst.trans_le hle) second (hsecond.trans_le hle)⟩

theorem uuid4Text_eq_ok {value : Uuid} {fieldName : String} {text : Text} :
    uuid4Text value fieldName = .ok text ↔ uuidVersion value = some 4 ∧ text = uuidText value := by
  rw [uuid4Text, raiseIf_bind_eq_ok, pure_eq_ok]
  simp only [ne_eq, decide_not, Bool.not_eq_false', decide_eq_true_eq]

/-! ### Collecting the specifications -/

/-- The span of a specification. -/
def ChunkSpec.span (spec : ChunkSpec) : Span := ⟨spec.start, spec.stop⟩

/-- The span of a paragraph. -/
def ParagraphInput.span (input : ParagraphInput) : Span := ⟨input.start, input.stop⟩

/-- A specification of the chunk at an index. -/
structure SpecOf (adapter : ChunkAdapter κ) (chunks : List κ) (paragraph : ParagraphInput)
    (index : ℤ) (spec : ChunkSpec) : Prop where
  place : ∃ chunk, chunks[index.toNat]? = some chunk ∧ adapter.Accepts chunk ∧
    (adapter.fields chunk).place = (some spec.body, some spec.start, some spec.stop)
  within : spec.span.Within paragraph.span
  uuid : spec.uuid = none

/-- Specifications numbered from an ordinal on. -/
def Numbered : ℕ → List ChunkSpec → Prop
  | _, [] => True
  | index, spec :: specs => spec.ordinal = some (index : ℤ) ∧ Numbered (index + 1) specs

theorem collectSpec_eq_ok_iff {adapter : ChunkAdapter κ} (hadapter : adapter.Documented)
    {chunks : List κ} {paragraph : ParagraphInput} {specs next : List ChunkSpec} {index : ℤ} :
    collectSpec adapter chunks paragraph specs index = .ok next ↔
      ∃ spec, SpecOf adapter chunks paragraph index spec ∧ spec.ordinal = some (specs.length : ℤ) ∧
        next = specs ++ [spec] := by
  unfold collectSpec
  constructor
  · intro hcollected
    split at hcollected
    · cases hcollected
    next chunk hchunk =>
      obtain ⟨validated, hvalidated, hspec⟩ := bind_eq_ok.mp hcollected
      rw [hadapter.dumped, hadapter.validated _ _ hvalidated] at hspec
      dsimp only at hspec
      split at hspec
      next body start stop hbody hstart hstop =>
        obtain ⟨hwithin, hnext⟩ := raiseIf_bind_eq_ok.mp hspec
        simp only [Bool.or_eq_false_iff, decide_eq_false_iff_not, not_lt] at hwithin
        refine ⟨⟨body, start, stop, none, some specs.length⟩, ⟨⟨chunk, hchunk, ?_, ?_⟩, hwithin, rfl⟩,
          rfl, (pure_eq_ok.mp hnext)⟩
        · rw [ChunkAdapter.Accepts, hvalidated]
          rfl
        · rw [ChunkFields.place, hbody, hstart, hstop]
      next => cases hspec
  · rintro ⟨⟨body, start, stop, uuid, ordinal⟩, ⟨⟨chunk, hchunk, haccepts, hplace⟩, hwithin, huuid⟩,
      hordinal, rfl⟩
    cases huuid
    cases hordinal
    obtain ⟨validated, hvalidated⟩ := exists_of_succeeds haccepts
    simp only [ChunkFields.place, Prod.mk.injEq] at hplace
    obtain ⟨hbody, hstart, hstop⟩ := hplace
    have hinside : (decide (start < paragraph.start) || decide (paragraph.stop < stop)) = false := by
      simp only [Bool.or_eq_false_iff, decide_eq_false_iff_not, not_lt]
      exact hwithin
    rw [hchunk]
    refine bind_eq_ok.mpr ⟨validated, hvalidated, ?_⟩
    rw [hadapter.dumped, hadapter.validated _ _ hvalidated]
    dsimp only
    rw [hbody, hstart, hstop]
    exact raiseIf_bind_eq_ok.mpr ⟨hinside, rfl⟩

/-- What a paragraph collects. -/
theorem collectSpecs_eq_ok_iff {adapter : ChunkAdapter κ} (hadapter : adapter.Documented)
    {chunks : List κ} {paragraph : ParagraphInput} {indexes : List ℤ} {specs result : List ChunkSpec} :
    indexes.foldlM (collectSpec adapter chunks paragraph) specs = .ok result ↔
      ∃ added, List.Forall₂ (SpecOf adapter chunks paragraph) indexes added ∧
        Numbered specs.length added ∧ result = specs ++ added := by
  induction indexes generalizing specs with
  | nil =>
    constructor
    · intro hresult
      cases hresult
      exact ⟨[], .nil, trivial, (List.append_nil _).symm⟩
    · rintro ⟨added, hadded, -, rfl⟩
      cases hadded
      rw [List.append_nil]
      rfl
  | cons index indexes ih =>
    rw [foldlM_cons_eq_ok]
    constructor
    · rintro ⟨next, hnext, hrest⟩
      obtain ⟨spec, hspec, hordinal, rfl⟩ := (collectSpec_eq_ok_iff hadapter).mp hnext
      obtain ⟨added, hadded, hnumbered, rfl⟩ := ih.mp hrest
      rw [List.length_append, List.length_singleton] at hnumbered
      exact ⟨spec :: added, .cons hspec hadded, ⟨hordinal, hnumbered⟩, by simp⟩
    · rintro ⟨added, hadded, hnumbered, rfl⟩
      cases hadded with
      | @cons _ spec _ added hspec hadded =>
        refine ⟨_, (collectSpec_eq_ok_iff hadapter).mpr ⟨spec, hspec, hnumbered.1, rfl⟩,
          ih.mpr ⟨added, hadded, ?_, by simp⟩⟩
        rw [List.length_append, List.length_singleton]
        exact hnumbered.2

/-! ### The loop that constructs -/

section Construction

variable {adapter : ChunkAdapter κ} {fresh : ℕ → Uuid} {sourceId blockId chapterId : Text}

/-- Chunks of a paragraph that follow each other, with the identifiers drawn from a number on. -/
def Constructed (fresh : ℕ → Uuid) (sourceId blockId chapterId : Text) :
    ℕ → ℕ → List ChunkFields → Prop
  | _, _, [] => True
  | drawn, index, chunk :: chunks =>
    (chunk.uuid = uuidText (fresh drawn) ∧ chunk.sourceId = some sourceId ∧
      chunk.blockId = some blockId ∧
      (chunk.blockMeta.bind fun fields ↦ getKey fields "chapter_id") = some (.str chapterId) ∧
      chunk.ordinal = some (index : ℤ) ∧ chunk.blockIndex = some (index : ℤ) ∧ chunk.Located) ∧
    Constructed fresh sourceId blockId chapterId (drawn + 1) (index + 1) chunks

/-- A specification that takes its body and its range from a chunk that is accepted. -/
def Taken (adapter : ChunkAdapter κ) (spec : ChunkSpec) : Prop :=
  spec.uuid = none ∧ ∃ chunk, adapter.Accepts chunk ∧
    (adapter.fields chunk).place = (some spec.body, some spec.start, some spec.stop)

/-- The payload for a specification. -/
def payloadOf (fresh : ℕ → Uuid) (sourceId blockId chapterId : Text) (state : BuildState κ)
    (spec : ChunkSpec) : ChunkPayload where
  uuid := uuidText (fresh state.drawn)
  sourceId := sourceId
  blockId := blockId
  body := spec.body
  text := spec.body
  type := .docBlock
  blockType := .paragraph
  ordinal := state.index
  blockIndex := state.index
  start := spec.start
  stop := spec.stop
  blockMeta := [("chapter_id", .str chapterId)]

/-- The state behind a chunk. -/
def BuildState.add (fresh : ℕ → Uuid) (state : BuildState κ) (spec : ChunkSpec) (chunk : κ) :
    BuildState κ where
  drawn := state.drawn + 1
  index := state.index + 1
  result := state.result ++ [chunk]
  seenUuids := uuidText (fresh state.drawn) :: state.seenUuids
  previousEnd := spec.stop

@[simp] theorem BuildState.add_drawn (state : BuildState κ) (spec : ChunkSpec) (chunk : κ) :
    (state.add fresh spec chunk).drawn = state.drawn + 1 :=
  rfl

@[simp] theorem BuildState.add_index (state : BuildState κ) (spec : ChunkSpec) (chunk : κ) :
    (state.add fresh spec chunk).index = state.index + 1 :=
  rfl

@[simp] theorem BuildState.add_result (state : BuildState κ) (spec : ChunkSpec) (chunk : κ) :
    (state.add fresh spec chunk).result = state.result ++ [chunk] :=
  rfl

@[simp] theorem BuildState.add_seenUuids (state : BuildState κ) (spec : ChunkSpec) (chunk : κ) :
    (state.add fresh spec chunk).seenUuids = uuidText (fresh state.drawn) :: state.seenUuids :=
  rfl

@[simp] theorem BuildState.add_previousEnd (state : BuildState κ) (spec : ChunkSpec) (chunk : κ) :
    (state.add fresh spec chunk).previousEnd = spec.stop :=
  rfl

/-- What a turn of the construction checks, and what it adds. -/
theorem buildChunk_eq_ok_iff {state next : BuildState κ} {spec : ChunkSpec}
    (huuid : spec.uuid = none) (hordinal : spec.ordinal = some (state.index : ℤ)) :
    buildChunk adapter fresh sourceId blockId chapterId state spec = .ok next ↔
      spec.body ≠ [] ∧ 0 ≤ spec.start ∧ spec.span.Proper ∧ state.previousEnd ≤ spec.start ∧
        uuidVersion (fresh state.drawn) = some 4 ∧
        uuidText (fresh state.drawn) ∉ state.seenUuids ∧
        ∃ chunk, adapter.fromDict (payloadOf fresh sourceId blockId chapterId state spec) =
          .ok chunk ∧ next = state.add fresh spec chunk := by
  rw [buildChunk, huuid, hordinal]
  simp only [raiseIf_bind_eq_ok, Option.getD_none]
  simp only [bind_eq_ok, raiseIf_eq_ok, uuid4Text_eq_ok, pure_eq_ok]
  constructor
  · rintro ⟨hbody, hrange, hbehind, -, chunkId, ⟨hversion, rfl⟩, -, hunseen, chunk, hchunk, hnext⟩
    simp only [Bool.or_eq_false_iff, decide_eq_false_iff_not, not_lt, not_le] at hrange hbehind
    refine ⟨?_, hrange.1, hrange.2, hbehind, hversion, ?_, chunk, hchunk, hnext⟩
    · simpa using hbody
    · simpa using hunseen
  · rintro ⟨hbody, hstart, hproper, hbehind, hversion, hunseen, chunk, hchunk, hnext⟩
    refine ⟨by simpa using hbody, ?_, by simpa using hbehind, by simp, _, ⟨hversion, rfl⟩,
      (), by simpa using hunseen, chunk, hchunk, hnext⟩
    simp only [Bool.or_eq_false_iff, decide_eq_false_iff_not, not_lt, not_le]
    exact ⟨hstart, hproper⟩

variable (adapter fresh) in
/-- What the construction relies on in front of the specifications that are left. -/
structure Ready (state : BuildState κ) (specs : List ChunkSpec) : Prop where
  taken : ∀ spec ∈ specs, Taken adapter spec
  numbered : Numbered state.index specs
  drawable : Fresh fresh (state.drawn + specs.length)
  seen : ∀ text ∈ state.seenUuids, ∃ number < state.drawn, text = uuidText (fresh number)

theorem Ready.fresh_first {state : BuildState κ} {spec : ChunkSpec} {specs : List ChunkSpec}
    (hready : Ready adapter fresh state (spec :: specs)) :
    uuidVersion (fresh state.drawn) = some 4 ∧ uuidText (fresh state.drawn) ∉ state.seenUuids := by
  have hless : state.drawn < state.drawn + (spec :: specs).length := by
    rw [List.length_cons]
    omega
  refine ⟨hready.drawable.version _ hless, fun hseen ↦ ?_⟩
  obtain ⟨number, hnumber, htext⟩ := hready.seen _ hseen
  have hsame := hready.drawable.distinct _ hless _ (hnumber.trans hless) (uuidText_injective htext)
  omega

theorem Ready.add {state : BuildState κ} {spec : ChunkSpec} {specs : List ChunkSpec}
    (hready : Ready adapter fresh state (spec :: specs)) (chunk : κ) :
    Ready adapter fresh (state.add fresh spec chunk) specs := by
  refine ⟨fun other hother ↦ hready.taken other (List.mem_cons_of_mem _ hother),
    hready.numbered.2, hready.drawable.mono ?_, fun text hseen ↦ ?_⟩
  · rw [BuildState.add_drawn, List.length_cons]
    omega
  · rw [BuildState.add_seenUuids, List.mem_cons] at hseen
    rw [BuildState.add_drawn]
    rcases hseen with htext | hseen
    · exact ⟨state.drawn, Nat.lt_succ_self _, htext⟩
    · obtain ⟨number, hless, htext⟩ := hready.seen text hseen
      exact ⟨number, Nat.lt_succ_of_lt hless, htext⟩

variable (hsource : IsUuid4 sourceId) (hblock : IsUuid4 blockId)
include hsource hblock

/-- The payload for a specification is well-formed. -/
theorem wellFormed_payloadOf {state : BuildState κ} {spec : ChunkSpec}
    (hversion : uuidVersion (fresh state.drawn) = some 4) (hbody : spec.body ≠ [])
    (hstart : 0 ≤ spec.start) (hproper : spec.span.Proper) :
    (payloadOf fresh sourceId blockId chapterId state spec).WellFormed where
  uuid := ⟨_, hversion, rfl⟩
  sourceId := hsource
  blockId := hblock
  body := hbody
  text := rfl
  order := ⟨Int.natCast_nonneg _, rfl⟩
  range := ⟨hstart, hproper⟩

variable (hadapter : adapter.Documented)
include hadapter

/-- **The construction gets to its end exactly when no body is empty and the ranges follow each
other.** -/
theorem exists_foldlM_buildChunk_iff {state : BuildState κ} {specs : List ChunkSpec}
    (hready : Ready adapter fresh state specs) :
    (∃ final, specs.foldlM (buildChunk adapter fresh sourceId blockId chapterId) state =
      .ok final) ↔
      (∀ spec ∈ specs, spec.body ≠ [] ∧ 0 ≤ spec.start) ∧
        Follows state.previousEnd (specs.map ChunkSpec.span) := by
  refine exists_foldlM_eq_ok_iff (Ready adapter fresh) _ ChunkSpec.span BuildState.previousEnd
    (fun state spec specs hready ↦ ?_) (fun state spec specs next hready hnext ↦ ?_) hready
  · obtain ⟨huuid, source, haccepts, hplace⟩ := hready.taken spec List.mem_cons_self
    simp only [buildChunk_eq_ok_iff huuid hready.numbered.1]
    constructor
    · rintro ⟨next, hbody, hstart, hproper, hbehind, -⟩
      exact ⟨⟨hbody, hstart⟩, hproper, hbehind⟩
    · rintro ⟨⟨hbody, hstart⟩, hproper, hbehind⟩
      obtain ⟨hversion, hunseen⟩ := hready.fresh_first
      have hwellFormed := @wellFormed_payloadOf _ _ _ _ chapterId hsource hblock state spec
        hversion hbody hstart hproper
      obtain ⟨chunk, hchunk⟩ := hadapter.constructs _ source hwellFormed haccepts hplace
      exact ⟨_, hbody, hstart, hproper, hbehind, hversion, hunseen, chunk, hchunk, rfl⟩
  · obtain ⟨huuid, -⟩ := hready.taken spec List.mem_cons_self
    obtain ⟨-, -, -, -, -, -, chunk, -, rfl⟩ :=
      (buildChunk_eq_ok_iff huuid hready.numbered.1).mp hnext
    exact ⟨hready.add chunk, rfl⟩

/-- What has been constructed at the end. -/
theorem of_foldlM_buildChunk {state final : BuildState κ} {specs : List ChunkSpec}
    (hready : Ready adapter fresh state specs)
    (hrun : specs.foldlM (buildChunk adapter fresh sourceId blockId chapterId) state = .ok final) :
    ∃ added, final.result = state.result ++ added ∧ final.drawn = state.drawn + specs.length ∧
      Constructed fresh sourceId blockId chapterId state.drawn state.index
        (added.map adapter.fields) ∧
      List.Forall₂ (fun spec chunk ↦ (adapter.fields chunk).place =
        (some spec.body, some spec.start, some spec.stop)) specs added ∧
      ∀ chunk ∈ added, adapter.Accepts chunk := by
  induction specs generalizing state with
  | nil =>
    cases hrun
    exact ⟨[], (List.append_nil _).symm, rfl, trivial, .nil, by simp⟩
  | cons spec specs ih =>
    obtain ⟨next, hnext, hrest⟩ := foldlM_cons_eq_ok.mp hrun
    obtain ⟨huuid, -⟩ := hready.taken spec List.mem_cons_self
    obtain ⟨hbody, hstart, hproper, -, hversion, -, chunk, hchunk, rfl⟩ :=
      (buildChunk_eq_ok_iff huuid hready.numbered.1).mp hnext
    have hwellFormed := @wellFormed_payloadOf _ _ _ _ chapterId hsource hblock state spec
      hversion hbody hstart hproper
    obtain ⟨hkept, haccepts⟩ := hadapter.kept _ _ hwellFormed hchunk
    obtain ⟨added, hresult, hdrawn, hconstructed, hplaces, hall⟩ := ih (hready.add chunk) hrest
    have hplace := hkept.place
    have hlocated : (adapter.fields chunk).Located := by
      simp only [ChunkFields.place, Prod.mk.injEq] at hplace
      rw [ChunkFields.Located, hplace.1, hplace.2.1, hplace.2.2]
      exact ⟨rfl, rfl, rfl⟩
    refine ⟨chunk :: added, ?_, ?_, ⟨⟨hkept.uuid, hkept.sourceId, hkept.blockId, ?_, hkept.ordinal,
      hkept.blockIndex, hlocated⟩, hconstructed⟩, .cons hplace hplaces,
      List.forall_mem_cons.mpr ⟨haccepts, hall⟩⟩
    · rw [hresult, BuildState.add_result, List.append_assoc, List.singleton_append]
    · rw [hdrawn, BuildState.add_drawn, List.length_cons]
      omega
    · rw [hkept.chapterId]
      exact if_pos rfl

end Construction

/-! ### Checking what was constructed -/

section Checking

variable {adapter : ChunkAdapter κ} {fresh : ℕ → Uuid} {sourceId blockId chapterId : Text}
  {first : ℕ}

/-- What a turn of the check finds at a chunk that was constructed. -/
theorem checkChunk_eq_ok_iff {state next : CheckState} {chunk : ChunkFields}
    {chunks : List ChunkFields}
    (hconstructed : Constructed fresh sourceId blockId chapterId (first + state.index) state.index
      (chunk :: chunks)) :
    checkChunk sourceId blockId chapterId state chunk = .ok next ↔
      uuidVersion (fresh (first + state.index)) = some 4 ∧
        uuidText (fresh (first + state.index)) ∉ state.seenUuids ∧
        chunk.span.Proper ∧ state.previousEnd ≤ chunk.span.start ∧
        next = ⟨state.index + 1, uuidText (fresh (first + state.index)) :: state.seenUuids,
          chunk.span.stop⟩ := by
  obtain ⟨⟨huuid, hsource, hblock, hchapter, hordinal, hindex, hlocated⟩, -⟩ := hconstructed
  obtain ⟨start, hstart⟩ := Option.isSome_iff_exists.mp hlocated.2.1
  obtain ⟨stop, hstop⟩ := Option.isSome_iff_exists.mp hlocated.2.2
  rw [checkChunk, hsource, hblock, hchapter, huuid, parseUuid_uuidText, hordinal, hindex]
  simp only [raiseIf_bind_eq_ok, ne_eq, not_true_eq_false, decide_false, true_and]
  rw [bind_eq_ok]
  simp only [uuid4Text_eq_ok, raiseIf_bind_eq_ok, Bool.or_self, true_and, hstart, hstop,
    pure_eq_ok, decide_eq_false_iff_not, not_le, not_lt, List.contains_eq_mem]
  rw [ChunkFields.span, Span.Proper, hstart, hstop]
  constructor
  · rintro ⟨chunkId, ⟨hversion, rfl⟩, hunseen, hproper, hbehind, hnext⟩
    exact ⟨hversion, hunseen, hproper, hbehind, hnext⟩
  · rintro ⟨hversion, hunseen, hproper, hbehind, hnext⟩
    exact ⟨_, ⟨hversion, rfl⟩, hunseen, hproper, hbehind, hnext⟩

variable (fresh sourceId blockId chapterId first) in
/-- What the check relies on in front of the chunks that are left. -/
structure Checkable (state : CheckState) (chunks : List ChunkFields) : Prop where
  constructed : Constructed fresh sourceId blockId chapterId (first + state.index) state.index chunks
  drawable : Fresh fresh (first + state.index + chunks.length)
  seen : ∀ text ∈ state.seenUuids, ∃ number < state.index, text = uuidText (fresh (first + number))

/-- The check of what was constructed only depends on the ranges. -/
theorem exists_foldlM_checkChunk_iff {state : CheckState} {chunks : List ChunkFields}
    (hcheckable : Checkable fresh sourceId blockId chapterId first state chunks) :
    (∃ final, chunks.foldlM (checkChunk sourceId blockId chapterId) state = .ok final) ↔
      Follows state.previousEnd (chunks.map ChunkFields.span) := by
  rw [exists_foldlM_eq_ok_iff (Checkable fresh sourceId blockId chapterId first) (fun _ ↦ True)
    ChunkFields.span CheckState.previousEnd (fun state chunk chunks hcheckable ↦ ?_)
    (fun state chunk chunks next hcheckable hnext ↦ ?_) hcheckable]
  · simp only [implies_true, true_and]
  · simp only [checkChunk_eq_ok_iff hcheckable.constructed, true_and]
    have hless : first + state.index < first + state.index + (chunk :: chunks).length := by
      rw [List.length_cons]
      omega
    have hunseen : uuidText (fresh (first + state.index)) ∉ state.seenUuids := by
      intro hseen
      obtain ⟨number, hnumber, htext⟩ := hcheckable.seen _ hseen
      have hsame := hcheckable.drawable.distinct _ hless _ (by omega) (uuidText_injective htext)
      omega
    constructor
    · rintro ⟨next, -, -, hproper, hbehind, -⟩
      exact ⟨hproper, hbehind⟩
    · rintro ⟨hproper, hbehind⟩
      exact ⟨_, hcheckable.drawable.version _ hless, hunseen, hproper, hbehind, rfl⟩
  · obtain ⟨-, -, -, -, rfl⟩ := (checkChunk_eq_ok_iff hcheckable.constructed).mp hnext
    have hdrawable := hcheckable.drawable
    rw [List.length_cons, Nat.add_comm chunks.length, ← Nat.add_assoc] at hdrawable
    refine ⟨⟨hcheckable.constructed.2, hdrawable, fun text hseen ↦ ?_⟩, rfl⟩
    dsimp only at hseen ⊢
    rw [List.mem_cons] at hseen
    rcases hseen with htext | hseen
    · exact ⟨state.index, Nat.lt_succ_self _, htext⟩
    · obtain ⟨number, hnumber, htext⟩ := hcheckable.seen text hseen
      exact ⟨number, Nat.lt_succ_of_lt hnumber, htext⟩

/-- Validation hands accepted chunks on. -/
theorem exists_mapM_modelValidate (hadapter : adapter.Documented) {chunks : List κ}
    (haccepts : ∀ chunk ∈ chunks, adapter.Accepts chunk) :
    ∃ validated, chunks.mapM adapter.modelValidate = .ok validated ∧
      validated.map adapter.fields = chunks.map adapter.fields := by
  obtain ⟨validated, hvalidated⟩ := exists_mapM_eq_ok fun chunk hmem ↦
    exists_of_succeeds (haccepts chunk hmem)
  refine ⟨validated, hvalidated, ?_⟩
  have hall := mapM_eq_ok.mp hvalidated
  clear hvalidated haccepts
  induction hall with
  | nil => rfl
  | cons hfirst _ ih => rw [List.map_cons, List.map_cons, ih, hadapter.validated _ _ hfirst]

end Checking

/-! ### The chunks of a paragraph -/

/-- A chapter of a document and a paragraph of this chapter, all with version 4 identifiers. -/
structure Hierarchical (document : Document) (chapter : Chapter) (paragraph : Paragraph) : Prop where
  documentVersion : uuidVersion document.id = some 4
  chapterVersion : uuidVersion chapter.id = some 4
  paragraphVersion : uuidVersion paragraph.id = some 4
  ofDocument : chapter.document = document.id
  ofChapter : paragraph.chapter = chapter.id

section Building

variable {adapter : ChunkAdapter κ} {fresh : ℕ → Uuid} {drawn : ℕ} {document : Document}
  {chapter : Chapter} {paragraph : Paragraph} {specs : List ChunkSpec}

theorem uuid4Text_of_version {id : Uuid} (hversion : uuidVersion id = some 4) (fieldName : String) :
    uuid4Text id fieldName = .ok (uuidText id) :=
  uuid4Text_eq_ok.mpr ⟨hversion, rfl⟩

theorem Hierarchical.validate (hhierarchy : Hierarchical document chapter paragraph) :
    validateHierarchy document chapter paragraph = .ok () := by
  rw [validateHierarchy, uuid4Text_of_version hhierarchy.documentVersion,
    uuid4Text_of_version hhierarchy.chapterVersion, uuid4Text_of_version hhierarchy.paragraphVersion,
    hhierarchy.ofDocument, hhierarchy.ofChapter]
  simp [raiseIf, bind, Except.bind]

/-- Chunks that were constructed and follow each other pass the validation. -/
theorem exists_validateSemanticChunks (hadapter : adapter.Documented)
    (hhierarchy : Hierarchical document chapter paragraph) {chunks : List κ}
    (hne : chunks ≠ []) (haccepts : ∀ chunk ∈ chunks, adapter.Accepts chunk)
    (hconstructed : Constructed fresh (uuidText document.id) (uuidText paragraph.id)
      (uuidText chapter.id) drawn 0 (chunks.map adapter.fields))
    (hfresh : Fresh fresh (drawn + chunks.length))
    (hfollows : Follows (-1) ((chunks.map adapter.fields).map ChunkFields.span)) :
    ∃ validated, validateSemanticChunks adapter document chapter paragraph chunks = .ok validated ∧
      validated.map adapter.fields = chunks.map adapter.fields := by
  obtain ⟨validated, hvalidated, hsame⟩ := exists_mapM_modelValidate hadapter haccepts
  refine ⟨validated, ?_, hsame⟩
  have hcheckable : Checkable fresh (uuidText document.id) (uuidText paragraph.id)
      (uuidText chapter.id) drawn ⟨0, [], -1⟩ (chunks.map adapter.fields) :=
    ⟨hconstructed, by rwa [List.length_map], by simp⟩
  obtain ⟨final, hfinal⟩ := (exists_foldlM_checkChunk_iff hcheckable).mpr hfollows
  have hfull : validated.isEmpty = false := by
    have hmap : validated.map adapter.fields ≠ [] := by
      rw [hsame]
      exact fun hnil ↦ hne (List.map_eq_nil_iff.mp hnil)
    exact List.isEmpty_eq_false_iff.mpr fun hnil ↦ hmap (List.map_eq_nil_iff.mpr hnil)
  rw [validateSemanticChunks, hhierarchy.validate, uuid4Text_of_version hhierarchy.documentVersion,
    uuid4Text_of_version hhierarchy.chapterVersion, uuid4Text_of_version hhierarchy.paragraphVersion]
  simp only [ok_bind, hvalidated, hsame, hfinal, hfull, raiseIf]
  rfl

/-- The state in front of the first chunk. -/
theorem ready_initial (htaken : ∀ spec ∈ specs, Taken adapter spec) (hnumbered : Numbered 0 specs)
    (hfresh : Fresh fresh (drawn + specs.length)) :
    Ready adapter fresh ⟨drawn, 0, [], [], -1⟩ specs :=
  ⟨htaken, hnumbered, hfresh, by simp⟩

/-- The spans of what was constructed are those of the specifications. -/
theorem map_span_of_places {chunks : List κ}
    (hplaces : List.Forall₂ (fun spec chunk ↦ (adapter.fields chunk).place =
      (some (ChunkSpec.body spec), some spec.start, some spec.stop)) specs chunks) :
    (chunks.map adapter.fields).map ChunkFields.span = specs.map ChunkSpec.span := by
  induction hplaces with
  | nil => rfl
  | cons hplace _ ih =>
    simp only [ChunkFields.place, Prod.mk.injEq] at hplace
    rw [List.map_cons, List.map_cons, List.map_cons, ih, ChunkFields.span, hplace.2.1, hplace.2.2]
    rfl

variable (hadapter : adapter.Documented) (hhierarchy : Hierarchical document chapter paragraph)
  (htaken : ∀ spec ∈ specs, Taken adapter spec) (hnumbered : Numbered 0 specs)
  (hfresh : Fresh fresh (drawn + specs.length))
include hadapter hhierarchy htaken hnumbered hfresh

/-- Behind the loop, the validation accepts what was constructed. -/
theorem exists_validated_of_foldlM {final : BuildState κ} (hne : specs ≠ [])
    (hrun : specs.foldlM (buildChunk adapter fresh (uuidText document.id) (uuidText paragraph.id)
      (uuidText chapter.id)) ⟨drawn, 0, [], [], -1⟩ = .ok final) :
    ∃ validated, validateSemanticChunks adapter document chapter paragraph final.result =
        .ok validated ∧
      final.drawn = drawn + specs.length ∧
      Constructed fresh (uuidText document.id) (uuidText paragraph.id) (uuidText chapter.id)
        drawn 0 (validated.map adapter.fields) ∧
      List.Forall₂ (fun spec chunk ↦ (adapter.fields chunk).place =
        (some (ChunkSpec.body spec), some spec.start, some spec.stop)) specs validated := by
  have hready := ready_initial htaken hnumbered hfresh
  have hsource : IsUuid4 (uuidText document.id) := ⟨_, hhierarchy.documentVersion, rfl⟩
  have hblock : IsUuid4 (uuidText paragraph.id) := ⟨_, hhierarchy.paragraphVersion, rfl⟩
  obtain ⟨-, hfollows⟩ :=
    (exists_foldlM_buildChunk_iff hsource hblock hadapter hready).mp ⟨final, hrun⟩
  obtain ⟨added, hresult, hdrawn, hconstructed, hplaces, haccepts⟩ :=
    of_foldlM_buildChunk hsource hblock hadapter hready hrun
  rw [List.nil_append] at hresult
  subst hresult
  have hlength := hplaces.length_eq
  have hadded : final.result ≠ [] := fun hnil ↦
    hne (List.length_eq_zero_iff.mp (by rw [hlength, hnil, List.length_nil]))
  rw [← map_span_of_places hplaces] at hfollows
  obtain ⟨validated, hvalidated, hsame⟩ := exists_validateSemanticChunks hadapter hhierarchy hadded
    haccepts hconstructed (hlength ▸ hfresh) hfollows
  refine ⟨validated, hvalidated, hdrawn, hsame ▸ hconstructed, ?_⟩
  rw [← List.forall₂_map_right_iff (R := fun spec fields ↦ ChunkFields.place fields = _)] at hplaces ⊢
  rwa [hsame]

omit hadapter htaken hnumbered hfresh in
/-- The steps of `buildSemanticChunks` for a valid hierarchy. -/
theorem buildSemanticChunks_eq_ok_iff {chunks : List κ} {after : ℕ} :
    buildSemanticChunks adapter fresh drawn document chapter paragraph specs = .ok (chunks, after) ↔
      specs ≠ [] ∧ ∃ final,
        specs.foldlM (buildChunk adapter fresh (uuidText document.id) (uuidText paragraph.id)
          (uuidText chapter.id)) ⟨drawn, 0, [], [], -1⟩ = .ok final ∧
        validateSemanticChunks adapter document chapter paragraph final.result = .ok chunks ∧
        after = final.drawn := by
  rw [buildSemanticChunks, hhierarchy.validate, uuid4Text_of_version hhierarchy.documentVersion,
    uuid4Text_of_version hhierarchy.chapterVersion, uuid4Text_of_version hhierarchy.paragraphVersion]
  simp only [ok_bind, raiseIf_bind_eq_ok]
  simp only [bind_eq_ok, pure_eq_ok, Prod.mk.injEq, List.isEmpty_eq_false_iff]
  constructor
  · rintro ⟨hne, final, hfinal, validated, hvalidated, rfl, rfl⟩
    exact ⟨hne, final, hfinal, hvalidated, rfl⟩
  · rintro ⟨hne, final, hfinal, hvalidated, rfl⟩
    exact ⟨hne, final, hfinal, chunks, hvalidated, rfl, rfl⟩

/-- What the chunks of a paragraph are. -/
theorem of_buildSemanticChunks {chunks : List κ} {after : ℕ}
    (hbuilt : buildSemanticChunks adapter fresh drawn document chapter paragraph specs =
      .ok (chunks, after)) :
    after = drawn + specs.length ∧
      Constructed fresh (uuidText document.id) (uuidText paragraph.id) (uuidText chapter.id)
        drawn 0 (chunks.map adapter.fields) ∧
      List.Forall₂ (fun spec chunk ↦ (adapter.fields chunk).place =
        (some (ChunkSpec.body spec), some spec.start, some spec.stop)) specs chunks := by
  obtain ⟨hne, final, hfinal, hvalidated, rfl⟩ :=
    (buildSemanticChunks_eq_ok_iff hhierarchy).mp hbuilt
  obtain ⟨validated, hother, hdrawn, hconstructed, hplaces⟩ :=
    exists_validated_of_foldlM hadapter hhierarchy htaken hnumbered hfresh hne hfinal
  rw [hvalidated, Except.ok.injEq] at hother
  exact hother ▸ ⟨hdrawn, hconstructed, hplaces⟩

/-- **A paragraph's chunks are built exactly when it names some, no body is empty, and the ranges
follow each other.** -/
theorem exists_buildSemanticChunks_iff :
    (∃ result, buildSemanticChunks adapter fresh drawn document chapter paragraph specs =
      .ok result) ↔
      specs ≠ [] ∧ (∀ spec ∈ specs, spec.body ≠ [] ∧ 0 ≤ spec.start) ∧
        Follows (-1) (specs.map ChunkSpec.span) := by
  have hloop := @exists_foldlM_buildChunk_iff κ adapter fresh _ _ (uuidText chapter.id)
    ⟨_, hhierarchy.documentVersion, rfl⟩ ⟨_, hhierarchy.paragraphVersion, rfl⟩ hadapter _ _
    (ready_initial htaken hnumbered hfresh)
  constructor
  · rintro ⟨⟨chunks, after⟩, hbuilt⟩
    obtain ⟨hne, final, hfinal, -⟩ := (buildSemanticChunks_eq_ok_iff hhierarchy).mp hbuilt
    exact ⟨hne, hloop.mp ⟨final, hfinal⟩⟩
  · rintro ⟨hne, hall⟩
    obtain ⟨final, hfinal⟩ := hloop.mpr hall
    obtain ⟨validated, hvalidated, -⟩ :=
      exists_validated_of_foldlM hadapter hhierarchy htaken hnumbered hfresh hne hfinal
    exact ⟨_, (buildSemanticChunks_eq_ok_iff hhierarchy).mpr ⟨hne, final, hfinal, hvalidated, rfl⟩⟩

end Building

end DocStore.Enrichment
