import DocStore.Database.SemanticChunkMapper

/-!
# What the mapper reads

`fromRows` checks that the children belong to the chunk, that the kinds of the tokens are known and
that every sequence of children is numbered from zero. Rows that pass these checks are read the same
way in whatever order the children come back, and no other rows are read at all
(`complete_iff_exists_payload`).
-/

set_option autoImplicit false
set_option relaxedAutoImplicit false

namespace DocStore.SemanticChunkMapper

open Foundation

/-! ### The checks -/

theorem orderedRows_eq_ok {ρ : Type} {ordinal : ρ → ℤ} {rows result : List ρ} :
    orderedRows ordinal rows = .ok result ↔ ordered ordinal rows = .ok result := by
  rw [orderedRows]
  cases ordered ordinal rows with
  | ok found => simp
  | error fault => cases fault <;> simp

theorem checkOwner_eq_ok {ρ : Type} {collection : String} {owner : ρ → Uuid} {chunkId : Uuid}
    {rows : List ρ} : checkOwner collection owner chunkId rows = .ok () ↔
      ∀ row ∈ rows, owner row = chunkId := by
  simp [checkOwner]

theorem checkKinds_eq_ok {tokens : List TokenRow} : checkKinds tokens = .ok () ↔
    ∀ row ∈ tokens, row.tokenKind ∈ tokenKinds := by
  rw [checkKinds]
  split
  next row hfound =>
    have hunknown := List.find?_some hfound
    refine iff_of_false (fun hok ↦ by cases hok) fun hall ↦ ?_
    have hknown := hall row (List.mem_of_find?_eq_some hfound)
    simp [hknown] at hunknown
  next hnone =>
    refine iff_of_true rfl fun row hrow ↦ ?_
    simpa using List.find?_eq_none.mp hnone row hrow

theorem orderedRows_congr {ρ : Type} {ordinal : ρ → ℤ} {rows rows' result : List ρ}
    (hperm : rows.Perm rows') :
    orderedRows ordinal rows = .ok result ↔ orderedRows ordinal rows' = .ok result := by
  rw [orderedRows_eq_ok, orderedRows_eq_ok, ordered_congr hperm]

/-- The tokens of a kind, in their order. -/
def tokensInOrder (tokens : List TokenRow) (kind : String) : List TokenRow :=
  ranked TokenRow.ordinal (tokens.filter fun row ↦ row.tokenKind = kind)

/-- The tokens are put in order kind by kind. -/
theorem orderedTokens_eq_ok {tokens : List TokenRow} {fields : Dict} :
    orderedTokens tokens = .ok fields ↔
      (∀ kind ∈ tokenKinds,
        Numbered TokenRow.ordinal (tokens.filter fun row ↦ row.tokenKind = kind)) ∧
      fields = tokenKinds.map fun kind ↦
        (kind, .arr ((tokensInOrder tokens kind).map fun row ↦ .str row.tokenValue)) := by
  refine mapM_eq_ok_iff fun kind field ↦ ?_
  rw [bind_eq_ok]
  constructor
  · rintro ⟨rows, hrows, hfield⟩
    obtain ⟨hnumbered, rfl⟩ := ordered_eq_ok_iff_numbered.mp (orderedRows_eq_ok.mp hrows)
    exact ⟨hnumbered, (pure_eq_ok.mp hfield)⟩
  · rintro ⟨hnumbered, rfl⟩
    exact ⟨_, orderedRows_eq_ok.mpr (ordered_eq_ok_iff_numbered.mpr ⟨hnumbered, rfl⟩), rfl⟩

theorem orderedTokens_congr {tokens tokens' : List TokenRow} (hperm : tokens.Perm tokens')
    {fields : Dict} : orderedTokens tokens = .ok fields ↔ orderedTokens tokens' = .ok fields := by
  have hstep : ∀ (kind : String) (field : String × Json), (do
      let rows ← orderedRows TokenRow.ordinal (tokens.filter fun row ↦ row.tokenKind = kind)
      return (kind, Json.arr (rows.map fun row ↦ .str row.tokenValue))) = Except.ok field ↔
        (do
          let rows ← orderedRows TokenRow.ordinal (tokens'.filter fun row ↦ row.tokenKind = kind)
          return (kind, Json.arr (rows.map fun row ↦ .str row.tokenValue))) = Except.ok field := by
    intro kind field
    simp only [bind_eq_ok, orderedRows_congr (hperm.filter _)]
  rw [orderedTokens, orderedTokens, mapM_eq_ok, mapM_eq_ok]
  exact ⟨fun hall ↦ hall.imp fun kind field ↦ (hstep kind field).mp,
    fun hall ↦ hall.imp fun kind field ↦ (hstep kind field).mpr⟩

/-! ### The vector -/

/-- Vectors that can be compared: all have a time, or none has. -/
def Comparable (rows : List EmbeddingRow) : Prop :=
  ∀ first ∈ rows, ∀ second ∈ rows, first.createdAt.isSome = second.createdAt.isSome

theorem Comparable.congr {rows rows' : List EmbeddingRow} (hperm : rows.Perm rows') :
    Comparable rows ↔ Comparable rows' := by
  simp only [Comparable, hperm.mem_iff]

theorem latest_cons {row : EmbeddingRow} {rest : List EmbeddingRow}
    {selected : Option EmbeddingRow} : latest (row :: rest) = .ok selected ↔
      Comparable (row :: rest) ∧ selected = some (maxBy recency row rest) := by
  have hcheck : (rest.any fun other ↦ other.createdAt.isSome ≠ row.createdAt.isSome) = false ↔
      Comparable (row :: rest) := by
    rw [List.any_eq_false]
    constructor
    · intro hall
      have hsame : ∀ other ∈ row :: rest, other.createdAt.isSome = row.createdAt.isSome := by
        intro other hother
        rcases List.mem_cons.mp hother with rfl | hother
        · rfl
        · simpa using hall other hother
      exact fun first hfirst second hsecond ↦
        (hsame first hfirst).trans (hsame second hsecond).symm
    · intro hcomparable other hother
      simpa using hcomparable other (List.mem_cons_of_mem _ hother) row List.mem_cons_self
  rw [latest, raiseIf_bind_eq_ok, hcheck, pure_eq_ok]

theorem exists_latest_iff {rows : List EmbeddingRow} :
    (∃ selected, latest rows = .ok selected) ↔ Comparable rows := by
  cases rows with
  | nil => exact iff_of_true ⟨none, rfl⟩ (by simp [Comparable])
  | cons row rest => simp [latest_cons]

theorem latest_congr {rows rows' : List EmbeddingRow} (hkeys : (rows.map recency).Nodup)
    (hperm : rows.Perm rows') {selected : Option EmbeddingRow} :
    latest rows = .ok selected ↔ latest rows' = .ok selected := by
  cases rows with
  | nil => rw [hperm.symm.eq_nil]
  | cons row rest =>
    cases rows' with
    | nil => cases hperm.eq_nil
    | cons row' rest' =>
      rw [latest_cons, latest_cons, Comparable.congr hperm, maxBy_eq_of_perm hkeys hperm]

/-- The vectors to select from. -/
def candidates (embeddings : List EmbeddingRow) (model : Option Text) (dimension : Option ℤ) :
    List EmbeddingRow :=
  embeddings.filter fun row ↦
    row.active && model.all (row.model = ·) && dimension.all (row.dimension = ·)

theorem selectEmbedding_eq_ok_iff {embeddings : List EmbeddingRow} {model : Option Text}
    {dimension : Option ℤ} {selected : Option EmbeddingRow} :
    selectEmbedding embeddings model dimension = .ok selected ↔
      model.isSome = dimension.isSome ∧
        latest (candidates embeddings model dimension) = .ok selected := by
  cases model <;> cases dimension <;> simp [selectEmbedding, candidates]

/-! ### Complete rows -/

/-- The rows belong to the chunk, and the kinds of the tokens are known. -/
structure Owned (rows : SemanticChunkRows) : Prop where
  blockMeta : rows.blockMeta.chunkUuid = rows.root.id
  tokens : ∀ row ∈ rows.tokens, row.chunkUuid = rows.root.id
  tags : ∀ row ∈ rows.tags, row.chunkUuid = rows.root.id
  links : ∀ row ∈ rows.links, row.sourceChunkUuid = rows.root.id
  embeddings : ∀ row ∈ rows.embeddings, row.chunkUuid = rows.root.id
  kinds : ∀ row ∈ rows.tokens, row.tokenKind ∈ tokenKinds

/-- What the reader asks of the rows of a chunk. -/
structure Complete (rows : SemanticChunkRows) (model : Option Text) (dimension : Option ℤ) :
    Prop where
  owned : Owned rows
  tokens : ∀ kind ∈ tokenKinds,
    Numbered TokenRow.ordinal (rows.tokens.filter fun row ↦ row.tokenKind = kind)
  tags : Numbered TagRow.ordinal rows.tags
  links : Numbered LinkRow.ordinal rows.links
  feedback : rows.metrics.isSome = true → ∀ row ∈ rows.feedback, row.chunkUuid = rows.root.id
  request : model.isSome = dimension.isSome
  comparable : Comparable (candidates rows.embeddings model dimension)

/-- Rows in another order. -/
structure Reordered (rows' rows : SemanticChunkRows) : Prop where
  root : rows'.root = rows.root
  metrics : rows'.metrics = rows.metrics
  feedback : rows'.feedback = rows.feedback
  blockMeta : rows'.blockMeta = rows.blockMeta
  tokens : rows'.tokens.Perm rows.tokens
  tags : rows'.tags.Perm rows.tags
  links : rows'.links.Perm rows.links
  embeddings : rows'.embeddings.Perm rows.embeddings

variable {rows rows' : SemanticChunkRows} {model : Option Text} {dimension : Option ℤ}

/-- The rows are read when all checks and all parts succeed. -/
theorem fromRows_eq_ok {payload : Dict} : fromRows rows model dimension = .ok payload ↔
    Owned rows ∧ ∃ tokens tags links metrics selected, orderedTokens rows.tokens = .ok tokens ∧
      orderedRows TagRow.ordinal rows.tags = .ok tags ∧
      orderedRows LinkRow.ordinal rows.links = .ok links ∧
      metricsPayload rows rows.root.id tokens = .ok metrics ∧
      selectEmbedding rows.embeddings model dimension = .ok selected ∧
      payload = [metricFields metrics, linkField links "related" "link_related",
        linkField links "parent" "link_parent", embeddingFields selected].foldl updateKeys
          (rootFields rows.root
            (mergeBlockMeta rows.blockMeta.promoted rows.blockMeta.extensions) tags links) := by
  constructor
  · intro hread
    obtain ⟨hblockMeta, hread⟩ := raiseIf_bind_eq_ok.mp hread
    obtain ⟨_, htokenOwner, hread⟩ := bind_eq_ok.mp hread
    obtain ⟨_, htagOwner, hread⟩ := bind_eq_ok.mp hread
    obtain ⟨_, hlinkOwner, hread⟩ := bind_eq_ok.mp hread
    obtain ⟨_, hembeddingOwner, hread⟩ := bind_eq_ok.mp hread
    obtain ⟨_, hkinds, hread⟩ := bind_eq_ok.mp hread
    obtain ⟨tokens, htokens, hread⟩ := bind_eq_ok.mp hread
    obtain ⟨tags, htags, hread⟩ := bind_eq_ok.mp hread
    obtain ⟨links, hlinks, hread⟩ := bind_eq_ok.mp hread
    obtain ⟨metrics, hmetrics, hread⟩ := bind_eq_ok.mp hread
    obtain ⟨selected, hselected, hread⟩ := bind_eq_ok.mp hread
    refine ⟨⟨by simpa using hblockMeta, checkOwner_eq_ok.mp htokenOwner,
      checkOwner_eq_ok.mp htagOwner, checkOwner_eq_ok.mp hlinkOwner,
      checkOwner_eq_ok.mp hembeddingOwner, checkKinds_eq_ok.mp hkinds⟩, ?_⟩
    exact ⟨tokens, tags, links, metrics, selected, htokens, htags, hlinks, hmetrics, hselected,
      pure_eq_ok.mp hread⟩
  · rintro ⟨⟨hblockMeta, htokenOwner, htagOwner, hlinkOwner, hembeddingOwner, hkinds⟩,
      tokens, tags, links, metrics, selected, htokens, htags, hlinks, hmetrics, hselected, rfl⟩
    refine raiseIf_bind_eq_ok.mpr ⟨by simpa using hblockMeta, ?_⟩
    refine bind_eq_ok.mpr ⟨(), checkOwner_eq_ok.mpr htokenOwner, ?_⟩
    refine bind_eq_ok.mpr ⟨(), checkOwner_eq_ok.mpr htagOwner, ?_⟩
    refine bind_eq_ok.mpr ⟨(), checkOwner_eq_ok.mpr hlinkOwner, ?_⟩
    refine bind_eq_ok.mpr ⟨(), checkOwner_eq_ok.mpr hembeddingOwner, ?_⟩
    refine bind_eq_ok.mpr ⟨(), checkKinds_eq_ok.mpr hkinds, ?_⟩
    refine bind_eq_ok.mpr ⟨tokens, htokens, bind_eq_ok.mpr ⟨tags, htags, ?_⟩⟩
    refine bind_eq_ok.mpr ⟨links, hlinks, bind_eq_ok.mpr ⟨metrics, hmetrics, ?_⟩⟩
    exact bind_eq_ok.mpr ⟨selected, hselected, rfl⟩

/-- The metrics are read when the feedback belongs to the chunk. -/
theorem exists_metricsPayload_iff {chunkId : Uuid} {tokens : Dict} :
    (∃ metrics, metricsPayload rows chunkId tokens = .ok metrics) ↔
      (rows.metrics.isSome = true → ∀ row ∈ rows.feedback, row.chunkUuid = chunkId) := by
  rw [metricsPayload]
  cases rows.metrics with
  | none => simp
  | some metrics =>
    cases rows.feedback with
    | none => simp
    | some feedback => simp [raiseIf_bind_eq_ok, pure, Except.pure]

/-- Complete rows are those that can be read. -/
theorem complete_iff_exists : Complete rows model dimension ↔
    ∃ payload, fromRows rows model dimension = .ok payload := by
  constructor
  · intro hcomplete
    have htokens := orderedTokens_eq_ok.mpr ⟨hcomplete.tokens, rfl⟩
    have htags := orderedRows_eq_ok.mpr (ordered_eq_ok_iff_numbered.mpr ⟨hcomplete.tags, rfl⟩)
    have hlinks := orderedRows_eq_ok.mpr (ordered_eq_ok_iff_numbered.mpr ⟨hcomplete.links, rfl⟩)
    obtain ⟨metrics, hmetrics⟩ := exists_metricsPayload_iff.mpr hcomplete.feedback
    obtain ⟨selected, hselected⟩ := exists_latest_iff.mpr hcomplete.comparable
    exact ⟨_, fromRows_eq_ok.mpr ⟨hcomplete.owned, _, _, _, metrics, selected, htokens, htags,
      hlinks, hmetrics, selectEmbedding_eq_ok_iff.mpr ⟨hcomplete.request, hselected⟩, rfl⟩⟩
  · rintro ⟨payload, hread⟩
    obtain ⟨howned, tokens, tags, links, metrics, selected, htokens, htags, hlinks, hmetrics,
      hselected, -⟩ := fromRows_eq_ok.mp hread
    obtain ⟨hrequest, hlatest⟩ := selectEmbedding_eq_ok_iff.mp hselected
    exact {
      owned := howned
      tokens := (orderedTokens_eq_ok.mp htokens).1
      tags := (ordered_eq_ok_iff_numbered.mp (orderedRows_eq_ok.mp htags)).1
      links := (ordered_eq_ok_iff_numbered.mp (orderedRows_eq_ok.mp hlinks)).1
      feedback := exists_metricsPayload_iff.mp ⟨metrics, hmetrics⟩
      request := hrequest
      comparable := exists_latest_iff.mp ⟨selected, hlatest⟩ }

theorem Owned.of_reordered (howned : Owned rows) (hrows : Reordered rows' rows) : Owned rows' where
  blockMeta := by rw [hrows.blockMeta, hrows.root, howned.blockMeta]
  tokens row hrow := by rw [hrows.root, howned.tokens row (hrows.tokens.mem_iff.mp hrow)]
  tags row hrow := by rw [hrows.root, howned.tags row (hrows.tags.mem_iff.mp hrow)]
  links row hrow := by rw [hrows.root, howned.links row (hrows.links.mem_iff.mp hrow)]
  embeddings row hrow := by
    rw [hrows.root, howned.embeddings row (hrows.embeddings.mem_iff.mp hrow)]
  kinds row hrow := howned.kinds row (hrows.tokens.mem_iff.mp hrow)

/-- What is read does not depend on the order of the rows. -/
theorem fromRows_of_reordered {payload : Dict} (hids : (rows.embeddings.map recency).Nodup)
    (hrows : Reordered rows' rows) (hread : fromRows rows model dimension = .ok payload) :
    fromRows rows' model dimension = .ok payload := by
  obtain ⟨howned, tokens, tags, links, metrics, selected, htokens, htags, hlinks, hmetrics,
    hselected, rfl⟩ := fromRows_eq_ok.mp hread
  obtain ⟨hrequest, hlatest⟩ := selectEmbedding_eq_ok_iff.mp hselected
  have hcandidates : ((candidates rows.embeddings model dimension).map recency).Nodup :=
    (List.filter_sublist.map recency).nodup hids
  have hlatest' : latest (candidates rows'.embeddings model dimension) = .ok selected :=
    (latest_congr hcandidates (hrows.embeddings.filter _).symm).mp hlatest
  have hmetrics' : metricsPayload rows' rows'.root.id tokens = .ok metrics := by
    rw [← hmetrics, metricsPayload, metricsPayload, hrows.root, hrows.metrics, hrows.feedback]
  refine fromRows_eq_ok.mpr ⟨howned.of_reordered hrows, tokens, tags, links, metrics, selected,
    (orderedTokens_congr hrows.tokens).mpr htokens, (orderedRows_congr hrows.tags).mpr htags,
    (orderedRows_congr hrows.links).mpr hlinks, hmetrics',
    selectEmbedding_eq_ok_iff.mpr ⟨hrequest, hlatest'⟩, ?_⟩
  rw [hrows.root, hrows.blockMeta]

/-- **Rows are read** if and only if they are complete, and then every order of them is read as the
same payload. -/
theorem complete_iff_exists_payload (hids : (rows.embeddings.map recency).Nodup) :
    Complete rows model dimension ↔
      ∃ payload, ∀ rows', Reordered rows' rows → fromRows rows' model dimension = .ok payload := by
  constructor
  · intro hcomplete
    obtain ⟨payload, hread⟩ := complete_iff_exists.mp hcomplete
    exact ⟨payload, fun rows' hrows ↦ fromRows_of_reordered hids hrows hread⟩
  · rintro ⟨payload, hread⟩
    exact complete_iff_exists.mpr ⟨payload, hread rows
      ⟨rfl, rfl, rfl, rfl, .refl _, .refl _, .refl _, .refl _⟩⟩

/-- The metrics of a chunk. -/
def sampleMetrics : Dict :=
  [("quality_score", .null), ("coverage", .num 1), ("cohesion", .null), ("boundary_prev", .null),
    ("boundary_next", .null), ("matches", .null), ("used_in_generation", .null),
    ("used_as_input", .null), ("used_as_context", .null)]

/-- The rows of a chunk with two tokens, two tags, two links and a vector. -/
def sampleRows : SemanticChunkRows where
  root := {
    id := 1
    documentId := 2
    paragraphId := 3
    chapterId := 5
    orderIndex := 4
    text := lit "a cat"
    sourceStart := 10
    sourceEnd := 15
    charCount := 5
    chunkType := .null
    score := .null
    searchWeight := 1
    blockMeta := [("markup", .str (lit "md")), ("chapter_id", .str (uuidText 5))] }
  metrics := some ⟨1, sampleMetrics⟩
  feedback := some ⟨1, [("accepted", .num 2), ("rejected", .null), ("modifications", .null)]⟩
  tokens := [⟨1, "tokens", 0, lit "a"⟩, ⟨1, "tokens", 1, lit "cat"⟩]
  tags := [⟨1, 0, lit "animal"⟩, ⟨1, 1, lit "pet"⟩]
  links := [⟨1, lit "related", 6, 0, []⟩, ⟨1, lit "parent", 7, 1, []⟩]
  embeddings := [{
    chunkUuid := 1
    vector := [1, 0]
    model := lit "m"
    dimension := 2
    provider := []
    modelVersion := []
    createdAt := none
    active := true }]
  blockMeta := ⟨1, [("markup", .str (lit "md"))], [("chapter_id", .str (uuidText 5))]⟩

theorem complete_iff_exists_payload_sample : Complete sampleRows none none ↔ ∃ payload, ∀ rows',
    Reordered rows' sampleRows → fromRows rows' none none = .ok payload :=
  complete_iff_exists_payload (List.nodup_singleton _)

end DocStore.SemanticChunkMapper
