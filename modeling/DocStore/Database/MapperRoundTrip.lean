import DocStore.Database.MapperAcceptance
import DocStore.Database.MapperContent

/-!
# The round trip of the mapper

The rows of a chunk may come back in any order, and a vector has got a UUID and a time meanwhile.
They are read as the payload of what they say (`Content.fromRows_of_restored`), and this payload is
stored as the same rows again, except for what the root row loses (`Content.toRows_payload`).
-/

set_option autoImplicit false
set_option relaxedAutoImplicit false

namespace DocStore.SemanticChunkMapper

open Foundation

variable {host : Host} {numerals : Numerals} {arguments : EmbeddingArguments}

/-! ### Reading the rows -/

/-- A vector as the mapper wrote it, without what the table added. -/
def EmbeddingRow.written (row : EmbeddingRow) : EmbeddingRow :=
  { row with id := none, createdAt := none }

/-- Rows as they come back: the children in any order, and the vectors with UUIDs and times. -/
structure Restored (stored written : SemanticChunkRows) : Prop where
  reordered : Reordered { stored with embeddings := written.embeddings } written
  embeddings : stored.embeddings.map EmbeddingRow.written =
    written.embeddings.map EmbeddingRow.written

/-- A request that asks for no vector in particular, or for the one that is there. -/
def Requests (rows : SemanticChunkRows) (model : Option Text) (dimension : Option ℤ) : Prop :=
  model = none ∧ dimension = none ∨ model.isSome = true ∧ dimension.isSome = true ∧
    ∀ row ∈ rows.embeddings, model = some row.model ∧ dimension = some row.dimension

namespace Content

variable {content : Content}

theorem mem_tokenRows {row : TokenRow} (hrow : row ∈ content.tokenRows) :
    row.chunkUuid = content.root.id ∧ row.tokenKind ∈ tokenKinds := by
  obtain ⟨kind, hkind, hrow⟩ := List.mem_flatMap.mp hrow
  obtain ⟨_, _, rfl⟩ := exists_of_mem_enumerate hrow
  exact ⟨rfl, hkind⟩

/-- The tokens are restored kind by kind. -/
theorem orderedTokens_of_perm {tokens : List TokenRow} (hperm : tokens.Perm content.tokenRows) :
    orderedTokens tokens = .ok content.tokenFields := by
  have hkinds : tokenKinds.Nodup := by decide
  refine mapM_eq_ok.mpr (List.forall₂_map_right_iff.mpr (List.forall₂_same.mpr ?_))
  intro kind hkind
  have hfiber : fiber TokenRow.tokenKind content.tokenRows kind =
      enumerate (TokenRow.mk content.root.id kind) (content.tokens kind) := by
    refine fiber_flatMap hkinds (fun of _ row hrow ↦ ?_) hkind
    obtain ⟨_, _, rfl⟩ := exists_of_mem_enumerate hrow
    rfl
  have hrows : orderedRows TokenRow.ordinal (tokens.filter fun row ↦ row.tokenKind = kind) =
      .ok (enumerate (TokenRow.mk content.root.id kind) (content.tokens kind)) := by
    refine orderedRows_eq_ok.mpr (ordered_of_perm (fun _ _ ↦ rfl) ?_)
    exact hfiber ▸ hperm.filter _
  have htexts : (enumerate (TokenRow.mk content.root.id kind) (content.tokens kind)).map
      (fun row ↦ Json.str row.tokenValue) = (content.tokens kind).map .str :=
    map_enumerate fun _ _ ↦ rfl
  simp only [hrows, ok_bind, htexts]
  rfl

theorem map_fst_tokenFields : content.tokenFields.map Prod.fst = tokenKinds := by
  rw [tokenFields, List.map_map]
  exact List.map_id tokenKinds

/-- The metrics are put together with the feedback and the tokens. -/
theorem metricsPayload_eq_ok (hvalid : content.Valid host) {stored : SemanticChunkRows}
    (hmetrics : stored.metrics = content.metrics.map (MetricsRow.mk content.root.id))
    (hfeedback : stored.feedback = content.feedback.map (FeedbackRow.mk content.root.id)) :
    SemanticChunkMapper.metricsPayload stored content.root.id content.tokenFields =
      .ok content.metricsPayload := by
  have htokens := @map_fst_tokenFields content
  have hkinds : tokenKinds.Nodup := by decide
  rw [SemanticChunkMapper.metricsPayload, hmetrics, hfeedback, metricsPayload, feedbackFields]
  cases hcolumns : content.metrics with
  | none => rfl
  | some columns =>
    have hkeys := hvalid.metrics columns hcolumns
    have hnew : ∀ key ∉ metricKeys, getKey columns key = none := by
      intro key hkey
      refine getKey_eq_none.mpr fun entry hentry heq ↦ hkey ?_
      exact hkeys ▸ heq ▸ List.mem_map_of_mem hentry
    have hapart : ∀ kind ∈ tokenKinds, kind ∉ metricKeys ∧ kind ≠ "feedback" := by decide
    cases hgiven : content.feedback with
    | none =>
      simp only [Option.map_some, Option.map_none, Option.toList_none, List.map_nil,
        List.append_nil]
      refine congrArg (Except.ok ∘ some) (updateKeys_eq_append (htokens ▸ hkinds) ?_)
      intro entry hentry
      exact hnew _ (hapart _ (htokens ▸ List.mem_map_of_mem hentry)).1
    | some given =>
      have hfeedback : setKey columns "feedback" (.obj given) =
          columns ++ [("feedback", .obj given)] :=
        setKey_of_getKey_eq_none _ (hnew _ (by decide))
      simp only [Option.map_some, Option.toList_some, List.map_cons, List.map_nil, ne_eq,
        not_true_eq_false, decide_false, hfeedback]
      refine congrArg (Except.ok ∘ some) (updateKeys_eq_append (htokens ▸ hkinds) ?_)
      intro entry hentry
      obtain ⟨hkey, hne⟩ := hapart _ (htokens ▸ List.mem_map_of_mem hentry)
      rw [getKey_append, hnew _ hkey, Option.none_or, getKey, if_neg hne.symm]
      rfl

/-- The vector is selected, whether or not it is asked for by its model and its dimension. -/
theorem selectEmbedding_eq_ok {embeddings : List EmbeddingRow} {model : Option Text}
    {dimension : Option ℤ} (hactive : arguments.active = true)
    (hembeddings : embeddings.map EmbeddingRow.written =
      (content.embeddingRows arguments).map EmbeddingRow.written)
    (hrequest : Requests (content.rows arguments) model dimension) :
    ∃ selected, selectEmbedding embeddings model dimension = .ok selected ∧
      embeddingFields selected = embeddingFields (content.embeddingRows {}).head? := by
  cases hembedding : content.embedding with
  | none =>
    have hnil : embeddings = [] := by
      rw [embeddingRows, hembedding] at hembeddings
      simpa using hembeddings
    subst hnil
    refine ⟨none, ?_, by rw [embeddingRows, hembedding]; rfl⟩
    rcases hrequest with ⟨rfl, rfl⟩ | ⟨hmodel, hdimension, -⟩
    · rfl
    · obtain ⟨_, rfl⟩ := Option.isSome_iff_exists.mp hmodel
      obtain ⟨_, rfl⟩ := Option.isSome_iff_exists.mp hdimension
      rfl
  | some found =>
    have hrows : content.embeddingRows arguments = [{
        chunkUuid := content.root.id
        vector := found.1
        model := found.2
        dimension := found.1.length
        provider := arguments.provider
        modelVersion := arguments.modelVersion
        createdAt := arguments.createdAt
        active := arguments.active }] := by
      rw [embeddingRows, hembedding]
      rfl
    rw [hrows] at hembeddings
    obtain ⟨row, rfl, hrow⟩ := List.map_eq_singleton_iff.mp hembeddings
    have hvector : row.vector = found.1 := congrArg EmbeddingRow.vector hrow
    have hmodel : row.model = found.2 := congrArg EmbeddingRow.model hrow
    have hdimension : row.dimension = found.1.length := congrArg EmbeddingRow.dimension hrow
    have hrowActive : row.active = true := (congrArg EmbeddingRow.active hrow).trans hactive
    refine ⟨some row, ?_, ?_⟩
    · rcases hrequest with ⟨rfl, rfl⟩ | ⟨-, -, hasked⟩
      · simp [selectEmbedding, hrowActive, latest, raiseIf, bind, Except.bind, pure, Except.pure]
      · obtain ⟨rfl, rfl⟩ := hasked _ (hrows ▸ List.mem_singleton.mpr rfl)
        simp [selectEmbedding, hrowActive, hmodel, hdimension, latest, raiseIf, bind, Except.bind,
          pure, Except.pure]
    · rw [embeddingRows, hembedding, embeddingFields, hvector, hmodel]
      rfl

/-! ### The payload that is read -/

/-- The keys of the root fields. -/
def rootKeys : List String :=
  ["uuid", "source_id", "block_id", "type", "body", "text", "ordinal", "start", "end", "block_meta",
    "tags", "tags_flat", "links"]

/-- The keys behind the root fields. -/
def furtherKeys : List String :=
  "metrics" :: metricAliasFields ++ feedbackAliases.map Prod.snd ++ ["link_related"] ++
    ["link_parent"] ++ ["embedding", "embedding_model"]

theorem map_fst_metricFields_sublist (metrics : Option Dict) :
    ((metricFields metrics).map Prod.fst).Sublist
      ("metrics" :: metricAliasFields ++ feedbackAliases.map Prod.snd) := by
  cases metrics with
  | none => exact List.nil_sublist _
  | some metrics =>
    simp only [metricFields, List.map_append, List.map_cons, List.map_map]
    refine List.Sublist.append ?_ ?_
    · exact (List.map_id metricAliasFields).symm ▸ List.Sublist.refl _
    · split
      · exact List.map_map ▸ List.Sublist.refl _
      · exact List.nil_sublist _

theorem map_fst_linkField_sublist (links : List LinkRow) (relation name : String) :
    ((linkField links relation name).map Prod.fst).Sublist [name] := by
  rw [linkField]
  split
  · exact List.Sublist.refl _
  · exact List.nil_sublist _

theorem map_fst_embeddingFields_sublist (selected : Option EmbeddingRow) :
    ((embeddingFields selected).map Prod.fst).Sublist ["embedding", "embedding_model"] := by
  cases selected with
  | none => exact List.nil_sublist _
  | some row => exact List.Sublist.refl _

theorem map_fst_furtherFields_sublist :
    (content.furtherFields.flatten.map Prod.fst).Sublist furtherKeys := by
  simp only [furtherFields, List.flatten_cons, List.flatten_nil, List.append_nil, List.map_append,
    ← List.append_assoc]
  refine List.Sublist.append (List.Sublist.append (List.Sublist.append ?_ ?_) ?_) ?_
  · exact map_fst_metricFields_sublist _
  · exact map_fst_linkField_sublist _ _ _
  · exact map_fst_linkField_sublist _ _ _
  · exact map_fst_embeddingFields_sublist _

/-- No key of the payload is there twice. -/
theorem nodup_payload : (content.payload.map Prod.fst).Nodup := by
  have hkeys : (rootKeys ++ furtherKeys).Nodup := by decide
  rw [payload, List.map_append]
  exact (List.Sublist.append (List.Sublist.refl rootKeys) map_fst_furtherFields_sublist).nodup hkeys

/-- The rows of a content are its own. -/
theorem owned_rows : Owned (content.rows arguments) where
  blockMeta := rfl
  tokens _ hrow := (mem_tokenRows hrow).1
  tags row hrow := by
    have hmem : row ∈ content.tagRows := hrow
    obtain ⟨_, _, rfl⟩ := exists_of_mem_enumerate hmem
    rfl
  links row hrow := by
    have hmem : row ∈ content.linkRows := hrow
    obtain ⟨_, _, rfl⟩ := exists_of_mem_enumerate hmem
    rfl
  embeddings row hrow := by
    obtain ⟨_, -, rfl⟩ := List.mem_map.mp hrow
    rfl
  kinds _ hrow := (mem_tokenRows hrow).2

/-- The rows that come back belong to the chunk as well. -/
theorem owned_of_restored {stored : SemanticChunkRows}
    (hstored : Restored stored (content.rows arguments)) : Owned stored := by
  have howned := owned_rows.of_reordered hstored.reordered
  refine { howned with embeddings := fun row hrow ↦ ?_ }
  have hwritten := hstored.embeddings ▸ List.mem_map_of_mem (f := EmbeddingRow.written) hrow
  obtain ⟨other, hother, hsame⟩ := List.mem_map.mp hwritten
  have hroot : stored.root = content.root := hstored.reordered.root
  exact (congrArg EmbeddingRow.chunkUuid hsame).symm.trans
    ((owned_rows.embeddings other hother).trans (congrArg RootRow.id hroot.symm))

/-- **The rows are read**, in whatever order they come back. -/
theorem fromRows_of_restored (hvalid : content.Valid host) {stored : SemanticChunkRows}
    {model : Option Text} {dimension : Option ℤ} (hactive : arguments.active = true)
    (hstored : Restored stored (content.rows arguments))
    (hrequest : Requests (content.rows arguments) model dimension) :
    fromRows stored model dimension = .ok content.payload := by
  have hroot : stored.root = content.root := hstored.reordered.root
  have hblockMeta : stored.blockMeta = ⟨content.root.id, promotedMeta content.root.blockMeta,
    extensionMeta content.root.blockMeta⟩ := hstored.reordered.blockMeta
  have htags : orderedRows TagRow.ordinal stored.tags = .ok content.tagRows :=
    orderedRows_eq_ok.mpr (ordered_of_perm (fun _ _ ↦ rfl) hstored.reordered.tags)
  have hlinks : orderedRows LinkRow.ordinal stored.links = .ok content.linkRows :=
    orderedRows_eq_ok.mpr (ordered_of_perm (fun _ _ ↦ rfl) hstored.reordered.links)
  have hmetrics : SemanticChunkMapper.metricsPayload stored stored.root.id content.tokenFields =
      .ok content.metricsPayload := by
    rw [hroot]
    exact metricsPayload_eq_ok hvalid hstored.reordered.metrics hstored.reordered.feedback
  obtain ⟨selected, hselected, hfields⟩ :=
    selectEmbedding_eq_ok hactive hstored.embeddings hrequest
  refine fromRows_eq_ok.mpr ⟨owned_of_restored hstored, content.tokenFields, content.tagRows,
    content.linkRows, content.metricsPayload, selected,
    orderedTokens_of_perm hstored.reordered.tokens, htags, hlinks, hmetrics, hselected, ?_⟩
  rw [hfields, hroot, hblockMeta]
  exact (foldl_updateKeys_eq_append nodup_payload).symm

/-! ### Storing the payload again -/

/-- The root row of the payload that is read. -/
def reread (root : RootRow) : RootRow :=
  { root with
    chunkType := orElse root.chunkType (.str (lit "DocBlock"))
    score := .null
    blockMeta := mergeBlockMeta (promotedMeta root.blockMeta) (extensionMeta root.blockMeta) }

theorem getKey_further_of_not_mem {key : String} (hkey : key ∉ furtherKeys) :
    getKey content.furtherFields.flatten key = none := by
  refine getKey_eq_none.mpr fun entry hentry heq ↦ hkey ?_
  exact heq ▸ map_fst_furtherFields_sublist.subset (List.mem_map_of_mem hentry)

theorem getKey_payload (key : String) : getKey content.payload key =
    (getKey (rootFields content.root content.blockMeta content.tagRows content.linkRows) key).or
      (getKey content.furtherFields.flatten key) :=
  getKey_append _ _ key

theorem rootRow_payload (hvalid : content.Valid host) :
    rootRow host numerals content.payload = .ok (reread content.root) := by
  have huuid : item content.payload "uuid" = .ok (.str (uuidText content.root.id)) := rfl
  have hsource : item content.payload "source_id" = .ok (.str (uuidText content.root.documentId)) :=
    rfl
  have hblock : item content.payload "block_id" = .ok (.str (uuidText content.root.paragraphId)) :=
    rfl
  have hbody : item content.payload "body" = .ok (.str content.root.text) := rfl
  have hordinal : getKey content.payload "ordinal" = some (.num content.root.orderIndex) := rfl
  have hstart : field content.payload "start" = .num content.root.sourceStart := rfl
  have hend : field content.payload "end" = .num content.root.sourceEnd := rfl
  have htype : field content.payload "type" =
      orElse content.root.chunkType (.str (lit "DocBlock")) := rfl
  have hscore : field content.payload "score" = .null := by
    rw [field, getKey_payload, getKey_further_of_not_mem (by decide)]
    rfl
  have hblockMeta : blockMetaOf content.payload = .ok content.blockMeta := by
    have hfield : field content.payload "block_meta" = .obj content.blockMeta := rfl
    rw [blockMetaOf, hfield, orElse_obj]
  have hchapter : chapterOf content.blockMeta = chapterOf content.root.blockMeta :=
    chapterOf_congr (getKey_mergeBlockMeta content.root.blockMeta)
  simp only [rootRow, huuid, hsource, hblock, hbody, hordinal, hstart, hend, htype, hscore,
    hblockMeta, hchapter, hvalid.chapter, ok_bind, uuidField_uuidText, Option.getD_some,
    toInt_intCast, toInt_orElse_zero, hvalid.named, decide_false, raiseIf, Host.strOf]
  rw [reread, hvalid.charCount, hvalid.searchWeight]
  rfl

theorem getKey_of_sublist {fields : Dict} {keys : List String} {key : String}
    (hsublist : (fields.map Prod.fst).Sublist keys) (hkey : key ∉ keys) :
    getKey fields key = none :=
  getKey_eq_none.mpr fun _ hentry heq ↦
    hkey (hsublist.subset (heq ▸ List.mem_map_of_mem hentry))

/-- The keys of the metrics among those of the payload. -/
theorem getKey_payload_metrics {key : String}
    (hkey : key ∈ "metrics" :: metricAliasFields ++ feedbackAliases.map Prod.snd) :
    getKey content.payload key = getKey (metricFields content.metricsPayload) key := by
  have hapart : ∀ key ∈ "metrics" :: metricAliasFields ++ feedbackAliases.map Prod.snd,
      key ∉ rootKeys ∧ key ∉ ["link_related"] ∧ key ∉ ["link_parent"] ∧
        key ∉ ["embedding", "embedding_model"] := by decide
  obtain ⟨hroot, hrelated, hparent, hembedding⟩ := hapart key hkey
  have hbase : getKey (rootFields content.root content.blockMeta content.tagRows content.linkRows)
      key = none := getKey_of_sublist (List.Sublist.refl rootKeys) hroot
  rw [getKey_payload, hbase, Option.none_or, furtherFields]
  simp only [List.flatten_cons, List.flatten_nil, List.append_nil, getKey_append,
    getKey_of_sublist (map_fst_linkField_sublist _ _ _) hrelated,
    getKey_of_sublist (map_fst_linkField_sublist _ _ _) hparent,
    getKey_of_sublist (map_fst_embeddingFields_sublist _) hembedding, Option.or_none]

/-- The keys of the vector among those of the payload. -/
theorem getKey_payload_embedding {key : String} (hkey : key ∈ ["embedding", "embedding_model"]) :
    getKey content.payload key =
      getKey (embeddingFields (content.embeddingRows {}).head?) key := by
  have hapart : ∀ key ∈ ["embedding", "embedding_model"], key ∉ rootKeys ∧
      key ∉ ["link_related"] ∧ key ∉ ["link_parent"] ∧
        key ∉ "metrics" :: metricAliasFields ++ feedbackAliases.map Prod.snd := by decide
  obtain ⟨hroot, hrelated, hparent, hmetrics⟩ := hapart key hkey
  have hbase : getKey (rootFields content.root content.blockMeta content.tagRows content.linkRows)
      key = none := getKey_of_sublist (List.Sublist.refl rootKeys) hroot
  rw [getKey_payload, hbase, Option.none_or, furtherFields]
  simp only [List.flatten_cons, List.flatten_nil, List.append_nil, getKey_append,
    getKey_of_sublist (map_fst_linkField_sublist _ _ _) hrelated,
    getKey_of_sublist (map_fst_linkField_sublist _ _ _) hparent,
    getKey_of_sublist (map_fst_metricFields_sublist _) hmetrics, Option.none_or]

/-- A dict with the columns of a table consists of these columns. -/
theorem columnsOf_self {keys : List String} {columns : Dict} (hnodup : keys.Nodup)
    (hkeys : columns.map Prod.fst = keys) : columnsOf keys columns = columns := by
  subst hkeys
  rw [columnsOf, List.map_map]
  refine (List.map_congr_left fun entry hentry ↦ ?_).trans (List.map_id columns)
  have hfound : getKey columns entry.1 = some entry.2 := (getKey_eq_some hnodup).mpr hentry
  rw [Function.comp_apply, field_of_getKey hfound]
  rfl

theorem columnsOf_congr {keys : List String} {values others : Dict}
    (hsame : ∀ key ∈ keys, getKey values key = getKey others key) :
    columnsOf keys values = columnsOf keys others :=
  List.map_congr_left fun key hkey ↦ by rw [field, field, hsame key hkey]

theorem forM_eq_ok {ε α : Type} {check : α → Except ε Unit} {entries : List α}
    (hall : ∀ entry ∈ entries, check entry = .ok ()) : entries.forM check = .ok () := by
  induction entries with
  | nil => rfl
  | cons entry rest ih =>
    obtain ⟨hentry, hrest⟩ := List.forall_mem_cons.mp hall
    show (check entry >>= fun _ ↦ rest.forM check) = .ok ()
    rw [hentry, ok_bind]
    exact ih hrest

/-- An alias that says the same is accepted. -/
theorem assertMatchingAlias_self {payload : Dict} {key : String} {value : Json}
    (hfield : field payload key = value) (hsame : value.same value = true) :
    assertMatchingAlias payload key value = .ok () := by
  rw [assertMatchingAlias, hfield, hsame]
  simp [raiseIf]

section Metrics

variable {columns : Dict}

/-- Where the columns of the metrics are read. -/
theorem getKey_metricsPayload (hkeys : columns.map Prod.fst = metricKeys) {key : String}
    (hkey : key ∈ metricKeys) :
    getKey (columns ++ content.feedbackFields ++ content.tokenFields) key = getKey columns key := by
  obtain ⟨entry, hentry, rfl⟩ := List.mem_map.mp (hkeys ▸ hkey)
  have hnodup : (columns.map Prod.fst).Nodup := hkeys ▸ (by decide : metricKeys.Nodup)
  have hfound : getKey columns entry.1 = some entry.2 := (getKey_eq_some hnodup).mpr hentry
  rw [getKey_append, getKey_append, hfound]
  rfl

/-- Where the feedback is read. -/
theorem field_metricsPayload_feedback (hkeys : columns.map Prod.fst = metricKeys) :
    field (columns ++ content.feedbackFields ++ content.tokenFields) "feedback" =
      (content.feedback.map Json.obj).getD .null := by
  have hcolumns : getKey columns "feedback" = none :=
    getKey_of_sublist (List.Sublist.refl _) (hkeys ▸ (by decide : "feedback" ∉ metricKeys))
  have htokens : getKey content.tokenFields "feedback" = none :=
    getKey_of_sublist (List.Sublist.refl _)
      (map_fst_tokenFields ▸ (by decide : "feedback" ∉ tokenKinds))
  rw [field, getKey_append, getKey_append, hcolumns, htokens, Option.none_or, Option.or_none,
    feedbackFields]
  cases content.feedback with
  | none => rfl
  | some given => rfl

/-- Where the tokens are read. -/
theorem field_metricsPayload_tokens (hkeys : columns.map Prod.fst = metricKeys) {kind : String}
    (hkind : kind ∈ tokenKinds) :
    field (columns ++ content.feedbackFields ++ content.tokenFields) kind =
      .arr ((content.tokens kind).map .str) := by
  have hapart : ∀ kind ∈ tokenKinds, kind ∉ metricKeys ∧ kind ∉ ["feedback"] := by decide
  obtain ⟨hmetric, hfeedback⟩ := hapart kind hkind
  have hcolumns : getKey columns kind = none :=
    getKey_of_sublist (List.Sublist.refl _) (hkeys ▸ hmetric)
  have hgiven : getKey content.feedbackFields kind = none := by
    refine getKey_of_sublist ?_ hfeedback
    rw [feedbackFields]
    cases content.feedback with
    | none => exact List.nil_sublist _
    | some given => exact List.Sublist.refl _
  rw [field, getKey_append, getKey_append, hcolumns, hgiven, Option.none_or, Option.none_or,
    tokenFields, getKey_map_of_mem _ hkind]
  rfl

variable (hcolumns : content.metrics = some columns)

include hcolumns

/-- What a key of the metrics has in the payload. -/
theorem field_payload_metrics {key : String}
    (hkey : key ∈ "metrics" :: metricAliasFields ++ feedbackAliases.map Prod.snd) :
    field content.payload key = field (metricFields
      (some (columns ++ content.feedbackFields ++ content.tokenFields))) key := by
  have hread : content.metricsPayload =
      some (columns ++ content.feedbackFields ++ content.tokenFields) := by
    rw [metricsPayload, hcolumns]
    rfl
  rw [field, field, getKey_payload_metrics hkey, hread]

/-- The feedback is stored as it was. -/
theorem feedbackRow_payload (hvalid : content.Valid host) :
    feedbackRow content.root.id content.payload
      (columns ++ content.feedbackFields ++ content.tokenFields) =
        .ok (content.feedback.map (FeedbackRow.mk content.root.id)) := by
  have hfeedback := @field_metricsPayload_feedback content _ (hvalid.metrics columns hcolumns)
  rw [feedbackRow, hfeedback]
  cases hgiven : content.feedback with
  | none => rfl
  | some given =>
    rw [hgiven] at hfeedback
    have hkeys : (feedbackAliases.map Prod.fst).Nodup := by decide
    have halias : ∀ entry ∈ feedbackAliases,
        field content.payload entry.2 = field given entry.1 := by
      intro entry hentry
      have hamong := List.mem_append_right ("metrics" :: metricAliasFields)
        (List.mem_map_of_mem (f := Prod.snd) hentry)
      rw [field_payload_metrics hcolumns hamong, metricFields, hfeedback]
      simp only [feedbackAliases, List.mem_cons, List.not_mem_nil, or_false] at hentry
      rcases hentry with rfl | rfl | rfl <;> rfl
    have hchecks : (feedbackAliases.forM fun entry ↦ assertMatchingAlias content.payload entry.2
        (field given entry.1)) = .ok () :=
      forM_eq_ok fun entry hentry ↦
        assertMatchingAlias_self (halias entry hentry) (hvalid.feedbackSame given hgiven entry.1)
    simp only [Option.map_some, Option.getD_some, asMapping, hchecks, ok_bind]
    rw [columnsOf_self hkeys (hvalid.feedback given hgiven)]
    rfl

end Metrics

/-- The metrics and the feedback are stored as they were. -/
theorem metricRows_payload (hvalid : content.Valid host) :
    metricRows content.root.id content.payload =
      .ok (content.metrics.map (MetricsRow.mk content.root.id),
        content.feedback.map (FeedbackRow.mk content.root.id)) := by
  cases hcolumns : content.metrics with
  | none =>
    have hnull : field content.payload "metrics" = .null := by
      rw [field, getKey_payload_metrics (by decide), metricsPayload, hcolumns]
      rfl
    rw [metricRows, hnull, (hvalid.measured hcolumns).1]
    rfl
  | some columns =>
    have hkeys := hvalid.metrics columns hcolumns
    have hnodup : metricKeys.Nodup := by decide
    have hmetrics : field content.payload "metrics" =
        .obj (columns ++ content.feedbackFields ++ content.tokenFields) :=
      field_payload_metrics hcolumns (by decide)
    have hchecks : (metricAliasFields.forM fun key ↦ assertMatchingAlias content.payload key
        (field (columns ++ content.feedbackFields ++ content.tokenFields) key)) = .ok () := by
      have hmetric : ∀ key ∈ metricAliasFields, key ∈ metricKeys ∧ "metrics" ≠ key ∧
          key ∈ "metrics" :: metricAliasFields ++ feedbackAliases.map Prod.snd := by decide
      refine forM_eq_ok fun key hkey ↦ ?_
      obtain ⟨hcolumn, hne, hamong⟩ := hmetric key hkey
      refine assertMatchingAlias_self ?_ ?_
      · rw [field_payload_metrics hcolumns hamong, metricFields, field, List.cons_append, getKey,
          if_neg hne, getKey_append, getKey_map_of_mem _ hkey]
        rfl
      · rw [field, getKey_metricsPayload hkeys hcolumn]
        exact hvalid.metricsSame columns hcolumns key
    have hcolumnsOf : columnsOf metricKeys
        (columns ++ content.feedbackFields ++ content.tokenFields) = columns :=
      (columnsOf_congr fun key hkey ↦ getKey_metricsPayload hkeys hkey).trans
        (columnsOf_self hnodup hkeys)
    rw [metricRows, hmetrics]
    simp only [asMapping, hchecks, feedbackRow_payload hcolumns hvalid, hcolumnsOf, ok_bind]
    rfl

theorem tokenTexts_payload (hvalid : content.Valid host) {kind : String}
    (hkind : kind ∈ tokenKinds) :
    tokenTexts host content.payload kind = .ok (content.tokens kind) := by
  cases hcolumns : content.metrics with
  | none =>
    have hnull : field content.payload "metrics" = .null := by
      rw [field, getKey_payload_metrics (by decide), metricsPayload, hcolumns]
      rfl
    rw [tokenTexts, hnull, (hvalid.measured hcolumns).2 kind hkind]
    rfl
  | some columns =>
    have hmetrics : field content.payload "metrics" =
        .obj (columns ++ content.feedbackFields ++ content.tokenFields) :=
      field_payload_metrics hcolumns (by decide)
    have hiterate : iterate (orElse (.arr ((content.tokens kind).map .str)) (.arr [])) =
        .ok ((content.tokens kind).map .str) := by
      cases content.tokens kind <;> rfl
    rw [tokenTexts, hmetrics, orElse_obj]
    simp only [field_metricsPayload_tokens (hvalid.metrics columns hcolumns) hkind, hiterate,
      ok_bind, map_strOf_map_str]
    rfl

theorem tokenRows_payload (hvalid : content.Valid host) :
    SemanticChunkMapper.tokenRows host content.root.id content.payload =
      .ok content.tokenRows := by
  have hgroups : (tokenKinds.mapM fun kind ↦ do
      let texts ← tokenTexts host content.payload kind
      return enumerate (TokenRow.mk content.root.id kind) texts) =
        .ok (tokenKinds.map fun kind ↦
          enumerate (TokenRow.mk content.root.id kind) (content.tokens kind)) := by
    refine mapM_eq_ok.mpr (List.forall₂_map_right_iff.mpr (List.forall₂_same.mpr ?_))
    intro kind hkind
    rw [tokenTexts_payload hvalid hkind]
    rfl
  rw [SemanticChunkMapper.tokenRows, hgroups, ok_bind, tokenRows, List.flatMap_def]
  rfl

theorem tagRows_payload :
    SemanticChunkMapper.tagRows host content.root.id content.payload = .ok content.tagRows := by
  have htexts : content.tagRows.map (fun row ↦ row.tagValue) = content.tags.map id :=
    map_enumerate fun _ _ ↦ rfl
  rw [List.map_id] at htexts
  have hfield : field content.payload "tags" =
      orNull ((content.tagRows.map fun row ↦ row.tagValue).map .str) := rfl
  rw [SemanticChunkMapper.tagRows, tagTexts, hfield, iterate_orNull, htexts, ok_bind,
    map_strOf_map_str]
  rfl

theorem linkRows_payload (hvalid : content.Valid host) :
    SemanticChunkMapper.linkRows host content.root.id content.payload = .ok content.linkRows := by
  have htexts : (content.linkRows.map fun row ↦
      row.relationType ++ ':' :: uuidText row.targetChunkUuid) =
        content.links.map fun link ↦ link.1 ++ ':' :: uuidText link.2 :=
    map_enumerate fun _ _ ↦ rfl
  have hfield : field content.payload "links" = orNull ((content.linkRows.map fun row ↦
      row.relationType ++ ':' :: uuidText row.targetChunkUuid).map .str) := rfl
  have hlinks : ((content.links.map fun link ↦ link.1 ++ ':' :: uuidText link.2).map Json.str).mapM
      (linkOf host) = .ok content.links := by
    rw [List.map_map]
    refine mapM_eq_ok.mpr (List.forall₂_map_left_iff.mpr (List.forall₂_same.mpr ?_))
    exact fun link hlink ↦ linkOf_append (hvalid.links link hlink) link.2
  rw [SemanticChunkMapper.linkRows, hfield, iterate_orNull, htexts, ok_bind, hlinks, ok_bind]
  rfl

theorem embeddingRows_payload (hvalid : content.Valid host) :
    SemanticChunkMapper.embeddingRows host numerals arguments content.root.id content.payload =
      .ok (content.embeddingRows arguments) := by
  have hread : ∀ key ∈ ["embedding", "embedding_model"], field content.payload key =
      field (embeddingFields (content.embeddingRows {}).head?) key :=
    fun key hkey ↦ by rw [field, field, getKey_payload_embedding hkey]
  have hvector := hread "embedding" (by decide)
  have hmodel := hread "embedding_model" (by decide)
  cases hembedding : content.embedding with
  | none =>
    rw [embeddingRows, hembedding] at hvector hmodel
    rw [SemanticChunkMapper.embeddingRows, hvector, hmodel, embeddingRows, hembedding]
    rfl
  | some found =>
    rw [embeddingRows, hembedding] at hvector hmodel
    have htruthy : truthy (.str found.2) = true := by
      simpa [truthy] using hvalid.model found hembedding
    have hitems : (found.1.map Json.num).mapM (toFloat numerals) = .ok found.1 :=
      mapM_eq_ok.mpr (List.forall₂_map_left_iff.mpr (List.forall₂_same.mpr fun _ _ ↦ rfl))
    replace hvector : field content.payload "embedding" = .arr (found.1.map .num) := hvector
    replace hmodel : field content.payload "embedding_model" = .str found.2 := hmodel
    rw [SemanticChunkMapper.embeddingRows, hvector, hmodel, if_neg (by simp)]
    simp only [htruthy, iterate, hitems, ok_bind, raiseIf]
    rw [embeddingRows, hembedding]
    rfl

/-- **The payload that is read is stored** as the same rows, up to what the root row loses. -/
theorem toRows_payload (hvalid : content.Valid host) :
    toRows host numerals arguments content.payload =
      .ok { content.rows arguments with root := reread content.root } := by
  have hid : (reread content.root).id = content.root.id := rfl
  simp only [toRows, rootRow_payload hvalid, hid, metricRows_payload hvalid,
    tokenRows_payload hvalid, tagRows_payload, linkRows_payload hvalid,
    embeddingRows_payload hvalid, ok_bind]
  simp only [reread, extensionMeta_mergeBlockMeta,
    promotedMeta_congr (getKey_mergeBlockMeta content.root.blockMeta)]
  rfl

end Content

/-- **A chunk that is read is stored as it was**: from the rows that a payload is stored as, in
whatever order the children come back, a payload is read that is stored as the same rows. Only the
score is lost, a type that is missing becomes `DocBlock`, and the metadata, which keep their
entries, are put into another order. -/
theorem toRows_of_restored {payload : Dict} {rows stored : SemanticChunkRows} {model : Option Text}
    {dimension : Option ℤ} (hpayload : fieldsDistinct payload = true)
    (hstr : ∀ value, truthy value = true → host.strOf value ≠ [])
    (hactive : arguments.active = true) (hrows : toRows host numerals arguments payload = .ok rows)
    (hstored : Restored stored rows) (hrequest : Requests rows model dimension) :
    ∃ read, fromRows stored model dimension = .ok read ∧
      toRows host numerals arguments read =
        .ok { rows with root := {
          rows.root with
          chunkType := orElse rows.root.chunkType (.str (lit "DocBlock"))
          score := .null
          blockMeta := mergeBlockMeta rows.blockMeta.promoted rows.blockMeta.extensions } } ∧
      ∀ key, getKey (mergeBlockMeta rows.blockMeta.promoted rows.blockMeta.extensions) key =
        getKey rows.root.blockMeta key := by
  obtain ⟨content, hvalid, rfl⟩ := exists_content hpayload hstr hrows
  exact ⟨content.payload, Content.fromRows_of_restored hvalid hactive hstored hrequest,
    Content.toRows_payload hvalid, getKey_mergeBlockMeta content.root.blockMeta⟩

/-- A host whose `str` never returns an empty text. -/
def textHost : Host := { sampleHost with str := fun _ ↦ lit "0" }

theorem strOf_ne_nil (value : Json) (htruthy : truthy value = true) :
    textHost.strOf value ≠ [] := by
  cases value with
  | str text => simpa [truthy, Host.strOf] using htruthy
  | _ => exact List.cons_ne_nil _ _

def plainNumerals : Numerals := ⟨fun _ ↦ none, fun _ ↦ none⟩

/-- A chunk with metrics, two tags and two links. -/
def samplePayload : Dict :=
  [("uuid", .str (uuidText 1)), ("source_id", .str (uuidText 2)), ("block_id", .str (uuidText 3)),
    ("body", .str (lit "a cat")), ("ordinal", .num 4), ("start", .num 10), ("end", .num 15),
    ("block_meta", .obj [("markup", .str (lit "md")), ("chapter_id", .str (uuidText 5))]),
    ("metrics", .obj [("coverage", .num 1), ("feedback", .obj [("accepted", .num 2)]),
      ("tokens", .arr [.str (lit "a"), .str (lit "cat")])]),
    ("tags", .arr [.str (lit "animal"), .str (lit "pet")]),
    ("links", .arr [.str (lit "related:" ++ uuidText 6), .str (lit "parent:" ++ uuidText 7)]),
    ("embedding", .arr [.num 1, .num 0]), ("embedding_model", .str (lit "m"))]

/-- The rows as the tables return them: the links by their relations. -/
def sampleStored : SemanticChunkRows :=
  { sampleRows with
    links := sampleRows.links.reverse
    embeddings := sampleRows.embeddings.map fun row ↦
      { row with id := some 9, createdAt := some 100 } }

theorem restored_sampleStored : Restored sampleStored sampleRows where
  reordered := ⟨rfl, rfl, rfl, rfl, .refl _, .refl _, List.reverse_perm _, .refl _⟩
  embeddings := rfl

theorem toRows_of_restored_sample :
    ∃ read, fromRows sampleStored none none = .ok read ∧
      toRows textHost plainNumerals {} read =
        .ok { sampleRows with root := {
          sampleRows.root with
          chunkType := orElse sampleRows.root.chunkType (.str (lit "DocBlock"))
          score := .null
          blockMeta :=
            mergeBlockMeta sampleRows.blockMeta.promoted sampleRows.blockMeta.extensions } } ∧
      ∀ key, getKey
        (mergeBlockMeta sampleRows.blockMeta.promoted sampleRows.blockMeta.extensions) key =
          getKey sampleRows.root.blockMeta key := by
  have hrows : toRows textHost plainNumerals {} samplePayload = .ok sampleRows :=
    toOption_eq_some.mp (by decide +kernel)
  have hpayload : fieldsDistinct samplePayload = true := by decide +kernel
  exact toRows_of_restored hpayload strOf_ne_nil rfl hrows restored_sampleStored
    (.inl ⟨rfl, rfl⟩)

end DocStore.SemanticChunkMapper
