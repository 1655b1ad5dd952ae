import DocStore.Runtime.PublishedTexts
import DocStore.Runtime.TextSelection

/-!
# Pages of a selection

A reader of a selection cuts a page out of its rows and spells the page as if it were a document. A
selection that asks neither for a project nor for metadata takes the documents of a store of
publications whole, and every row has an exact piece. So a page is spelled exactly when its last row
is the last row of a document and no other one is. No page ever mixes two documents: what is
returned is the end of the text of one of them (`suffix_of_page`). And the pages of a size can all
be read only when each of them is exactly one document (`pages_readable_iff`), so a document that
does not fit into a page cannot be read page by page.
-/

set_option autoImplicit false
set_option relaxedAutoImplicit false

namespace DocStore

open Foundation

/-! ### What the chunks of a publication have in common -/

/-- What a selection asks of a chunk besides its project and its metadata. -/
def SemanticChunkRow.provenance (host : Host) (chunk : SemanticChunkRow) :
    Uuid × Option Text × Option Text × Option Text :=
  (chunk.chapterId, jsonText host chunk.blockMeta "file_id",
    jsonText host chunk.blockMeta "source_name", jsonText host chunk.blockMeta "source_path")

/-- The chunks of a document that are read agree on it. -/
def Uniform (host : Host) (db : Db) : Prop :=
  ∀ first ∈ db.semanticChunks, ∀ second ∈ db.semanticChunks,
    (joinChunk host db first).isSome = true → (joinChunk host db second).isSome = true →
      first.documentId = second.documentId → first.provenance host = second.provenance host

/-- The entries that a selection reads. -/
def sourceKeys : List String := ["file_id", "source_name", "source_path"]

section Provenance

variable {host : Host} {ids : PublicationIds} {plan : PersistencePlan}

theorem jsonText_congr {blockMeta other : Dict} {key : String}
    (hsame : getKey blockMeta key = getKey other key) :
    jsonText host blockMeta key = jsonText host other key := by
  rw [jsonText, jsonText, getValue, getValue, hsame]

/-- The features of a chunk say nothing of its source. -/
theorem getKey_chunkFeatureDict_of_source (chunkingStrategy : Text) (chunk : RuntimeChunk)
    {key : String} (hkey : key ∈ sourceKeys) :
    getKey (chunkFeatureDict host plan.sourceName chunkingStrategy chunk) key = none := by
  have hfeatures : ∀ source ∈ sourceKeys,
      ∀ name ∈ ["category", "tags", "tags_flat", "tokens", "bm25_tokens"], name ≠ source := by
    decide
  have hclassifiers : ∀ source ∈ sourceKeys,
      ∀ name ∈ ["type", "role", "status", "block_type", "language", "category"], name ≠ source := by
    decide
  have hothers : ∀ source ∈ sourceKeys,
      ∀ name ∈ ["chunking_version", "block_id", "block_index"], name ≠ source := by decide
  rw [chunkFeatureDict, getKey_updateKeys_of_forall_ne, getKey_eq_none]
  · simpa [ChunkFeatures.toDict] using hfeatures key hkey
  · intro entry hmem
    rcases List.mem_append.mp hmem with hmem | hmem
    · obtain ⟨name, hname, hentry⟩ := List.mem_filterMap.mp hmem
      obtain ⟨text, -, hentry⟩ := Option.bind_eq_some_iff.mp hentry
      split at hentry
      · cases hentry
      · cases hentry
        exact hclassifiers key hkey name hname
    · obtain ⟨name, hname, hentry⟩ := List.mem_filterMap.mp hmem
      obtain ⟨value, -, rfl⟩ := Option.map_eq_some_iff.mp hentry
      exact hothers key hkey name hname

/-- A paragraph inherits the source of its document. -/
theorem getKey_paragraphMeta_of_source (orderIndex : ℕ) (paragraph : RuntimeChunk) {key : String}
    (hkey : key ∈ sourceKeys) :
    getKey (paragraphMeta host plan orderIndex paragraph) key = getKey plan.docMeta key := by
  have hproperties : ∀ source ∈ sourceKeys, ∀ name ∈ ["tags", "project"], name ≠ source := by
    decide
  have hnumbers : ∀ source ∈ sourceKeys, ∀ name ∈ ["paragraph_number", "chunker"],
      name ≠ source := by decide
  refine getKey_foldl_updateKeys ?_ _
  simp only [List.forall_mem_cons, List.not_mem_nil, false_implies, implies_true, and_true]
  refine ⟨?_, getKey_chunkFeatureDict_of_source _ _ hkey, ?_⟩
  · rw [getKey_eq_none, SourceProperties.toDict, Option.or_none]
    have hname : "tags" ≠ key ∧ "project" ≠ key := by simpa using hproperties key hkey
    cases (host.sourceProperties paragraph.text).project with
    | none => simpa using hname.1
    | some project => simpa using hname
  · rw [getKey_eq_none]
    simpa using hnumbers key hkey

/-- A chunk inherits the file and the path, and is given the name. -/
theorem getKey_chunkMeta_of_source (chapterId paragraphId : Uuid) (inherited : Dict)
    (sentence : RuntimeChunk) {key : String} (hkey : key ∈ sourceKeys) :
    getKey (chunkMeta host plan chapterId paragraphId inherited sentence) key =
      if key = "source_name" then some (Json.ofOption plan.sourceName)
      else getKey inherited key := by
  have hclassifiers : ∀ source ∈ sourceKeys, ∀ entry ∈ semanticClassifierDefaults,
      entry.1 ≠ source := by decide
  have hblockType : ∀ source ∈ sourceKeys, source ≠ "block_type" := by decide
  have hwritten : ∀ source ∈ sourceKeys, source ≠ "source_name" →
      ∀ name ∈ ["unit_type", "chapter_id", "paragraph_id", "source_name", "svo_chunk"],
        name ≠ source := by decide
  rw [chunkMeta, List.foldl_cons, List.foldl_cons, List.foldl_cons, List.foldl_nil,
    getKey_updateKeys_of_forall_ne, getKey_updateKeys_of_nodup (by simp),
    getKey_updateKeys_of_forall_ne]
  · split
    next hname =>
      subst hname
      rfl
    next hname =>
      rw [getKey_eq_none.mpr (by simpa using hwritten key hkey hname), Option.none_or]
  · refine getKey_eq_none.mp ?_
    rw [sentenceFeatures, getKey_setKey_of_ne _ _ (hblockType key hkey),
      getKey_chunkFeatureDict_of_source _ _ hkey]
  · intro entry hentry
    obtain ⟨⟨field, value⟩, hvalue, rfl⟩ := List.mem_map.mp hentry
    obtain ⟨default, hdefault, hsame⟩ := List.mem_map.mp hvalue
    have hfield : default.1 = field := congrArg Prod.fst hsame
    exact hfield ▸ hclassifiers key hkey default hdefault

/-- What a publication writes for the source of a chunk. -/
theorem provenance_rows (placed : PlacedSentence) :
    (placed.rows host ids plan).chunk.provenance host =
      (ids.chapterId, jsonText host plan.docMeta "file_id",
        jsonText host [("source_name", Json.ofOption plan.sourceName)] "source_name",
        jsonText host plan.docMeta "source_path") := by
  have hchunk : ∀ key ∈ sourceKeys, getKey (placed.rows host ids plan).chunk.blockMeta key =
      if key = "source_name" then some (Json.ofOption plan.sourceName)
      else getKey plan.docMeta key := by
    intro key hkey
    rw [← getKey_paragraphMeta_of_source placed.orderIndex placed.paragraph hkey]
    dsimp only [PlacedSentence.rows, sentenceRows]
    exact getKey_chunkMeta_of_source _ _ _ _ hkey
  have hfile := (hchunk "file_id" (by decide)).trans (if_neg (by decide))
  have hpath := (hchunk "source_path" (by decide)).trans (if_neg (by decide))
  have hname : getKey (placed.rows host ids plan).chunk.blockMeta "source_name" =
      getKey [("source_name", Json.ofOption plan.sourceName)] "source_name" :=
    hchunk "source_name" (by decide)
  rw [SemanticChunkRow.provenance, jsonText_congr hfile, jsonText_congr hname,
    jsonText_congr hpath]
  rfl

end Provenance

/-! ### Selections of whole documents -/

section Whole

variable {host : Host} {ids : PublicationIds} {plan : PersistencePlan} {db next : Db}
  {texts : Texts}

/-- The chunks of a document still agree when a plan is written. -/
theorem Uniform.of_writeHierarchy (huniform : Uniform host db) (hshelved : Shelved host db texts)
    {primarySourceId : Uuid} {paragraphs : List PlannedParagraph}
    (hwrite : writeHierarchy host ids plan primarySourceId paragraphs db = .ok next) :
    Uniform host next := by
  intro first hfirst second hsecond hreadFirst hreadSecond hsame
  by_cases hdocument : first.documentId = plan.documentId
  · have hwritten : ∀ chunk ∈ next.semanticChunks, chunk.documentId = plan.documentId →
        (joinChunk host next chunk).isSome = true → chunk.provenance host =
          (ids.chapterId, jsonText host plan.docMeta "file_id",
            jsonText host [("source_name", Json.ofOption plan.sourceName)] "source_name",
            jsonText host plan.docMeta "source_path") := by
      intro chunk hchunk hchunkDocument hread
      obtain ⟨joined, hjoin⟩ := Option.isSome_iff_exists.mp hread
      obtain ⟨placed, -, rfl, -⟩ :=
        exists_placed_of_joinChunk hshelved.consistent hwrite hchunk hchunkDocument hjoin
      exact provenance_rows placed
    rw [hwritten first hfirst hdocument hreadFirst,
      hwritten second hsecond (hsame.symm.trans hdocument) hreadSecond]
  · have hkept : ∀ chunk ∈ next.semanticChunks, chunk.documentId = first.documentId →
        chunk ∈ db.semanticChunks ∧ joinChunk host next chunk = joinChunk host db chunk := by
      intro chunk hchunk hchunkDocument
      have hmem : chunk ∈ next.semanticChunks.filter fun row ↦ row.documentId = first.documentId :=
        List.mem_filter.mpr ⟨hchunk, decide_eq_true hchunkDocument⟩
      rw [(writesOnly_of_writeHierarchy hwrite).chunks first.documentId hdocument] at hmem
      have hold := (List.mem_filter.mp hmem).1
      exact ⟨hold, joinChunk_of_writeHierarchy hshelved.consistent hold (hshelved.hangs chunk hold)
        (hchunkDocument.trans_ne hdocument) hwrite⟩
    obtain ⟨hfirstOld, hfirstJoin⟩ := hkept first hfirst rfl
    obtain ⟨hsecondOld, hsecondJoin⟩ := hkept second hsecond hsame.symm
    exact huniform first hfirstOld second hsecondOld (hfirstJoin ▸ hreadFirst)
      (hsecondJoin ▸ hreadSecond) hsame

/-- The chunks of a document still agree after a publication. -/
theorem Uniform.of_publishText {later : Texts} (huniform : Uniform host db)
    (hshelved : Shelved host db texts) {call : PublishCall}
    (hstep : publishText host (db, texts) call = some (next, later)) : Uniform host next := by
  obtain ⟨publication, hpublish, hnext⟩ := Option.map_eq_some_iff.mp hstep
  obtain ⟨rfl, -⟩ := Prod.mk.inj hnext
  obtain ⟨kept, runs, assertions, hdb, ⟨-, -, paragraphs, hwrite⟩ | ⟨-, rfl⟩⟩ :=
    hierarchy_or_same_of_publish (toOption_eq_some.mp hpublish)
  · have hwritten : Uniform host kept := huniform.of_writeHierarchy hshelved hwrite
    rw [hdb]
    exact hwritten
  · rw [hdb]
    exact huniform

theorem uniform_of_publications {state : Db × Texts}
    (hrun : Steps (publishText host) (fun _ call ↦ call.request.textValue ≠ [])
      ({}, fun _ ↦ none) state) : Shelved host state.1 state.2 ∧ Uniform host state.1 := by
  refine hrun.invariant (motive := fun state ↦ Shelved host state.1 state.2 ∧ Uniform host state.1)
    ⟨shelved_empty host, fun _ hchunk ↦ absurd hchunk List.not_mem_nil⟩ ?_
  rintro state call next ⟨hshelved, huniform⟩ hne hstep
  exact ⟨hshelved.of_publishText hne hstep, huniform.of_publishText hshelved hstep⟩

open TextReconstructionService in
/-- A selection that asks neither for a project nor for metadata takes documents whole. -/
theorem Uniform.takesWhole (huniform : Uniform host db) {selector : TextSelector}
    (hproject : selector.projectId = none) (hfilters : selector.metadataFilters = []) :
    selector.TakesWhole host db := by
  intro first hfirst second hsecond hreadFirst hreadSecond hsame
  have hprovenance := huniform first hfirst second hsecond hreadFirst hreadSecond hsame
  simp only [SemanticChunkRow.provenance, Prod.mk.injEq] at hprovenance
  obtain ⟨hchapter, hfile, hname, hpath⟩ := hprovenance
  rw [TextSelector.selects, TextSelector.selects, hsame]
  refine congrArg (fun accepts ↦ Option.any accepts _) (funext fun document ↦ ?_)
  rw [TextSelector.accepts, TextSelector.accepts, hproject, hfilters, hchapter, hfile, hname, hpath,
    hsame]
  rfl

end Whole

/-! ### Pages -/

namespace TextReconstructionService

section Pages

variable {host : Host} {createdAt : Uuid → Instant} {selector : TextSelector} {db : Db}
  {texts : Texts}

/-- The rows of a page. -/
def pageRows (host : Host) (createdAt : Uuid → Instant) (selector : TextSelector) (db : Db)
    (limit offset : ℤ) : List ChunkTextRow :=
  ((selectedRows host createdAt selector db).drop offset.toNat).take limit.toNat

/-- When the chapter reader returns a page. -/
theorem assembleChapterText_eq_ok {maxChars limit offset : ℤ} {assembly : Assembly} :
    assembleChapterText host createdAt selector db maxChars limit offset = .ok assembly ↔
      ((selector.chapterId.isNone && !selector.isGiven) = false ∧
        (1 ≤ limit ∧ 0 ≤ offset ∧
          ∀ filter ∈ selector.metadataFilters, isMetadataFilterKey filter.1 = true) ∧
        pageRows host createdAt selector db limit offset ≠ [] ∧ 0 ≤ maxChars ∧
        assemble host (pageRows host createdAt selector db limit offset) maxChars.toNat =
          .ok assembly) := by
  constructor
  · intro hread
    obtain ⟨hgiven, hread⟩ := raiseIf_bind_eq_ok.mp hread
    obtain ⟨rows, hselect, hread⟩ := bind_eq_ok.mp hread
    obtain ⟨hlimit, hselect⟩ := raiseIf_bind_eq_ok.mp hselect
    obtain ⟨hoffset, hselect⟩ := raiseIf_bind_eq_ok.mp hselect
    obtain ⟨hfilters, hselect⟩ := raiseIf_bind_eq_ok.mp hselect
    obtain rfl : pageRows host createdAt selector db limit offset = rows := Except.ok.inj hselect
    obtain ⟨hrows, hread⟩ := raiseIf_bind_eq_ok.mp hread
    obtain ⟨hchars, hread⟩ := raiseIf_bind_eq_ok.mp hread
    refine ⟨hgiven, ⟨not_lt.mp (of_decide_eq_false hlimit), not_lt.mp (of_decide_eq_false hoffset),
      ?_⟩, List.isEmpty_eq_false_iff.mp hrows, not_lt.mp (of_decide_eq_false hchars), hread⟩
    simpa using hfilters
  · rintro ⟨hgiven, ⟨hlimit, hoffset, hfilters⟩, hrows, hchars, hread⟩
    refine raiseIf_bind_eq_ok.mpr ⟨hgiven, bind_eq_ok.mpr
      ⟨pageRows host createdAt selector db limit offset, ?_, ?_⟩⟩
    · refine raiseIf_bind_eq_ok.mpr ⟨decide_eq_false (not_lt.mpr hlimit), ?_⟩
      refine raiseIf_bind_eq_ok.mpr ⟨decide_eq_false (not_lt.mpr hoffset), ?_⟩
      exact raiseIf_bind_eq_ok.mpr ⟨by simpa using hfilters, rfl⟩
    · refine raiseIf_bind_eq_ok.mpr ⟨List.isEmpty_eq_false_iff.mpr hrows, ?_⟩
      exact raiseIf_bind_eq_ok.mpr ⟨decide_eq_false (not_lt.mpr hchars), hread⟩

/-- The chunks of selected rows are distinct. -/
theorem nodup_selectedRows (hkeys : (db.semanticChunks.map fun row ↦ row.id).Nodup) :
    ((selectedRows host createdAt selector db).map fun row ↦ row.chunkId).Nodup := by
  have hperm : ((selectedRows host createdAt selector db).map fun row ↦ row.chunkId).Perm
      ((selectedJoined host selector db).map fun joined ↦ joined.2.chunkId) := by
    rw [selectedRows, List.map_map]
    exact (perm_ranked _ _).map _
  refine hperm.nodup_iff.mpr ((map_filterMap_sublist chunkId_of_joinChunk _).nodup ?_)
  exact (List.filter_sublist.map _).nodup hkeys

/-- A selected document has rows. -/
theorem joinedRows_ne_nil (hkeys : (db.semanticChunks.map fun row ↦ row.id).Nodup)
    (hwhole : selector.TakesWhole host db) {documentId : Uuid}
    (hselected : documentId ∈ selectedDocuments host createdAt selector db) :
    joinedRows host db documentId ≠ [] := by
  rw [← filter_selectedRows hkeys hwhole hselected]
  obtain ⟨row, hrow, hdocument⟩ := List.mem_map.mp (List.mem_eraseDups.mp hselected)
  exact List.ne_nil_of_mem (List.mem_filter.mpr ⟨hrow, decide_eq_true hdocument⟩)

end Pages

end TextReconstructionService

/-- What the rows of a document on the shelf are read as. -/
theorem Shelved.exists_text {host : Host} {db : Db} {texts : Texts}
    (hshelved : Shelved host db texts) {documentId : Uuid}
    (hne : joinedRows host db documentId ≠ []) :
    ∃ text, texts documentId = some text ∧
      scopeText ((joinedRows host db documentId).map ChunkTextRow.toScopeRow) = .ok text ∧
      (∀ row ∈ joinedRows host db documentId, row.toScopeRow.HasPiece) ∧
      Closed (fun row : ChunkTextRow ↦ row.toScopeRow.endsText)
        (joinedRows host db documentId) := by
  have hreads := hshelved.reads documentId
  generalize htext : texts documentId = text at hreads
  cases hreads with
  | nothing hrows => exact absurd hrows hne
  | text _ hpieces hscope =>
    refine ⟨_, rfl, hscope, hpieces, closed_map_iff.mp ?_⟩
    refine (exists_scopeText_iff_closed ?_ ?_ ?_).mp ⟨_, hscope⟩
    · rw [List.map_map]
      exact nodup_joinedRows hshelved.keys
    · simpa using hne
    · simpa only [List.forall_mem_map] using hpieces

namespace TextReconstructionService

section Reading

variable {host : Host} {createdAt : Uuid → Instant} {selector : TextSelector} {state : Db × Texts}

/-- A store of publications from which whole documents are selected. -/
structure SelectsDocuments (host : Host) (selector : TextSelector) (db : Db) (texts : Texts) :
    Prop where
  shelved : Shelved host db texts
  whole : selector.TakesWhole host db

section Blocks

variable {db : Db} {texts : Texts}

/-- The selected rows are closed documents, one behind the other. -/
theorem SelectsDocuments.closed (hselects : SelectsDocuments host selector db texts) :
    ∀ block ∈ (selectedDocuments host createdAt selector db).map (joinedRows host db),
      Closed (fun row : ChunkTextRow ↦ row.toScopeRow.endsText) block := by
  intro block hblock
  obtain ⟨documentId, hselected, rfl⟩ := List.mem_map.mp hblock
  obtain ⟨-, -, -, -, hclosed⟩ := hselects.shelved.exists_text
    (joinedRows_ne_nil hselects.shelved.keys hselects.whole hselected)
  exact hclosed

/-- Any rows of the selection, unless there are none, are spelled when they are closed. -/
theorem SelectsDocuments.exists_assemble_iff (hselects : SelectsDocuments host selector db texts)
    {page : List ChunkTextRow} (hne : page ≠ [])
    (hpage : page.Sublist (selectedRows host createdAt selector db)) (maxChars : ℕ) :
    (∃ assembly, assemble host page maxChars = .ok assembly) ↔
      Closed (fun row : ChunkTextRow ↦ row.toScopeRow.endsText) page := by
  rw [← closed_map_iff]
  refine exists_assemble_iff_closed ?_ hne fun row hrow ↦ ?_
  · exact (nodup_selectedRows hselects.shelved.keys).sublist (hpage.map _)
  · have hmem := hpage.mem hrow
    rw [selectedRows_eq_flatten hselects.shelved.keys hselects.whole] at hmem
    obtain ⟨block, hblock, hmem⟩ := List.mem_flatten.mp hmem
    obtain ⟨documentId, hselected, rfl⟩ := List.mem_map.mp hblock
    obtain ⟨-, -, -, hpieces, -⟩ := hselects.shelved.exists_text
      (joinedRows_ne_nil hselects.shelved.keys hselects.whole hselected)
    exact hpieces row hmem

end Blocks

theorem selectsDocuments_of_publications
    (hrun : Steps (publishText host) (fun _ call ↦ call.request.textValue ≠ [])
      ({}, fun _ ↦ none) state)
    (hproject : selector.projectId = none) (hfilters : selector.metadataFilters = []) :
    SelectsDocuments host selector state.1 state.2 := by
  obtain ⟨hshelved, huniform⟩ := uniform_of_publications hrun
  exact ⟨hshelved, huniform.takesWhole hproject hfilters⟩

theorem pageRows_sublist (host : Host) (createdAt : Uuid → Instant) (selector : TextSelector)
    (db : Db) (limit offset : ℤ) : (pageRows host createdAt selector db limit offset).Sublist
      (selectedRows host createdAt selector db) :=
  (List.take_sublist _ _).trans (List.drop_sublist _ _)

/-- **A page never mixes documents.** Whatever page of a selection is returned, its text is the end
of the text of one of the selected documents. -/
theorem suffix_of_page
    (hrun : Steps (publishText host) (fun _ call ↦ call.request.textValue ≠ [])
      ({}, fun _ ↦ none) state)
    (hproject : selector.projectId = none) (hfilters : selector.metadataFilters = [])
    {limit offset : ℤ} {assembly : Assembly}
    (hread : assembleChapterText host createdAt selector state.1 0 limit offset = .ok assembly) :
    ∃ documentId ∈ selectedDocuments host createdAt selector state.1, ∃ text,
      state.2 documentId = some text ∧ assembly.text <:+ text := by
  have hselects := selectsDocuments_of_publications hrun hproject hfilters
  obtain ⟨-, -, hne, -, hassemble⟩ := assembleChapterText_eq_ok.mp hread
  have hsublist := pageRows_sublist host createdAt selector state.1 limit offset
  have hclosed := (hselects.exists_assemble_iff hne hsublist 0).mp ⟨_, hassemble⟩
  have hsplit : ((selectedDocuments host createdAt selector state.1).map
      (joinedRows host state.1)).flatten =
        (selectedRows host createdAt selector state.1).take offset.toNat ++
          pageRows host createdAt selector state.1 limit offset ++
          ((selectedRows host createdAt selector state.1).drop offset.toNat).drop limit.toNat := by
    rw [← selectedRows_eq_flatten hselects.shelved.keys hselects.whole, pageRows,
      List.append_assoc, List.take_append_drop, List.take_append_drop]
  obtain ⟨block, hblock, front, hsuffix⟩ := exists_suffix_of_closed hselects.closed hclosed hsplit
  obtain ⟨documentId, hselected, rfl⟩ := List.mem_map.mp hblock
  obtain ⟨text, htext, hscope, hpieces, hwhole⟩ := hselects.shelved.exists_text
    (joinedRows_ne_nil hselects.shelved.keys hselects.whole hselected)
  refine ⟨documentId, hselected, text, htext, ?_⟩
  have hpageScope := scopeText_of_assemble
    ((nodup_selectedRows hselects.shelved.keys).sublist (hsublist.map _)) hassemble
  have hnodup := @nodup_joinedRows host state.1 documentId hselects.shelved.keys
  rw [← hsuffix] at hscope hpieces hwhole hnodup
  rw [List.map_append] at hscope
  refine suffix_of_closed ?_ ?_ ?_ (closed_map_iff.mpr hclosed) hscope hpageScope
  · rw [← List.map_append, List.map_map]
    exact hnodup
  · rw [← List.map_append]
    simpa only [List.forall_mem_map] using hpieces
  · rw [← List.map_append]
    exact closed_map_iff.mpr hwhole

end Reading

/-- The small document, selected by its UUID. -/
def sampleSelector : TextSelector where
  documentId := some sampleRequest.documentId

/-- The last row of the small document is read as the end of its text. -/
theorem suffix_of_page_sample : ∃ documentId ∈ selectedDocuments sampleHost (fun _ ↦ 0)
    sampleSelector samplePublication.db, ∃ text, sampleTexts documentId = some text ∧
      lit "\n\nd " <:+ text := by
  obtain ⟨assembly, hread⟩ : ∃ assembly, assembleChapterText sampleHost (fun _ ↦ 0) sampleSelector
      samplePublication.db 0 1 2 = .ok assembly := exists_of_succeeds (by decide +kernel)
  have htext : (toOption (assembleChapterText sampleHost (fun _ ↦ 0) sampleSelector
      samplePublication.db 0 1 2)).map Assembly.text = some (lit "\n\nd ") := by decide +kernel
  rw [hread, toOption_ok, Option.map_some] at htext
  have hsuffix := @suffix_of_page sampleHost (fun _ ↦ 0) sampleSelector
    (samplePublication.db, sampleTexts) steps_samplePublication rfl rfl 1 2 assembly
  dsimp only at hsuffix
  rw [← Option.some.inj htext]
  exact hsuffix hread

end TextReconstructionService

end DocStore
