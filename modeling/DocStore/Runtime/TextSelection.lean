import DocStore.Foundation.Blocks
import DocStore.Foundation.Ranking
import DocStore.Ingestion.RechunkedText
import Mathlib.Data.Prod.Lex

/-!
# Selecting rows of several documents

`_select_rows` joins the live chunks with their texts, keeps those that a caller selects, by
chapter, document, file, project, source or metadata, and cuts a page out of them. The rows come
document by document, the oldest first, and within a document as `joinedRows` has them. So a
selection that takes documents whole is the rows of its documents, one behind the other
(`selectedRows_eq_flatten`).
-/

set_option autoImplicit false
set_option relaxedAutoImplicit false

namespace DocStore

open Foundation

/-! ### The order of rows -/

/-- An order key in the lexicographic order. -/
def OrderKey.lex (key : OrderKey) : ℕ ×ₗ (ℕ ×ₗ (ℕ ×ₗ ℕ)) :=
  toLex (key.1, toLex (key.2.1, toLex (key.2.2.1, key.2.2.2)))

theorem OrderKey.before_iff_lex_le {first second : OrderKey} :
    first.before second = true ↔ first.lex ≤ second.lex := by
  simp only [OrderKey.before, OrderKey.lex, Prod.Lex.toLex_le_toLex, Bool.or_eq_true,
    Bool.and_eq_true, decide_eq_true_eq]

theorem OrderKey.lex_injective : Function.Injective OrderKey.lex := by
  intro first second hsame
  simpa only [OrderKey.lex, toLex_inj, Prod.mk.injEq, Prod.ext_iff] using hsame

/-- What the rows of a document are sorted by. -/
def joinedKey (joined : OrderKey × ChunkTextRow) : ℕ ×ₗ (ℕ ×ₗ (ℕ ×ₗ ℕ)) := joined.1.lex

theorem joinedRows_eq_ranked (host : Host) (db : Db) (documentId : Uuid) :
    joinedRows host db documentId = (ranked joinedKey
      ((db.semanticChunks.filter fun chunk : SemanticChunkRow ↦
        chunk.documentId = documentId).filterMap (joinChunk host db))).map Prod.snd := by
  have hsame : (fun first second : OrderKey × ChunkTextRow ↦ first.1.before second.1 = true) =
      fun first second ↦ joinedKey first ≤ joinedKey second := by
    funext first second
    exact propext OrderKey.before_iff_lex_le
  rw [joinedRows, ranked]
  congr 2

namespace TextReconstructionService

/-! ### Selectors -/

/-- What a caller selects. -/
structure TextSelector where
  chapterId : Option Uuid := none
  documentId : Option Uuid := none
  fileId : Option Uuid := none
  sourceName : Option Text := none
  sourcePath : Option Text := none
  projectId : Option Uuid := none
  metadataFilters : List (String × Text) := []

/-- The conditions of `_select_rows` on a chunk and its document. -/
def TextSelector.accepts (host : Host) (selector : TextSelector) (chunk : SemanticChunkRow)
    (document : DocumentRow) : Bool :=
  selector.chapterId.all (fun id ↦ chunk.chapterId = id) &&
  selector.documentId.all (fun id ↦ chunk.documentId = id) &&
  selector.fileId.all (fun id ↦ document.ownerId = some id || document.sourceUploadId = id ||
    jsonText host chunk.blockMeta "file_id" = some (uuidText id)) &&
  selector.projectId.all (fun id ↦ document.ownerId = some id ||
    jsonText host chunk.blockMeta "project_id" = some (uuidText id) ||
    jsonText host chunk.blockMeta "project" = some (uuidText id)) &&
  selector.sourceName.all (fun name ↦ document.sourceName = some name ||
    jsonText host chunk.blockMeta "source_name" = some name) &&
  selector.sourcePath.all (fun path ↦ document.sourcePath = some path ||
    jsonText host chunk.blockMeta "source_path" = some path) &&
  selector.metadataFilters.all fun filter ↦
    jsonText host chunk.blockMeta filter.1 = some filter.2

/-- Whether a chunk is selected. -/
def TextSelector.selects (host : Host) (selector : TextSelector) (db : Db)
    (chunk : SemanticChunkRow) : Bool :=
  (lookup (fun row : DocumentRow ↦ row.id) chunk.documentId db.documents).any
    (selector.accepts host chunk)

/-- `METADATA_FILTER_KEY_RE`. -/
def isMetadataFilterKey (key : String) : Bool :=
  match key.toList with
  | [] => false
  | first :: rest => (first.isAlpha || first = '_') && rest.length ≤ 127 &&
      rest.all fun char ↦ char.isAlphanum || char = '_'

/-- `any((file_id, document_id, source_name, source_path, project_id, metadata_filters))`. -/
def TextSelector.isGiven (selector : TextSelector) : Bool :=
  selector.fileId.isSome || selector.documentId.isSome ||
    selector.sourceName.any (fun name ↦ !name.isEmpty) ||
    selector.sourcePath.any (fun path ↦ !path.isEmpty) ||
    selector.projectId.isSome || !selector.metadataFilters.isEmpty

/-! ### Reading selected rows -/

section Selecting

variable (host : Host) (createdAt : Uuid → Instant) (selector : TextSelector) (db : Db)

/-- The joined rows of the selected chunks. -/
def selectedJoined : List (OrderKey × ChunkTextRow) :=
  (db.semanticChunks.filter (selector.selects host db)).filterMap (joinChunk host db)

/-- `ORDER BY d.created_at, d.id, c.order_index, p.order_index, sc.order_index, sc.id`. -/
def selectionKey (joined : OrderKey × ChunkTextRow) :
    Instant ×ₗ (ℕ ×ₗ (ℕ ×ₗ (ℕ ×ₗ (ℕ ×ₗ ℕ)))) :=
  toLex (createdAt joined.2.documentId, toLex (joined.2.documentId.toNat, joinedKey joined))

/-- The selected rows in their order. -/
def selectedRows : List ChunkTextRow :=
  (ranked (selectionKey createdAt) (selectedJoined host selector db)).map Prod.snd

/-- `_select_rows`: a page of the selected rows. -/
def selectRows (limit offset : ℤ) : Except Failure (List ChunkTextRow) := do
  raiseIf (limit < 1) (.value "limit must be >= 1")
  raiseIf (offset < 0) (.value "offset must be >= 0")
  raiseIf (!selector.metadataFilters.all fun filter ↦ isMetadataFilterKey filter.1)
    (.value "metadata filter keys must match ^[A-Za-z_][A-Za-z0-9_]\x7b0,127\x7d$")
  return ((selectedRows host createdAt selector db).drop offset.toNat).take limit.toNat

/-- The checks and the reading that both readers share. -/
def assembleSelected (entity : String) (maxChars limit offset : ℤ) : Except Failure Assembly := do
  let rows ← selectRows host createdAt selector db limit offset
  raiseIf rows.isEmpty (.lookup ("no current chunk text found for " ++ entity ++ " selector"))
  raiseIf (maxChars < 0) (.value "max_chars must be >= 0")
  assemble host rows maxChars.toNat

/-- `reconstruct_source_file`. It selects by no chapter. -/
def reconstructSourceFile (maxChars limit offset : ℤ) : Except Failure Assembly := do
  raiseIf (!selector.isGiven) (.value "at least one source selector is required")
  assembleSelected host createdAt { selector with chapterId := none } db "source" maxChars limit
    offset

/-- `assemble_chapter_text`. -/
def assembleChapterText (maxChars limit offset : ℤ) : Except Failure Assembly := do
  raiseIf (selector.chapterId.isNone && !selector.isGiven)
    (.value "chapter_id or at least one selector is required")
  assembleSelected host createdAt selector db "chapter" maxChars limit offset

end Selecting

/-! ### Rows document by document -/

section Documents

variable {host : Host} {createdAt : Uuid → Instant} {selector : TextSelector} {db : Db}

theorem joined_of_joinChunk {chunk : SemanticChunkRow} {joined : OrderKey × ChunkTextRow}
    (hjoin : joinChunk host db chunk = some joined) :
    joined.1.2.2.2 = chunk.id.toNat ∧ joined.2.documentId = chunk.documentId := by
  simp only [joinChunk, Option.bind_eq_bind, Option.bind_eq_some_iff] at hjoin
  obtain ⟨_, -, _, -, _, -, _, -, hjoin⟩ := hjoin
  split at hjoin
  next =>
    cases hjoin
    exact ⟨rfl, rfl⟩
  next => cases hjoin

/-- Joined rows of distinct chunks have distinct keys. -/
theorem nodup_joinedKey {chunks : List SemanticChunkRow}
    (hkeys : (chunks.map fun row ↦ row.id).Nodup) :
    ((chunks.filterMap (joinChunk host db)).map joinedKey).Nodup := by
  have hids : ((chunks.filterMap (joinChunk host db)).map fun joined ↦ joined.1.2.2.2).Sublist
      (chunks.map fun row ↦ row.id.toNat) :=
    map_filterMap_sublist (fun hjoin ↦ (joined_of_joinChunk hjoin).1) chunks
  have hnumbers : (chunks.map fun row ↦ row.id.toNat).Nodup := by
    have hmap := hkeys.map fun first second hsame ↦ BitVec.eq_of_toNat_eq hsame
    rwa [List.map_map] at hmap
  refine List.Nodup.of_map (fun key : ℕ ×ₗ (ℕ ×ₗ (ℕ ×ₗ ℕ)) ↦
    (ofLex (ofLex (ofLex key).2).2).2) ?_
  rw [List.map_map]
  exact hids.nodup hnumbers

/-- A selection takes all chunks of a document that are read, or none. -/
def TextSelector.TakesWhole (host : Host) (selector : TextSelector) (db : Db) : Prop :=
  ∀ first ∈ db.semanticChunks, ∀ second ∈ db.semanticChunks,
    (joinChunk host db first).isSome = true → (joinChunk host db second).isSome = true →
      first.documentId = second.documentId →
        selector.selects host db first = selector.selects host db second

/-- The documents of the selected rows, the oldest first. -/
def selectedDocuments (host : Host) (createdAt : Uuid → Instant) (selector : TextSelector)
    (db : Db) : List Uuid :=
  ((selectedRows host createdAt selector db).map fun row ↦ row.documentId).eraseDups

/-- The selected rows of a document are all its rows. -/
theorem filter_selectedRows (hkeys : (db.semanticChunks.map fun row ↦ row.id).Nodup)
    (hwhole : selector.TakesWhole host db) {documentId : Uuid}
    (hselected : documentId ∈ selectedDocuments host createdAt selector db) :
    (selectedRows host createdAt selector db).filter (fun row ↦ row.documentId = documentId) =
      joinedRows host db documentId := by
  have hall : ∀ chunk ∈ db.semanticChunks, (joinChunk host db chunk).isSome = true →
      chunk.documentId = documentId → selector.selects host db chunk = true := by
    obtain ⟨row, hrow, rfl⟩ := List.mem_map.mp (List.mem_eraseDups.mp hselected)
    obtain ⟨joined, hjoined, rfl⟩ := List.mem_map.mp hrow
    obtain ⟨found, hfound, hjoin⟩ := List.mem_filterMap.mp (mem_ranked.mp hjoined)
    obtain ⟨hmem, haccepted⟩ := List.mem_filter.mp hfound
    intro chunk hchunk hread hdocument
    rw [← haccepted]
    exact hwhole chunk hchunk found hmem hread (Option.isSome_of_eq_some hjoin)
      (hdocument.trans (joined_of_joinChunk hjoin).2)
  have hchunks : (selectedJoined host selector db).filter
      (fun joined ↦ joined.2.documentId = documentId) =
        (db.semanticChunks.filter fun chunk ↦ chunk.documentId = documentId).filterMap
          (joinChunk host db) := by
    rw [selectedJoined, List.filterMap_filter, List.filter_filterMap, List.filterMap_filter]
    refine List.filterMap_congr fun chunk hchunk ↦ ?_
    by_cases hdocument : chunk.documentId = documentId
    · rw [if_pos (decide_eq_true hdocument)]
      cases hjoin : joinChunk host db chunk with
      | none => split <;> rfl
      | some joined =>
        rw [if_pos (hall chunk hchunk (Option.isSome_of_eq_some hjoin) hdocument)]
        exact Option.filter_some_pos
          (decide_eq_true ((joined_of_joinChunk hjoin).2.trans hdocument))
    · rw [if_neg (c := decide (chunk.documentId = documentId) = true) (by simpa using hdocument)]
      refine Option.filter_eq_none_iff.mpr fun joined hjoin ↦ ?_
      split at hjoin
      next =>
        rw [decide_eq_true_eq, (joined_of_joinChunk hjoin).2]
        exact hdocument
      next => cases hjoin
  rw [selectedRows, joinedRows_eq_ranked, ← hchunks, List.filter_map]
  refine congrArg (List.map Prod.snd) ?_
  have hnodup : ((selectedJoined host selector db).map joinedKey).Nodup :=
    nodup_joinedKey (hkeys.sublist (List.filter_sublist.map _))
  refine List.Perm.eq_of_pairwise (fun first second _ _ hlt hgt ↦ absurd hlt hgt.not_gt)
    ?_ (pairwise_lt_ranked (hnodup.sublist (List.filter_sublist.map _)))
    (((perm_ranked _ _).filter _).trans (perm_ranked joinedKey _).symm)
  have hdistinct : ((selectedJoined host selector db).map (selectionKey createdAt)).Nodup := by
    refine List.Nodup.of_map (fun key : Instant ×ₗ (ℕ ×ₗ (ℕ ×ₗ (ℕ ×ₗ (ℕ ×ₗ ℕ)))) ↦
      (ofLex (ofLex key).2).2) ?_
    rwa [List.map_map]
  refine (List.pairwise_filter.mpr ?_)
  refine (pairwise_lt_ranked hdistinct).imp fun {first second} hlt hfirst hsecond ↦ ?_
  rw [selectionKey, selectionKey, of_decide_eq_true hfirst, of_decide_eq_true hsecond] at hlt
  simpa only [Prod.Lex.toLex_lt_toLex, lt_self_iff_false, true_and, false_or] using hlt

/-- **A selection of whole documents is their rows, one document behind the other.** -/
theorem selectedRows_eq_flatten (hkeys : (db.semanticChunks.map fun row ↦ row.id).Nodup)
    (hwhole : selector.TakesWhole host db) : selectedRows host createdAt selector db =
      ((selectedDocuments host createdAt selector db).map (joinedRows host db)).flatten := by
  have hsorted : (selectedRows host createdAt selector db).Pairwise fun first second ↦
      toLex (createdAt first.documentId, first.documentId.toNat) ≤
        toLex (createdAt second.documentId, second.documentId.toNat) := by
    rw [selectedRows, List.pairwise_map]
    refine (pairwise_ranked (selectionKey createdAt) _).imp fun {first second} hle ↦ ?_
    simp only [selectionKey, Prod.Lex.toLex_le_toLex] at hle ⊢
    rcases hle with hlt | ⟨heq, hlt | ⟨hsame, -⟩⟩
    · exact .inl hlt
    · exact .inr ⟨heq, hlt.le⟩
    · exact .inr ⟨heq, hsame.le⟩
  have hblocks := flatten_fibers (fun first second : Uuid ↦
      toLex (createdAt first, first.toNat) ≤ toLex (createdAt second, second.toNat))
    (fun first second hle hge ↦ BitVec.eq_of_toNat_eq
      (Prod.mk.inj (toLex_inj.mp (hle.antisymm hge))).2) hsorted
  rw [← hblocks]
  refine congrArg List.flatten (List.map_congr_left fun documentId hselected ↦ ?_)
  rw [filter_selectedRows hkeys hwhole hselected]

end Documents

end TextReconstructionService

end DocStore
