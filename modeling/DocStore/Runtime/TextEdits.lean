import DocStore.Ingestion.RechunkedText
import DocStore.Runtime.ParagraphTexts

/-!
# What an edit of texts does

A call of the version service and an update of an entity write texts by statements of their own, but
to a reader of the document they do the same: the rows of the hierarchy stay at their places, and
metadata is only copied between the row of a chunk, its text row and its versions. So a record that
a publication left at a chunk can get lost but not come from anywhere else (`editEffect_of_apply`),
and the readers find the chunks of a document in the order in which they were (`EditEffect.places`).
-/

set_option autoImplicit false
set_option relaxedAutoImplicit false

namespace DocStore

open Foundation

/-! ### Where the metadata of versions comes from -/

/-- The chunks and the metadata of the versions. -/
def versionRecords (db : Db) : List (Uuid × Dict) :=
  db.semanticChunkVersions.map fun row ↦ (row.chunkUuid, row.blockMeta)

section Versions

variable {host : Host} {call : VersionCall} {chunkUuid : Uuid} {db middle next : Db}
  {row : SemanticChunkVersion} {operation : Text} {action : VersionAction} {reply : VersionReply}
  {chunk : SemanticChunkRow}

theorem versionRecords_of_activate
    (hactivate : activate call chunkUuid row operation db = .ok next) :
    versionRecords next = versionRecords db := by
  rw [activate_eq_ok hactivate]
  refine (map_updateWhere ?_ _).trans (map_updateWhere ?_ _)
  · exact fun _ ↦ rfl
  · exact fun _ ↦ rfl

theorem versionRecords_of_insertChunkVersion {versionNo : ℕ} {value : Text}
    {previous restored : Option Uuid} (hinsert : insertChunkVersion host call chunk versionNo value
      operation previous restored db = .ok (row, next)) :
    versionRecords next = versionRecords db ++ [(chunk.id, chunk.blockMeta)] := by
  have hadded := (insertsVersion_of_eq_ok hinsert).added
  have hown := (insertsVersion_of_eq_ok hinsert).ownChunk
  rw [hadded, versionRecords, List.map_append, List.map_singleton, hown,
    (spec_of_insertChunkVersion hinsert).2.1]
  rfl

theorem versionRecords_retireRow (versionId : Uuid) :
    versionRecords (retireRow call db versionId) = versionRecords db := by
  refine map_updateWhere ?_ _
  exact fun _ ↦ rfl

theorem versionRecords_deleteRow_subset (target : SemanticChunkVersion) :
    versionRecords (deleteRow db target) ⊆ versionRecords db := by
  intro record hrecord
  obtain ⟨version, hversion, rfl⟩ := List.mem_map.mp hrecord
  obtain ⟨old, hold, rfl⟩ := List.mem_map.mp hversion
  exact List.mem_map.mpr ⟨old, (mem_deleteWhere.mp hold).1, rfl⟩

/-- The versions of the next tables say of their metadata what those of the old ones say, or repeat
the metadata of a chunk row. -/
def RecordsFrom (db next : Db) (chunk : SemanticChunkRow) : Prop :=
  ∀ record ∈ versionRecords next,
    record ∈ versionRecords db ∨ record = (chunk.id, chunk.blockMeta)

theorem recordsFrom_of_subset (hsubset : versionRecords next ⊆ versionRecords db) :
    RecordsFrom db next chunk :=
  fun _ hrecord ↦ .inl (hsubset hrecord)

theorem recordsFrom_of_insert_activate {versionNo : ℕ} {value : Text}
    {previous restored : Option Uuid} {activation : Text}
    (hinsert : insertChunkVersion host call chunk versionNo value operation previous restored db =
      .ok (row, middle))
    (hactivate : activate call chunkUuid row activation middle = .ok next) :
    RecordsFrom db next chunk := by
  intro record hrecord
  rw [versionRecords_of_activate hactivate, versionRecords_of_insertChunkVersion hinsert] at hrecord
  exact (List.mem_append.mp hrecord).imp_right List.mem_singleton.mp

theorem recordsFrom_of_appendAndActivate {textValue : Text} {expected : Option ℤ}
    (hfound : lookup (fun row : SemanticChunkRow ↦ row.id) chunkUuid db.semanticChunks = some chunk)
    (happly : appendAndActivate host call chunkUuid db textValue operation expected =
      .ok (reply, next)) : RecordsFrom db next chunk := by
  obtain ⟨required, hrequire, happly⟩ := bind_eq_ok.mp happly
  obtain rfl := Option.some.inj (hfound.symm.trans (lookup_of_requireChunk hrequire))
  obtain ⟨-, -, happly⟩ := bind_eq_ok.mp happly
  dsimp only at happly
  split at happly
  · cases happly
    exact recordsFrom_of_subset (List.Subset.refl _)
  · obtain ⟨⟨row, inserted⟩, hinsert, happly⟩ := bind_eq_ok.mp happly
    obtain ⟨activated, hactivate, happly⟩ := bind_eq_ok.mp happly
    cases happly
    exact recordsFrom_of_insert_activate hinsert hactivate

theorem recordsFrom_of_restoreVersion {number : ℤ} {expected : Option ℤ}
    (hfound : lookup (fun row : SemanticChunkRow ↦ row.id) chunkUuid db.semanticChunks = some chunk)
    (happly : restoreVersion host call chunkUuid db number expected = .ok (reply, next)) :
    RecordsFrom db next chunk := by
  obtain ⟨wanted, -, happly⟩ := bind_eq_ok.mp happly
  obtain ⟨required, hrequire, happly⟩ := bind_eq_ok.mp happly
  obtain rfl := Option.some.inj (hfound.symm.trans (lookup_of_requireChunk hrequire))
  split at happly
  · cases happly
  · obtain ⟨-, -, happly⟩ := bind_eq_ok.mp happly
    obtain ⟨⟨row, inserted⟩, hinsert, happly⟩ := bind_eq_ok.mp happly
    obtain ⟨activated, hactivate, happly⟩ := bind_eq_ok.mp happly
    cases happly
    exact recordsFrom_of_insert_activate hinsert hactivate

theorem versionRecords_of_replaceCurrent {versionNo : ℕ} {replacement : Option ℕ}
    (hreplace : replaceCurrent call chunkUuid db row versionNo replacement = .ok next) :
    versionRecords next = versionRecords db := by
  unfold replaceCurrent at hreplace
  split at hreplace
  next =>
    unfold activateReplacement at hreplace
    split at hreplace
    · cases hreplace
    · split at hreplace
      · cases hreplace
      · exact versionRecords_of_activate hreplace
  next =>
    cases hreplace
    rfl

theorem recordsFrom_of_retireVersion {number : ℤ} {replacement : Option ℤ}
    (happly : retireVersion call chunkUuid db number replacement = .ok (reply, next)) :
    RecordsFrom db next chunk := by
  obtain ⟨wanted, -, happly⟩ := bind_eq_ok.mp happly
  obtain ⟨replacing, -, happly⟩ := bind_eq_ok.mp happly
  obtain ⟨required, -, happly⟩ := bind_eq_ok.mp happly
  split at happly
  · cases happly
  · obtain ⟨-, happly⟩ := raiseIf_bind_eq_ok.mp happly
    obtain ⟨replaced, hreplace, happly⟩ := bind_eq_ok.mp happly
    obtain ⟨-, happly⟩ := raiseIf_bind_eq_ok.mp happly
    cases happly
    refine recordsFrom_of_subset ?_
    rw [versionRecords_retireRow, versionRecords_of_replaceCurrent hreplace]
    exact List.Subset.refl _

theorem recordsFrom_of_setCurrentVersion {number : ℤ}
    (happly : setCurrentVersion call chunkUuid db number = .ok (reply, next)) :
    RecordsFrom db next chunk := by
  obtain ⟨wanted, -, happly⟩ := bind_eq_ok.mp happly
  obtain ⟨required, -, happly⟩ := bind_eq_ok.mp happly
  split at happly
  · cases happly
  · obtain ⟨activated, hactivate, happly⟩ := bind_eq_ok.mp happly
    cases happly
    refine recordsFrom_of_subset ?_
    rw [versionRecords_of_activate hactivate]
    exact List.Subset.refl _

theorem recordsFrom_of_deleteVersion {number : ℤ}
    (happly : deleteVersion call chunkUuid db number = .ok (reply, next)) :
    RecordsFrom db next chunk := by
  obtain ⟨wanted, -, happly⟩ := bind_eq_ok.mp happly
  obtain ⟨required, -, happly⟩ := bind_eq_ok.mp happly
  split at happly
  · cases happly
  · obtain ⟨-, happly⟩ := raiseIf_bind_eq_ok.mp happly
    rw [reactivateLatest_deleteRow] at happly
    cases happly
    exact recordsFrom_of_subset (versionRecords_deleteRow_subset _)

/-- **Where the metadata of the versions comes from.** No call of the version service brings in
metadata that neither a version nor the row of its chunk had. -/
theorem recordsFrom_of_apply (hfound : lookup (fun row : SemanticChunkRow ↦ row.id)
      action.chunkUuid db.semanticChunks = some chunk)
    (happly : action.apply host db = .ok (reply, next)) : RecordsFrom db next chunk := by
  obtain ⟨chunkUuid, call, operation⟩ := action
  cases operation with
  | appendVersion => exact recordsFrom_of_appendAndActivate hfound happly
  | updateText => exact recordsFrom_of_appendAndActivate hfound happly
  | restoreVersion => exact recordsFrom_of_restoreVersion hfound happly
  | setCurrent => exact recordsFrom_of_setCurrentVersion happly
  | retireVersion => exact recordsFrom_of_retireVersion happly
  | deleteVersion => exact recordsFrom_of_deleteVersion happly

end Versions

/-! ### What an edit does -/

/-- An edit of texts: a call of the version service, or an update of a chunk or a paragraph that
names neither its deletion nor, for a chunk, its metadata. -/
def TextChange.IsEdit : TextChange → Prop
  | .version _ => True
  | .updateChunk _ _ values =>
    values.blockMeta = none ∧ values.isDeleted = none ∧ values.deletedAt = none
  | .updateParagraph _ values => values.isDeleted = none ∧ values.deletedAt = none

/-- The record in metadata. -/
def pieceRecord (metadata : Dict) : Option Json := getKey metadata exactReconstructionKey

/-- A text row, a version or the row of a chunk has a record. -/
inductive Db.HasRecord (db : Db) (chunkUuid : Uuid) : Option Json → Prop
  | none : HasRecord db chunkUuid none
  | text {row : SemanticChunkText} (hrow : row ∈ db.semanticChunkTexts)
      (hchunk : row.chunkUuid = chunkUuid) : HasRecord db chunkUuid (pieceRecord row.blockMeta)
  | version {record : Uuid × Dict} (hrecord : record ∈ versionRecords db)
      (hchunk : record.1 = chunkUuid) : HasRecord db chunkUuid (pieceRecord record.2)
  | chunk {row : SemanticChunkRow} (hrow : row ∈ db.semanticChunks) (hchunk : row.id = chunkUuid) :
      HasRecord db chunkUuid (pieceRecord row.blockMeta)

/-- A chunk row before and after an edit: it stays at its place, and its metadata has the same
record. -/
structure SamePlace (row next : SemanticChunkRow) : Prop where
  id : next.id = row.id
  documentId : next.documentId = row.documentId
  paragraphId : next.paragraphId = row.paragraphId
  chapterId : next.chapterId = row.chapterId
  orderIndex : next.orderIndex = row.orderIndex
  live : next.isLive = row.isLive
  record : pieceRecord next.blockMeta = pieceRecord row.blockMeta

/-- A paragraph row before and after an edit. -/
structure SameParagraph (row next : ParagraphRow) : Prop where
  id : next.id = row.id
  orderIndex : next.orderIndex = row.orderIndex
  live : next.isLive = row.isLive

/-- What an edit does to the tables that a reader joins: every row stays at its place, and no record
turns up at a chunk that was not at the chunk before. -/
structure EditEffect (db next : Db) : Prop where
  documents : next.documents = db.documents
  chapters : next.chapters = db.chapters
  paragraphs : ∃ change, next.paragraphs = db.paragraphs.map change ∧
    ∀ row, SameParagraph row (change row)
  chunks : ∃ change, next.semanticChunks = db.semanticChunks.map change ∧
    ∀ row ∈ db.semanticChunks, SamePlace row (change row)
  covered : ∀ id, (db.textRow id).isSome = true → (next.textRow id).isSome = true
  texts : ∀ row ∈ next.semanticChunkTexts, db.HasRecord row.chunkUuid (pieceRecord row.blockMeta)
  versions : ∀ record ∈ versionRecords next, db.HasRecord record.1 (pieceRecord record.2)

section Edits

variable {host : Host} {db next : Db} {chunkUuid : Uuid} {chunk : SemanticChunkRow}

theorem SamePlace.refl (row : SemanticChunkRow) : SamePlace row row :=
  ⟨rfl, rfl, rfl, rfl, rfl, rfl, rfl⟩

theorem SameParagraph.refl (row : ParagraphRow) : SameParagraph row row :=
  ⟨rfl, rfl, rfl⟩

theorem exists_map_self {ρ : Type} (rows : List ρ) {same : ρ → ρ → Prop}
    (hrefl : ∀ row, same row row) :
    ∃ change, rows = rows.map change ∧ ∀ row, same row (change row) :=
  ⟨id, (List.map_id rows).symm, hrefl⟩

/-- The reset of metadata leaves the record alone. -/
@[simp] theorem pieceRecord_resetSemanticChunkBlockMeta (metadata : Dict) :
    pieceRecord (resetSemanticChunkBlockMeta metadata) = pieceRecord metadata := by
  rw [pieceRecord, resetSemanticChunkBlockMeta, getKey_setKey_of_ne _ _ (by decide),
    getKey_setKey_of_ne _ _ (by decide), getKey_popKeys_of_notMem _ (by decide)]
  rfl

/-- A version that is found has its record. -/
theorem hasRecord_of_version {versionNo : ℕ} {row : SemanticChunkVersion}
    (hversion : db.version chunkUuid versionNo = some row) :
    db.HasRecord chunkUuid (pieceRecord row.blockMeta) := by
  have hmem : (row.chunkUuid, row.blockMeta) ∈ versionRecords db :=
    List.mem_map_of_mem (List.mem_of_find?_eq_some hversion)
  have hnamed : row.chunkUuid = chunkUuid ∧ row.versionNo = versionNo := by
    simpa using List.find?_some hversion
  exact .version hmem hnamed.1

/-- What a call writes into a text row was recorded at its chunk. -/
theorem hasRecord_of_written {action : VersionAction} {text : Text} {textMeta : Dict}
    (hchunk : chunk ∈ db.semanticChunks) (hid : chunk.id = action.chunkUuid)
    (hwritten : action.written chunk db = some (text, textMeta)) :
    db.HasRecord action.chunkUuid (pieceRecord textMeta) := by
  have hnumbered : ∀ {versionNo : ℕ} {written : Text × Dict},
      ((db.version action.chunkUuid versionNo).map fun row ↦ (row.text, row.blockMeta)) =
        some written → db.HasRecord action.chunkUuid (pieceRecord written.2) := by
    intro versionNo written hwritten
    obtain ⟨row, hversion, rfl⟩ := Option.map_eq_some_iff.mp hwritten
    exact hasRecord_of_version hversion
  unfold VersionAction.written at hwritten
  dsimp only at hwritten
  split at hwritten
  · split at hwritten
    · cases hwritten
    · cases hwritten
      exact .chunk hchunk hid
  · split at hwritten
    · cases hwritten
    · cases hwritten
      exact .chunk hchunk hid
  · obtain ⟨version, -, hmeta⟩ := Option.map_eq_some_iff.mp hwritten
    cases hmeta
    exact .chunk hchunk hid
  · exact hnumbered hwritten
  · split at hwritten
    · obtain ⟨number, -, hwritten⟩ := Option.bind_eq_some_iff.mp hwritten
      exact hnumbered hwritten
    · cases hwritten
  · cases hwritten

/-- A call of the version service is an edit. -/
theorem editEffect_of_version {action : VersionAction} {reply : VersionReply}
    (happly : action.apply host db = .ok (reply, next)) : EditEffect db next := by
  obtain ⟨chunk, hfound⟩ := exists_chunk_of_apply happly
  obtain ⟨hchunk, hid⟩ := mem_of_lookup hfound
  have hversions : ∀ record ∈ versionRecords next,
      db.HasRecord record.1 (pieceRecord record.2) := by
    intro record hrecord
    rcases recordsFrom_of_apply hfound happly record hrecord with hold | rfl
    · exact .version hold rfl
    · exact .chunk hchunk rfl
  have hwrites := writesText_of_apply hfound happly
  cases hwritten : action.written chunk db with
  | none =>
    rw [hwritten] at hwrites
    obtain ⟨hdocuments, hchapters, hparagraphs, hchunks, htexts⟩ := TextTables.mk.inj hwrites
    refine ⟨hdocuments, hchapters, hparagraphs ▸ exists_map_self _ SameParagraph.refl, ?_, ?_, ?_,
      hversions⟩
    · obtain ⟨change, hchange, hsame⟩ := exists_map_self db.semanticChunks SamePlace.refl
      exact ⟨change, hchunks.trans hchange, fun row _ ↦ hsame row⟩
    · intro id hcovered
      rwa [Db.textRow, htexts]
    · intro row hrow
      exact .text (htexts ▸ hrow) rfl
  | some written =>
    obtain ⟨text, textMeta⟩ := written
    rw [hwritten] at hwrites
    obtain ⟨row, -, hmeta, htables⟩ := hwrites
    obtain ⟨hdocuments, hchapters, hparagraphs, hchunks, htexts⟩ := TextTables.mk.inj htables
    refine ⟨hdocuments, hchapters, hparagraphs ▸ exists_map_self _ SameParagraph.refl,
      ⟨_, hchunks, fun old _ ↦ ?_⟩, ?_, ?_, hversions⟩
    · dsimp only
      split
      · exact ⟨rfl, rfl, rfl, rfl, rfl, rfl, rfl⟩
      · exact SamePlace.refl old
    · intro id hcovered
      rw [Db.textRow, htexts, projectText, lookup_updateWhere (by intro _; rfl), Option.isSome_map]
      exact hcovered
    · intro new hnew
      rw [htexts] at hnew
      obtain ⟨old, hold, rfl⟩ := mem_updateWhere.mp hnew
      split
      next howner =>
        have hown : old.chunkUuid = action.chunkUuid := of_decide_eq_true howner
        exact hown ▸ hmeta ▸ hasRecord_of_written hchunk hid hwritten
      next => exact .text hold rfl

variable {call : TextCall} {values : TextValues}

/-- The metadata of a text that an update of the entity writes. -/
theorem hasRecord_resetTextMeta (hchunk : chunk ∈ db.semanticChunks) :
    db.HasRecord chunk.id (pieceRecord (resetTextMeta chunk.blockMeta
      ((db.textRow chunk.id).map SemanticChunkText.blockMeta))) := by
  cases hrow : db.textRow chunk.id with
  | none =>
    simp only [Option.map_none, resetTextMeta, pieceRecord_resetSemanticChunkBlockMeta]
    exact .chunk hchunk rfl
  | some row =>
    obtain ⟨hmem, hid⟩ := mem_of_lookup hrow
    simp only [Option.map_some, resetTextMeta, pieceRecord_resetSemanticChunkBlockMeta]
    split
    · cases ‹some _ = none›
    · rw [pieceRecord_resetSemanticChunkBlockMeta]
      exact .chunk hchunk rfl
    next hsome =>
      cases hsome
      exact .text hmem hid

/-- An update of a chunk brings in the metadata that it writes with the text, if any. -/
theorem versionRecords_of_updateChunkValues
    (hfound : lookup (fun row : SemanticChunkRow ↦ row.id) chunkUuid db.semanticChunks = some chunk)
    (hplain : values.blockMeta = none)
    (hupdate : updateChunkValues host call chunkUuid values db = .ok next) :
    ∀ record ∈ versionRecords next, record ∈ versionRecords db ∨
      record = (chunk.id, resetTextMeta chunk.blockMeta
        ((db.textRow chunk.id).map SemanticChunkText.blockMeta)) := by
  obtain ⟨hchunk, rfl⟩ := mem_of_lookup hfound
  obtain ⟨-, hupdate⟩ := raiseIf_bind_eq_ok.mp hupdate
  obtain ⟨-, -, hupdate⟩ := bind_eq_ok.mp hupdate
  obtain ⟨-, hupdate⟩ := raiseIf_bind_eq_ok.mp hupdate
  obtain ⟨-, -, hupdate⟩ := bind_eq_ok.mp hupdate
  dsimp only at hupdate
  split at hupdate
  next =>
    cases hupdate
    exact fun record hrecord ↦ .inl hrecord
  next textValue hvalue =>
    obtain ⟨required, hrequire, hupdate⟩ := bind_eq_ok.mp hupdate
    split at hupdate
    next =>
      cases hupdate
      exact fun record hrecord ↦ .inl hrecord
    next =>
      have hassigned : lookup (fun row : SemanticChunkRow ↦ row.id) chunk.id
          (assignChunkValues chunk.id values db).semanticChunks =
            some (values.assignChunk chunk) := by
        rw [assignChunkValues, lookup_updateWhere (by intro _; rfl), hfound, Option.map_some,
          if_pos (decide_eq_true rfl)]
        rfl
      obtain rfl := Option.some.inj (hassigned.symm.trans (lookup_of_requireChunk hrequire))
      obtain ⟨inserted, hinsert, hupdate⟩ := bind_eq_ok.mp hupdate
      obtain ⟨-, rfl⟩ := Db.insertVersion_eq_ok.mp hinsert
      obtain ⟨pointing, hpoint, hupdate⟩ := bind_eq_ok.mp hupdate
      obtain ⟨-, hpoint⟩ := raiseIf_bind_eq_ok.mp hpoint
      obtain ⟨-, hpoint⟩ := raiseIf_bind_eq_ok.mp hpoint
      cases hpoint
      cases hupdate
      intro record hrecord
      have hmeta : (values.assignChunk chunk).blockMeta = chunk.blockMeta := by
        rw [TextValues.assignChunk, hplain]
        rfl
      have hrepointed : ∀ versions : List SemanticChunkVersion,
          (updateWhere (fun row ↦ row.id = call.versionId) (fun row ↦ { row with
              isCurrent := true
              status := .active
              validTo := none })
            (updateWhere (fun row ↦ Db.pointedVersion (assignChunkValues chunk.id values db)
              chunk.id = some row.id) (fun row ↦ row.retired call.now) versions)).map
                (fun row ↦ (row.chunkUuid, row.blockMeta)) =
            versions.map fun row ↦ (row.chunkUuid, row.blockMeta) := by
        intro versions
        refine (map_updateWhere ?_ _).trans (map_updateWhere ?_ _)
        · exact fun _ ↦ rfl
        · exact fun _ ↦ rfl
      have hadded := (congrArg (record ∈ ·) (hrepointed _)).mp hrecord
      rw [List.map_append, List.mem_append, List.map_singleton, List.mem_singleton] at hadded
      refine hadded.imp_right fun hnew ↦ ?_
      rw [hnew, ← hmeta]
      rfl

/-- The columns that an update assigns leave a chunk at its place. -/
theorem samePlace_assignChunk (hplain : values.blockMeta = none)
    (hdeleted : values.isDeleted = none) (hdeletedAt : values.deletedAt = none)
    (row : SemanticChunkRow) :
    SamePlace row (values.assignChunk row) := by
  refine ⟨rfl, rfl, rfl, rfl, rfl, ?_, ?_⟩
  · simp [TextValues.assignChunk, TextValues.assign, Lifecycle.isLive, hdeleted, hdeletedAt]
  · simp [TextValues.assignChunk, hplain]

/-- An update of a chunk is an edit when it names neither its metadata nor its deletion. -/
theorem editEffect_of_updateChunkValues (hkeys : (db.semanticChunks.map fun row ↦ row.id).Nodup)
    (hplain : values.blockMeta = none) (hdeleted : values.isDeleted = none)
    (hdeletedAt : values.deletedAt = none)
    (hupdate : updateChunkValues host call chunkUuid values db = .ok next) :
    EditEffect db next := by
  obtain ⟨chunk, hfound⟩ := exists_chunk_of_updateChunkValues hupdate
  obtain ⟨hchunk, hid⟩ := mem_of_lookup hfound
  have hversions : ∀ record ∈ versionRecords next,
      db.HasRecord record.1 (pieceRecord record.2) := by
    intro record hrecord
    rcases versionRecords_of_updateChunkValues hfound hplain hupdate record hrecord with hold | rfl
    · exact .version hold rfl
    · exact hasRecord_resetTextMeta hchunk
  have hassigned := samePlace_assignChunk hplain hdeleted hdeletedAt
  have htables := textTables_of_updateChunkValues hfound hupdate
  split at htables
  next =>
    obtain ⟨hdocuments, hchapters, hparagraphs, hchunks, htexts⟩ := TextTables.mk.inj htables
    refine ⟨hdocuments, hchapters, hparagraphs ▸ exists_map_self _ SameParagraph.refl,
      ⟨_, hchunks, fun old _ ↦ ?_⟩, ?_, ?_, hversions⟩
    · dsimp only
      split
      · exact hassigned old
      · exact SamePlace.refl old
    · intro id hcovered
      rw [Db.textRow, htexts]
      exact hcovered
    · intro row hrow
      exact .text (htexts ▸ hrow) rfl
  next text hsome =>
    obtain ⟨hdocuments, hchapters, hparagraphs, hchunks, htexts⟩ := TextTables.mk.inj htables
    have htwice := hchunks.trans (@updateWhere_updateWhere SemanticChunkRow
      (fun row ↦ row.id = chunkUuid) values.assignChunk (fun row ↦ { row with
        text := []
        charCount := text.length
        blockMeta := resetSemanticChunkBlockMeta (values.blockMeta.getD chunk.blockMeta) })
      (fun _ hselected ↦ hselected) db.semanticChunks)
    have hmeta : values.blockMeta.getD chunk.blockMeta = chunk.blockMeta := by rw [hplain]; rfl
    refine ⟨hdocuments, hchapters, hparagraphs ▸ exists_map_self _ SameParagraph.refl,
      ⟨_, htwice, fun old hold ↦ ?_⟩, ?_, ?_, hversions⟩
    · dsimp only
      split
      next howner =>
        obtain rfl := List.inj_on_of_nodup_map hkeys hold hchunk
          ((of_decide_eq_true howner).trans hid.symm)
        obtain ⟨hsameId, hdocument, hparagraph, hchapter, horder, hlive, -⟩ := hassigned old
        refine ⟨hsameId, hdocument, hparagraph, hchapter, horder, hlive, ?_⟩
        rw [hmeta]
        exact pieceRecord_resetSemanticChunkBlockMeta old.blockMeta
      next => exact SamePlace.refl old
    · intro id hcovered
      rw [Db.textRow, htexts]
      by_cases hsame : id = chunkUuid
      · subst hsame
        obtain ⟨row, hrow, -⟩ := @textRow_storeText_self host id (assignChunkValues id values db)
          text (resetSemanticChunkBlockMeta (values.blockMeta.getD chunk.blockMeta))
          (resetTextMeta (values.blockMeta.getD chunk.blockMeta)
            ((db.textRow id).map SemanticChunkText.blockMeta))
        exact Option.isSome_iff_exists.mpr ⟨row, hrow⟩
      · exact (congrArg Option.isSome (textRow_storeText_of_ne hsame text _ _)).trans hcovered
    · intro row hrow
      rw [htexts] at hrow
      rcases mem_upsert hrow with rfl | hold
      · rw [hmeta]
        exact hid ▸ hasRecord_resetTextMeta hchunk
      · exact .text hold rfl

/-- An update of a paragraph is an edit when it does not name its deletion. -/
theorem editEffect_of_updateParagraphValues {paragraphId : Uuid}
    (hdeleted : values.isDeleted = none) (hdeletedAt : values.deletedAt = none)
    (hupdate : updateParagraphValues paragraphId values db = .ok next) : EditEffect db next := by
  obtain ⟨-, hupdate⟩ := raiseIf_bind_eq_ok.mp hupdate
  obtain ⟨-, hupdate⟩ := raiseIf_bind_eq_ok.mp hupdate
  obtain ⟨-, -, hupdate⟩ := bind_eq_ok.mp hupdate
  obtain ⟨-, hupdate⟩ := raiseIf_bind_eq_ok.mp hupdate
  cases hupdate
  obtain ⟨change, hchange, hsame⟩ := exists_map_self db.semanticChunks SamePlace.refl
  refine ⟨rfl, rfl, ⟨_, rfl, fun row ↦ ?_⟩, ⟨change, hchange, fun row _ ↦ hsame row⟩,
    fun _ hcovered ↦ hcovered, fun _ hrow ↦ .text hrow rfl, fun _ hrecord ↦ .version hrecord rfl⟩
  dsimp only
  split
  · exact ⟨rfl, rfl, by
      simp [TextValues.assign, Lifecycle.isLive, hdeleted, hdeletedAt]⟩
  · exact SameParagraph.refl row

/-- **What an edit does.** -/
theorem editEffect_of_apply {change : TextChange}
    (hkeys : (db.semanticChunks.map fun row ↦ row.id).Nodup) (hedit : change.IsEdit)
    (happly : change.apply host db = .ok next) : EditEffect db next := by
  cases change with
  | version action =>
    obtain ⟨⟨reply, next⟩, happly, hnext⟩ := bind_eq_ok.mp happly
    cases hnext
    exact editEffect_of_version happly
  | updateChunk call chunkUuid values =>
    exact editEffect_of_updateChunkValues hkeys hedit.1 hedit.2.1 hedit.2.2 happly
  | updateParagraph paragraphId values =>
    exact editEffect_of_updateParagraphValues hedit.1 hedit.2 happly

end Edits

/-! ### The rows of an edited document -/

/-- Where a row stands: its chunk and its paragraph. -/
def ChunkTextRow.place (row : ChunkTextRow) : Uuid × Uuid := (row.chunkId, row.paragraphId)

section Places

variable {host : Host} {db next : Db} {documentId : Uuid}

theorem joinChunk_of_not_live {chunk : SemanticChunkRow} (hnot : chunk.isLive = false) :
    joinChunk host db chunk = none := by
  simp [joinChunk, hnot]

/-- Every live chunk of a document has a text row. -/
def HasTexts (db : Db) (documentId : Uuid) : Prop :=
  ∀ chunk ∈ db.semanticChunks, chunk.documentId = documentId → chunk.isLive = true →
    (db.textRow chunk.id).isSome = true

/-- An edited chunk is joined exactly when it was joined before, and at the same place. -/
theorem EditEffect.place_joinChunk (heffect : EditEffect db next) {chunk edited : SemanticChunkRow}
    (hsame : SamePlace chunk edited)
    (hcovered : chunk.isLive = true → (db.textRow chunk.id).isSome = true) :
    (joinChunk host next edited).map (fun joined ↦ (joined.1, joined.2.place)) =
      (joinChunk host db chunk).map fun joined ↦ (joined.1, joined.2.place) := by
  cases hlive : chunk.isLive with
  | false => rw [joinChunk_of_not_live hlive, joinChunk_of_not_live (hsame.live.trans hlive)]
  | true =>
    obtain ⟨text, htext⟩ := Option.isSome_iff_exists.mp (hcovered hlive)
    obtain ⟨written, hwritten⟩ :=
      Option.isSome_iff_exists.mp (heffect.covered chunk.id (hcovered hlive))
    obtain ⟨change, hchange, hparagraphs⟩ := heffect.paragraphs
    have hparagraph : lookup (fun row : ParagraphRow ↦ row.id) chunk.paragraphId next.paragraphs =
        (lookup (fun row : ParagraphRow ↦ row.id) chunk.paragraphId db.paragraphs).map change := by
      rw [hchange, lookup, List.find?_map, lookup]
      congr 2
      funext row
      exact congrArg (fun id ↦ decide (id = chunk.paragraphId)) (hparagraphs row).id
    rw [Db.textRow] at htext hwritten
    simp only [joinChunk, hsame.id, hsame.paragraphId, hsame.chapterId, hsame.documentId,
      hsame.orderIndex, hsame.live, heffect.chapters, heffect.documents, htext, hwritten,
      hparagraph, Option.bind_eq_bind, Option.bind_some, Option.bind_map, Option.map_bind]
    cases lookup (fun row : ParagraphRow ↦ row.id) chunk.paragraphId db.paragraphs with
    | none => rfl
    | some paragraph =>
      cases lookup (fun row : ChapterRow ↦ row.id) chunk.chapterId db.chapters with
      | none => rfl
      | some chapter =>
        cases lookup (fun row : DocumentRow ↦ row.id) chunk.documentId db.documents with
        | none => rfl
        | some document =>
          simp only [Option.bind_some, Function.comp_apply, (hparagraphs paragraph).live,
            (hparagraphs paragraph).orderIndex]
          split <;> rfl

/-- **The rows of a document stay at their places.** -/
theorem EditEffect.places (heffect : EditEffect db next) (hcovered : HasTexts db documentId) :
    (joinedRows host next documentId).map ChunkTextRow.place =
      (joinedRows host db documentId).map ChunkTextRow.place := by
  obtain ⟨change, hchange, hsame⟩ := heffect.chunks
  have hsorted : ∀ tables : Db, (joinedRows host tables documentId).map ChunkTextRow.place =
      ((((tables.semanticChunks.filter fun chunk ↦ chunk.documentId = documentId).filterMap
        (joinChunk host tables)).map fun joined ↦ (joined.1, joined.2.place)).insertionSort
          fun first second ↦ first.1.before second.1 = true).map Prod.snd := by
    intro tables
    have hmap := List.map_insertionSort
      (fun first second : OrderKey × ChunkTextRow ↦ first.1.before second.1 = true)
      (fun first second : OrderKey × Uuid × Uuid ↦ first.1.before second.1 = true)
      (fun joined ↦ (joined.1, joined.2.place))
      ((tables.semanticChunks.filter fun chunk ↦ chunk.documentId = documentId).filterMap
        (joinChunk host tables)) fun _ _ _ _ ↦ Iff.rfl
    rw [← hmap, joinedRows, List.map_map, List.map_map]
    rfl
  have hfiltered : next.semanticChunks.filter (fun chunk ↦ chunk.documentId = documentId) =
      (db.semanticChunks.filter fun chunk ↦ chunk.documentId = documentId).map change := by
    rw [hchange, List.filter_map]
    refine congrArg (List.map change) (List.filter_congr fun chunk hchunk ↦ ?_)
    simp [(hsame chunk hchunk).documentId]
  rw [hsorted, hsorted, hfiltered, List.filterMap_map, List.map_filterMap, List.map_filterMap]
  refine congrArg (fun rows ↦ (List.insertionSort _ rows).map Prod.snd)
    (List.filterMap_congr fun chunk hmem ↦ ?_)
  obtain ⟨hchunk, hdocument⟩ := List.mem_filter.mp hmem
  exact heffect.place_joinChunk (hsame chunk hchunk)
    (hcovered chunk hchunk (of_decide_eq_true hdocument))

end Places

end DocStore
