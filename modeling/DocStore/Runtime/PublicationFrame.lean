import DocStore.Ingestion.ChapterOrder
import DocStore.Ingestion.Provenance
import DocStore.Runtime.EntityIds

/-!
# Publications and other documents

A publication marks and inserts rows of its own document, so the rows of another document, of its
chapters, paragraphs and chunks and of their texts stay as they are, whatever the tables are. Its
files it finds by their owners: `_retire_previous_files` takes every file that the document owns and
the file that owns the document, and `_write_file` the file of the new text. Nothing keeps such a
file from owning another document too. A publication that passes the gate leaves another document
alone exactly when the file that owns it is none of these, or already says what would be written in
it (`leavesDocument_of_publication`).
-/

set_option autoImplicit false
set_option relaxedAutoImplicit false

namespace DocStore

open Foundation

/-! ### The rows of another document -/

/-- Only rows of one document and of new chunks are written. -/
structure WritesOnly (documentId : Uuid) (chunkIds : List Uuid) (db next : Db) : Prop where
  chapters : ∀ other, other ≠ documentId →
    next.chapters.filter (fun row ↦ row.documentId = other) =
      db.chapters.filter fun row ↦ row.documentId = other
  paragraphs : ∀ other, other ≠ documentId →
    next.paragraphs.filter (fun row ↦ row.documentId = other) =
      db.paragraphs.filter fun row ↦ row.documentId = other
  chunks : ∀ other, other ≠ documentId →
    next.semanticChunks.filter (fun row ↦ row.documentId = other) =
      db.semanticChunks.filter fun row ↦ row.documentId = other
  ids : next.semanticChunks.map (fun row ↦ row.id) =
    db.semanticChunks.map (fun row ↦ row.id) ++ chunkIds
  texts : ∀ id ∉ chunkIds, next.semanticChunkTexts.filter (fun row ↦ row.chunkUuid = id) =
    db.semanticChunkTexts.filter fun row ↦ row.chunkUuid = id
  versions : ∀ id ∉ chunkIds, next.semanticChunkVersions.filter (fun row ↦ row.chunkUuid = id) =
    db.semanticChunkVersions.filter fun row ↦ row.chunkUuid = id
  current : ∀ id ∉ chunkIds, next.semanticChunkCurrent.filter (fun row ↦ row.chunkUuid = id) =
    db.semanticChunkCurrent.filter fun row ↦ row.chunkUuid = id

section Writing

variable {host : Host} {ids : PublicationIds} {plan : PersistencePlan} {db middle next : Db}
  {documentId : Uuid}

theorem WritesOnly.refl (documentId : Uuid) (db : Db) : WritesOnly documentId [] db db where
  chapters _ _ := rfl
  paragraphs _ _ := rfl
  chunks _ _ := rfl
  ids := (List.append_nil _).symm
  texts _ _ := rfl
  versions _ _ := rfl
  current _ _ := rfl

theorem WritesOnly.trans {earlier later : List Uuid}
    (hfirst : WritesOnly documentId earlier db middle)
    (hsecond : WritesOnly documentId later middle next) :
    WritesOnly documentId (earlier ++ later) db next where
  chapters other hne := (hsecond.chapters other hne).trans (hfirst.chapters other hne)
  paragraphs other hne := (hsecond.paragraphs other hne).trans (hfirst.paragraphs other hne)
  chunks other hne := (hsecond.chunks other hne).trans (hfirst.chunks other hne)
  ids := by rw [hsecond.ids, hfirst.ids, List.append_assoc]
  texts id hid := by
    rw [List.mem_append, not_or] at hid
    exact (hsecond.texts id hid.2).trans (hfirst.texts id hid.1)
  versions id hid := by
    rw [List.mem_append, not_or] at hid
    exact (hsecond.versions id hid.2).trans (hfirst.versions id hid.1)
  current id hid := by
    rw [List.mem_append, not_or] at hid
    exact (hsecond.current id hid.2).trans (hfirst.current id hid.1)

/-- The tables of the hierarchy are the same. -/
theorem WritesOnly.of_same (hchapters : next.chapters = db.chapters)
    (hparagraphs : next.paragraphs = db.paragraphs)
    (hchunks : next.semanticChunks = db.semanticChunks)
    (htexts : next.semanticChunkTexts = db.semanticChunkTexts)
    (hversions : next.semanticChunkVersions = db.semanticChunkVersions)
    (hcurrent : next.semanticChunkCurrent = db.semanticChunkCurrent) :
    WritesOnly documentId [] db next where
  chapters _ _ := by rw [hchapters]
  paragraphs _ _ := by rw [hparagraphs]
  chunks _ _ := by rw [hchunks]
  ids := by rw [hchunks, List.append_nil]
  texts _ _ := by rw [htexts]
  versions _ _ := by rw [hversions]
  current _ _ := by rw [hcurrent]

/-- Rows of the document are marked. -/
theorem filter_marked {ρ : Type} {key : ρ → Uuid} {selected : ρ → Bool} {change : ρ → ρ}
    {other : Uuid} (hne : other ≠ documentId)
    (hselected : ∀ row, selected row = true → key row = documentId)
    (hkeep : ∀ row, key (change row) = key row) (rows : List ρ) :
    (updateWhere selected change rows).filter (fun row ↦ key row = other) =
      rows.filter fun row ↦ key row = other := by
  refine filter_updateWhere_of_not fun row _ hrow ↦ ?_
  have hapart : key row ≠ other := (hselected row hrow).trans_ne hne.symm
  exact ⟨decide_eq_false hapart, decide_eq_false ((hkeep row).trans_ne hapart)⟩

theorem writesOnly_of_markExisting {now : Instant}
    (hmark : markExistingHierarchyDeleted now documentId db = .ok next) :
    WritesOnly documentId [] db next := by
  have hchapters : ∀ other, other ≠ documentId →
      documentChapters other next = documentChapters other db :=
    fun other hne ↦ documentChapters_of_markExisting hne hmark
  obtain ⟨-, hnext⟩ := raiseIf_bind_eq_ok.mp hmark
  cases hnext
  have hselected : ∀ rowDocument : Uuid, ∀ deletedAt : Option Instant,
      (decide (rowDocument = documentId) && deletedAt.isNone) = true → rowDocument = documentId :=
    fun _ _ hrow ↦ of_decide_eq_true (Bool.and_eq_true_iff.mp hrow).1
  exact
    { chapters := hchapters
      paragraphs := fun other hne ↦
        filter_marked hne (fun row : ParagraphRow ↦ hselected row.documentId row.deletedAt)
          (by intro _; rfl) _
      chunks := fun other hne ↦
        filter_marked hne (fun row : SemanticChunkRow ↦ hselected row.documentId row.deletedAt)
          (by intro _; rfl) _
      ids := by
        rw [List.append_nil]
        exact map_updateWhere (by intro _; rfl) db.semanticChunks
      texts := fun _ _ ↦ rfl
      versions := fun _ _ ↦ rfl
      current := fun _ _ ↦ rfl }

/-- A row of the document is not a row of another one. -/
theorem filter_append_of_ne {ρ κ : Type} [DecidableEq κ] (key : ρ → κ) {row : ρ} {wanted : κ}
    (hne : key row ≠ wanted) (rows : List ρ) :
    (rows ++ [row]).filter (fun row ↦ key row = wanted) =
      rows.filter fun row ↦ key row = wanted := by
  rw [List.filter_append, List.filter_singleton]
  simp [hne]

theorem writesOnly_of_insertChapter {row : ChapterRow}
    (hinsert : db.insertChapter row = .ok next) : WritesOnly row.documentId [] db next := by
  obtain ⟨-, -, rfl⟩ := Db.insertChapter_eq_ok.mp hinsert
  exact
    { WritesOnly.refl row.documentId db with
      chapters := fun other hne ↦ filter_append_of_ne ChapterRow.documentId hne.symm _ }

theorem writesOnly_of_insertParagraph {row : ParagraphRow}
    (hinsert : db.insertParagraph row = .ok next) : WritesOnly row.documentId [] db next := by
  obtain ⟨-, -, rfl⟩ := Db.insertParagraph_eq_ok.mp hinsert
  exact
    { WritesOnly.refl row.documentId db with
      paragraphs := fun other hne ↦ filter_append_of_ne ParagraphRow.documentId hne.symm _ }

/-- The first version of a chunk and the pointer to it. -/
theorem writesOnly_of_insertInitialVersion {version : SemanticChunkVersion}
    (hinsert : insertInitialVersion version db = .ok next) :
    next.chapters = db.chapters ∧ next.paragraphs = db.paragraphs ∧
      next.semanticChunks = db.semanticChunks ∧
      next.semanticChunkTexts = db.semanticChunkTexts ∧
      (∀ id, id ≠ version.chunkUuid →
        next.semanticChunkVersions.filter (fun row ↦ row.chunkUuid = id) =
          db.semanticChunkVersions.filter fun row ↦ row.chunkUuid = id) ∧
      ∀ id, id ≠ version.chunkUuid →
        next.semanticChunkCurrent.filter (fun row ↦ row.chunkUuid = id) =
          db.semanticChunkCurrent.filter fun row ↦ row.chunkUuid = id := by
  have hpointer : ∀ (pointer : SemanticChunkCurrent) (rows : List SemanticChunkCurrent) (id : Uuid),
      id ≠ pointer.chunkUuid →
      (upsert SemanticChunkCurrent.chunkUuid pointer (fun _ ↦ pointer) rows).filter
        (fun row ↦ row.chunkUuid = id) = rows.filter fun row ↦ row.chunkUuid = id := by
    intro pointer rows id hne
    unfold upsert
    split
    · refine filter_updateWhere_of_not fun row _ hrow ↦ ?_
      have hkey : row.chunkUuid = pointer.chunkUuid := of_decide_eq_true hrow
      exact ⟨decide_eq_false (hkey.trans_ne hne.symm), decide_eq_false hne.symm⟩
    · exact filter_append_of_ne SemanticChunkCurrent.chunkUuid hne.symm _
  unfold insertInitialVersion at hinsert
  split at hinsert
  · obtain ⟨-, rfl⟩ := Db.setCurrent_eq_ok.mp hinsert
    exact ⟨rfl, rfl, rfl, rfl, fun _ _ ↦ rfl, fun id hne ↦ hpointer _ _ id hne⟩
  · obtain ⟨inserted, hversion, hcurrent⟩ := bind_eq_ok.mp hinsert
    obtain ⟨-, rfl⟩ := Db.insertVersion_eq_ok.mp hversion
    obtain ⟨-, rfl⟩ := Db.setCurrent_eq_ok.mp hcurrent
    refine ⟨rfl, rfl, rfl, rfl, fun id hne ↦ ?_, fun id hne ↦ hpointer _ _ id hne⟩
    exact filter_append_of_ne SemanticChunkVersion.chunkUuid hne.symm _

theorem writesOnly_of_writeSentenceRows {rows : SentenceRows} (hlinked : rows.Linked)
    (hwrite : writeSentenceRows rows db = .ok next) :
    WritesOnly rows.chunk.documentId [rows.chunk.id] db next := by
  obtain ⟨chunked, hchunk, hwrite⟩ := bind_eq_ok.mp hwrite
  obtain ⟨texted, htext, hversion⟩ := bind_eq_ok.mp hwrite
  obtain ⟨-, -, -, rfl⟩ := Db.insertSemanticChunk_eq_ok.mp hchunk
  obtain ⟨-, rfl⟩ := Db.insertText_eq_ok.mp htext
  obtain ⟨hchapters, hparagraphs, hchunks, htexts, hversions, hcurrent⟩ :=
    writesOnly_of_insertInitialVersion hversion
  rw [hlinked.version] at hversions hcurrent
  exact
    { chapters := fun _ _ ↦ by rw [hchapters]
      paragraphs := fun _ _ ↦ by rw [hparagraphs]
      chunks := fun other hne ↦ by
        rw [hchunks]
        exact filter_append_of_ne SemanticChunkRow.documentId hne.symm _
      ids := by rw [hchunks, List.map_append, List.map_singleton]
      texts := fun id hid ↦ by
        rw [htexts]
        refine filter_append_of_ne SemanticChunkText.chunkUuid ?_ _
        exact hlinked.text.trans_ne fun heq ↦ hid (List.mem_singleton.mpr heq.symm)
      versions := fun id hid ↦ hversions id fun heq ↦ hid (List.mem_singleton.mpr heq)
      current := fun id hid ↦ hcurrent id fun heq ↦ hid (List.mem_singleton.mpr heq) }

theorem writesOnly_of_writeSentences {orderIndex : ℕ} {paragraph : RuntimeChunk}
    {entries : List (RuntimeChunk × ExactReconstructionPiece)}
    (hwrite : writeSentences host ids plan orderIndex paragraph entries db = .ok next) :
    WritesOnly plan.documentId (entries.map fun entry ↦ entry.1.uuid) db next := by
  induction entries generalizing db with
  | nil =>
    cases hwrite
    exact WritesOnly.refl _ _
  | cons entry entries ih =>
    obtain ⟨written, hfirst, hrest⟩ := bind_eq_ok.mp hwrite
    obtain ⟨_, -, hrows⟩ := bind_eq_ok.mp hfirst
    exact (writesOnly_of_writeSentenceRows (linked_sentenceRows _ _ _) hrows).trans (ih hrest)

theorem writesOnly_of_writeParagraphs {orderIndex : ℕ} {paragraphs : List PlannedParagraph}
    (hwrite : writeParagraphs host ids plan orderIndex paragraphs db = .ok next) :
    WritesOnly plan.documentId ((plannedSentences paragraphs).map fun entry ↦ entry.1.uuid) db
      next := by
  induction paragraphs generalizing db orderIndex with
  | nil =>
    cases hwrite
    exact WritesOnly.refl _ _
  | cons planned rest ih =>
    obtain ⟨inserted, hparagraph, hwrite⟩ := bind_eq_ok.mp hwrite
    obtain ⟨written, hsentences, hrest⟩ := bind_eq_ok.mp hwrite
    have hwritten := (writesOnly_of_insertParagraph hparagraph).trans
      (writesOnly_of_writeSentences hsentences)
    rw [plannedSentences, List.flatMap_cons, List.map_append]
    exact hwritten.trans (ih hrest)

/-- A written hierarchy adds the chunks of the plan, and leaves other documents alone. -/
theorem writesOnly_of_writeHierarchy {primarySourceId : Uuid} {paragraphs : List PlannedParagraph}
    (hwrite : writeHierarchy host ids plan primarySourceId paragraphs db = .ok next) :
    WritesOnly plan.documentId ((plannedSentences paragraphs).map fun entry ↦ entry.1.uuid) db
      next := by
  obtain ⟨prepared, hprepare, hparagraphs⟩ := bind_eq_ok.mp hwrite
  obtain ⟨marked, hmark, hprepare⟩ := bind_eq_ok.mp hprepare
  obtain ⟨filed, hfile, hprepare⟩ := bind_eq_ok.mp hprepare
  obtain ⟨documented, hdocument, hchapter⟩ := bind_eq_ok.mp hprepare
  have hfiled : WritesOnly plan.documentId [] marked filed := by
    obtain ⟨_, _, rfl⟩ := exists_of_writeFile hfile
    exact WritesOnly.of_same rfl rfl rfl rfl rfl rfl
  have hdocumented : WritesOnly plan.documentId [] filed documented := by
    obtain ⟨_, _, rfl⟩ := exists_of_writeDocument hdocument
    exact WritesOnly.of_same rfl rfl rfl rfl rfl rfl
  have hprepared := ((writesOnly_of_markExisting hmark).trans hfiled).trans hdocumented
  exact (hprepared.trans (writesOnly_of_insertChapter hchapter)).trans
    (writesOnly_of_writeParagraphs hparagraphs)

end Writing

/-! ### The file of another document -/

/-- The owner of a document. -/
def Db.ownerOf (db : Db) (documentId : Uuid) : Option Uuid :=
  (lookup (fun row : DocumentRow ↦ row.id) documentId db.documents).bind fun row ↦ row.ownerId

/-- The file that owns a document. -/
def Db.ownerFile (db : Db) (documentId : Uuid) : Option FileRow :=
  (db.ownerOf documentId).bind fun id ↦ lookup (fun row : FileRow ↦ row.id) id db.files

/-- What `_write_file` makes of a file that is there. -/
def writtenFile (plan : PersistencePlan) (old : FileRow) : FileRow :=
  { fileRow plan old.primarySourceId with ownerId := old.ownerId }

/-- Whether `_retire_previous_files` takes a file. -/
def Db.retires (db : Db) (documentId : Uuid) (file : FileRow) : Bool :=
  file.ownerId = some documentId || some file.id = db.ownerOf documentId

/-- A publication leaves a file as it is: what it writes in it is there already, or it neither
writes nor retires it. -/
structure KeepsFile (plan : PersistencePlan) (now : Instant) (db : Db) (file : FileRow) : Prop where
  written : file.id = plan.fileId → writtenFile plan file = file
  retired : file.id ≠ plan.fileId → db.retires plan.documentId file = true →
    file.toLifecycle = .deletedNow now

/-- What a publication makes of a file. -/
def publishedFile (plan : PersistencePlan) (now : Instant) (db : Db) (file : FileRow) : FileRow :=
  if file.id = plan.fileId then writtenFile plan file
  else if db.retires plan.documentId file then { file with toLifecycle := .deletedNow now }
  else file

theorem publishedFile_eq_iff {plan : PersistencePlan} {now : Instant} {db : Db} {file : FileRow} :
    publishedFile plan now db file = file ↔ KeepsFile plan now db file := by
  have hmarked : ({ file with toLifecycle := .deletedNow now } : FileRow) = file ↔
      file.toLifecycle = .deletedNow now :=
    ⟨fun heq ↦ (congrArg (fun row : FileRow ↦ row.toLifecycle) heq).symm,
      fun heq ↦ by rw [← heq]⟩
  unfold publishedFile
  by_cases hid : file.id = plan.fileId
  · rw [if_pos hid]
    exact ⟨fun heq ↦ ⟨fun _ ↦ heq, fun hne ↦ absurd hid hne⟩, fun hkeeps ↦ hkeeps.written hid⟩
  · rw [if_neg hid]
    by_cases hretires : db.retires plan.documentId file = true
    · rw [if_pos hretires, hmarked]
      exact ⟨fun heq ↦ ⟨fun hsame ↦ absurd hsame hid, fun _ _ ↦ heq⟩,
        fun hkeeps ↦ hkeeps.retired hid hretires⟩
    · rw [if_neg hretires]
      exact ⟨fun _ ↦ ⟨fun hsame ↦ absurd hsame hid, fun _ htrue ↦ absurd htrue hretires⟩,
        fun _ ↦ rfl⟩

section Files

variable {host : Host} {ids : PublicationIds} {plan : PersistencePlan} {db next : Db}

/-- Writing the file of a plan leaves the other files alone. -/
theorem lookup_writeFile {primarySourceId id : Uuid} {file : FileRow}
    (hwrite : writeFile plan primarySourceId db = .ok next)
    (hfile : lookup (fun row : FileRow ↦ row.id) id db.files = some file) :
    lookup (fun row : FileRow ↦ row.id) id next.files =
      some (if file.id = plan.fileId then writtenFile plan file else file) := by
  obtain ⟨hmem, hid⟩ := mem_of_lookup hfile
  unfold writeFile at hwrite
  split at hwrite
  · cases hwrite
    by_cases hsame : id = plan.fileId
    · subst hsame
      rw [if_pos hid]
      exact lookup_updateWhere_self (fun _ _ ↦ rfl) hfile
    · rw [if_neg (hid.trans_ne hsame)]
      rw [← hfile]
      exact lookup_updateWhere_of_ne _ (fun _ _ ↦ rfl) hsame
  next habsent =>
    obtain ⟨-, hwrite⟩ := Db.register_bind_eq_ok.mp hwrite
    obtain ⟨-, hnext⟩ := raiseIf_bind_eq_ok.mp hwrite
    cases hnext
    have hother : file.id ≠ plan.fileId :=
      hasKey_eq_false.mp (Bool.eq_false_iff.mpr habsent) file hmem
    rw [if_neg hother, lookup_append, hfile, Option.some_or]

/-- What a written hierarchy makes of a file that was there. -/
theorem lookup_file_of_writeHierarchy {paragraphs : List PlannedParagraph}
    {primarySourceId id : Uuid} {file : FileRow}
    (hwrite : writeHierarchy host ids plan primarySourceId paragraphs db = .ok next)
    (hfile : lookup (fun row : FileRow ↦ row.id) id db.files = some file) :
    lookup (fun row : FileRow ↦ row.id) id next.files =
      some (publishedFile plan ids.now db file) := by
  obtain ⟨prepared, hprepare, hparagraphs⟩ := bind_eq_ok.mp hwrite
  obtain ⟨marked, hmark, hprepare⟩ := bind_eq_ok.mp hprepare
  obtain ⟨filed, hfiled, hprepare⟩ := bind_eq_ok.mp hprepare
  obtain ⟨documented, hdocument, hchapter⟩ := bind_eq_ok.mp hprepare
  obtain ⟨-, -, rfl⟩ := Db.insertChapter_eq_ok.mp hchapter
  have hnext : next.files = filed.files :=
    (congrArg Prod.fst (filedTables_of_writeParagraphs hparagraphs)).trans
      (files_of_writeDocument hdocument)
  obtain ⟨-, hmarked⟩ := raiseIf_bind_eq_ok.mp hmark
  cases hmarked
  have hretired : lookup (fun row : FileRow ↦ row.id) id (updateWhere (db.retires plan.documentId)
      (fun row ↦ { row with toLifecycle := .deletedNow ids.now }) db.files) =
        some (if db.retires plan.documentId file then
          { file with toLifecycle := .deletedNow ids.now } else file) := by
    rw [lookup_updateWhere (by intro _; rfl), hfile, Option.map_some]
  rw [hnext, lookup_writeFile hfiled hretired]
  refine congrArg some ?_
  unfold publishedFile
  by_cases hretires : db.retires plan.documentId file = true
  · simp only [if_pos hretires]
    rfl
  · simp only [if_neg hretires]

end Files

/-! ### Other documents -/

/-- No row of a document, of its hierarchy or of the file that owns it changes. -/
structure LeavesDocument (documentId : Uuid) (db next : EntityDb) : Prop where
  document : lookup (fun row : DocumentRow ↦ row.id) documentId next.documents =
    lookup (fun row : DocumentRow ↦ row.id) documentId db.documents
  chapters : next.chapters.filter (fun row ↦ row.documentId = documentId) =
    db.chapters.filter fun row ↦ row.documentId = documentId
  paragraphs : next.paragraphs.filter (fun row ↦ row.documentId = documentId) =
    db.paragraphs.filter fun row ↦ row.documentId = documentId
  chunks : next.semanticChunks.filter (fun row ↦ row.documentId = documentId) =
    db.semanticChunks.filter fun row ↦ row.documentId = documentId
  texts : ∀ chunk ∈ db.semanticChunks, chunk.documentId = documentId →
    next.semanticChunkTexts.filter (fun row ↦ row.chunkUuid = chunk.id) =
      db.semanticChunkTexts.filter fun row ↦ row.chunkUuid = chunk.id
  versions : ∀ chunk ∈ db.semanticChunks, chunk.documentId = documentId →
    next.semanticChunkVersions.filter (fun row ↦ row.chunkUuid = chunk.id) =
      db.semanticChunkVersions.filter fun row ↦ row.chunkUuid = chunk.id
  current : ∀ chunk ∈ db.semanticChunks, chunk.documentId = documentId →
    next.semanticChunkCurrent.filter (fun row ↦ row.chunkUuid = chunk.id) =
      db.semanticChunkCurrent.filter fun row ↦ row.chunkUuid = chunk.id
  dictionaries : ∀ chunk ∈ db.semanticChunks, chunk.documentId = documentId →
    next.chunkDictionaries.filter (fun row ↦ row.chunkUuid = chunk.id) =
      db.chunkDictionaries.filter fun row ↦ row.chunkUuid = chunk.id
  file : ∀ file, db.ownerFile documentId = some file → next.ownerFile documentId = some file

section Publishing

variable {host : Host} {db next : EntityDb} {documentId : Uuid}

/-- The dictionary columns of some chunks are written, and nothing else but the dictionaries. -/
theorem writesOnly_of_writeClassifiers {entryId : DictionaryTable → Text → Uuid}
    {entries : List (Uuid × DictionaryTable × Text)}
    (hwrite : writeClassifiers entryId entries db = .ok next) :
    (∃ entityUuidRegistry, next.toDb = { db.toDb with entityUuidRegistry }) ∧
      ∀ id ∉ entries.map Prod.fst, next.chunkDictionaries.filter (fun row ↦ row.chunkUuid = id) =
        db.chunkDictionaries.filter fun row ↦ row.chunkUuid = id := by
  induction entries generalizing db with
  | nil =>
    cases hwrite
    exact ⟨⟨_, rfl⟩, fun _ _ ↦ rfl⟩
  | cons entry entries ih =>
    obtain ⟨middle, hfirst, hrest⟩ := bind_eq_ok.mp hwrite
    obtain ⟨⟨registry, htables⟩, hcolumns⟩ := ih hrest
    have hmiddle : (∃ entityUuidRegistry, middle.toDb = { db.toDb with entityUuidRegistry }) ∧
        ∀ id, id ≠ entry.1 → middle.chunkDictionaries.filter (fun row ↦ row.chunkUuid = id) =
          db.chunkDictionaries.filter fun row ↦ row.chunkUuid = id := by
      dsimp only [writeClassifier] at hfirst
      split at hfirst
      · cases hfirst
        exact ⟨⟨_, rfl⟩, fun id hne ↦ filter_append_of_ne ChunkDictionary.chunkUuid hne.symm _⟩
      · obtain ⟨-, hnext⟩ := Db.register_bind_eq_ok.mp hfirst
        cases hnext
        exact ⟨⟨_, rfl⟩, fun id hne ↦ filter_append_of_ne ChunkDictionary.chunkUuid hne.symm _⟩
    obtain ⟨⟨earlier, hmiddleTables⟩, hmiddleColumns⟩ := hmiddle
    refine ⟨⟨registry, by rw [htables, hmiddleTables]⟩, fun id hid ↦ ?_⟩
    rw [List.map_cons, List.mem_cons, not_or] at hid
    exact (hcolumns id hid.2).trans (hmiddleColumns id hid.1)

/-- New chunks of a step have other UUIDs than the old ones. -/
theorem notMem_of_refs_nodup {chunkIds : List Uuid} (hnodup : next.refs.Nodup)
    (hids : next.semanticChunks.map (fun row ↦ row.id) =
      db.semanticChunks.map (fun row ↦ row.id) ++ chunkIds)
    {chunk : SemanticChunkRow} (hchunk : chunk ∈ db.semanticChunks) : chunk.id ∉ chunkIds := by
  have hrefs : (next.semanticChunks.map fun row ↦
      ((.semanticChunks, row.id) : EntityRef)).Nodup :=
    (List.nodup_append.mp (List.nodup_append.mp hnodup).2.1).2.1
  have hchunks : (next.semanticChunks.map fun row ↦ row.id).Nodup := by
    refine List.Nodup.of_map (fun id ↦ ((.semanticChunks, id) : EntityRef)) ?_
    rw [List.map_map]
    exact hrefs
  rw [hids] at hchunks
  intro hmem
  exact (List.nodup_append.mp hchunks).2.2 chunk.id (List.mem_map_of_mem hchunk) chunk.id hmem rfl

/-- What a publication that passed the gate leaves of another document: everything but the file
that owns it, and of that file what the publication makes of it. -/
theorem leavesDocument_iff_of_writeHierarchy {call : IngestionCall}
    {paragraphs : List PlannedParagraph} {hierarchy : Db} {primarySourceId : Uuid}
    (hother : documentId ≠ call.request.documentId)
    (hwrite : writeHierarchy host call.ids (mapPlan host call.request) primarySourceId paragraphs
      db.toDb = .ok hierarchy)
    {registry : List EntityRef} {runs : List ProcessingRun} {assertions : History}
    (htables : next.toDb = { hierarchy with
      entityUuidRegistry := registry
      processingRuns := runs
      temporalAssertions := assertions })
    (hcolumns : ∀ id ∉ (plannedSentences paragraphs).map (fun entry ↦ entry.1.uuid),
      next.chunkDictionaries.filter (fun row ↦ row.chunkUuid = id) =
        db.chunkDictionaries.filter fun row ↦ row.chunkUuid = id)
    (hnodup : next.refs.Nodup) :
    LeavesDocument documentId db next ↔ ∀ file, db.ownerFile documentId = some file →
      KeepsFile (mapPlan host call.request) call.ids.now db.toDb file := by
  have hwritten := writesOnly_of_writeHierarchy hwrite
  have hids : next.semanticChunks.map (fun row ↦ row.id) =
      db.semanticChunks.map (fun row ↦ row.id) ++
        (plannedSentences paragraphs).map fun entry ↦ entry.1.uuid := by
    rw [htables]
    exact hwritten.ids
  have hfresh : ∀ chunk ∈ db.semanticChunks,
      chunk.id ∉ (plannedSentences paragraphs).map fun entry ↦ entry.1.uuid :=
    fun chunk hchunk ↦ notMem_of_refs_nodup hnodup hids hchunk
  have hdocument : lookup (fun row : DocumentRow ↦ row.id) documentId next.documents =
      lookup (fun row : DocumentRow ↦ row.id) documentId db.documents := by
    rw [htables]
    exact (lookup_document_of_writeHierarchy hwrite documentId).trans (if_neg hother)
  have howner : ∀ file, db.ownerFile documentId = some file →
      next.ownerFile documentId =
        some (publishedFile (mapPlan host call.request) call.ids.now db.toDb file) := by
    intro file hfile
    obtain ⟨id, hid, hlookup⟩ := Option.bind_eq_some_iff.mp hfile
    have hnextOwner : next.ownerOf documentId = some id := by
      rw [Db.ownerOf, hdocument]
      exact hid
    have hpublished := lookup_file_of_writeHierarchy hwrite hlookup
    rw [Db.ownerFile, hnextOwner, htables]
    exact hpublished
  constructor
  · intro hleaves file hfile
    refine publishedFile_eq_iff.mp (Option.some.inj ?_)
    exact (howner file hfile).symm.trans (hleaves.file file hfile)
  · intro hkeeps
    refine ⟨hdocument, ?_, ?_, ?_, ?_, ?_, ?_, ?_, ?_⟩
    · rw [htables]
      exact hwritten.chapters documentId hother
    · rw [htables]
      exact hwritten.paragraphs documentId hother
    · rw [htables]
      exact hwritten.chunks documentId hother
    · intro chunk hchunk _
      rw [htables]
      exact hwritten.texts chunk.id (hfresh chunk hchunk)
    · intro chunk hchunk _
      rw [htables]
      exact hwritten.versions chunk.id (hfresh chunk hchunk)
    · intro chunk hchunk _
      rw [htables]
      exact hwritten.current chunk.id (hfresh chunk hchunk)
    · intro chunk hchunk _
      exact hcolumns chunk.id (hfresh chunk hchunk)
    · intro file hfile
      rw [howner file hfile, publishedFile_eq_iff.mpr (hkeeps file hfile)]

end Publishing

/-! ### A file with two documents -/

/-- A UUID for every dictionary entry. -/
def sampleEntryId (table : DictionaryTable) (descr : Text) : Uuid :=
  sampleUuid (10000 + 100 * table.ctorIdx + descr.length)

/-- The numbered ingestion of the letter. -/
def letterIngestion (number : ℕ) : IngestionCall :=
  let call := letterPublication number
  { ids := call.ids
    request := call.request
    paragraphChunks := call.paragraphChunks
    sentenceChunks := call.sentenceChunks
    entryId := sampleEntryId }

/-- The ingestion of another text for the letter. -/
def rewrittenIngestion : IngestionCall where
  ids := sampleIds 2
  request := sampleRequest
  paragraphChunks := sampleParagraphChunks
  sentenceChunks := sampleSentenceChunks
  entryId := sampleEntryId

/-- A document beside the letter, under an owner. -/
def neighbourDocument (ownerId : Option Uuid) : DocumentRow where
  id := 2
  ownerId
  sourceUploadId := 2
  sourceVersion := 1
  sourcePath := none
  sourceName := none
  sourceHash := none
  blockMeta := []

/-- The letter with a document beside it. -/
def neighbouredLetter (ownerId : Option Uuid) : Option EntityDb :=
  replay (guarded (operationStep sampleHost) fun _ _ ↦ True) {}
    [.entity (.ingest (letterIngestion 1)),
      .entity (.create (.document (neighbourDocument ownerId)))]

end DocStore
