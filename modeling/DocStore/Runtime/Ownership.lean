import DocStore.Foundation.Ownership
import DocStore.Runtime.Undeletion

/-!
# Owners

`owner_id` may name a row of any entity table, and no foreign key guards it. `Db.Owned` says that
every owner and every registered UUID is a row. A publication writes a document under its file, a
chapter under its document, paragraphs under their chapter and chunks under their paragraph, and so
keeps the owners (`Db.Owned.publish`).
-/

set_option autoImplicit false
set_option relaxedAutoImplicit false

namespace DocStore

open Foundation

/-! ### Ownership -/

/-- A row and its owner. -/
def EntityRow.entry (row : EntityRow) : Uuid × Option Uuid := (row.id, row.ownerId)

/-- The rows of a publication and their owners. -/
def Db.ownership (db : Db) : List (Uuid × Option Uuid) :=
  db.projects.map (fun row ↦ row.entry) ++ db.files.map (fun row ↦ row.entry) ++
    db.documents.map (fun row ↦ row.entry) ++ db.chapters.map (fun row ↦ row.entry) ++
    db.paragraphs.map (fun row ↦ row.entry) ++ db.semanticChunks.map fun row ↦ row.entry

/-- All rows and their owners. -/
def EntityDb.ownership (db : EntityDb) : List (Uuid × Option Uuid) :=
  db.dictionaries.map (fun row ↦ row.entry) ++ db.toDb.ownership

theorem map_entry_records (host : Host) (db : EntityDb) :
    (db.records host).map (fun row ↦ row.entry) = db.ownership := by
  simp only [EntityDb.records, EntityDb.ownership, Db.ownership, List.map_append, List.map_map,
    List.append_assoc]
  rfl

theorem mem_ownership (host : Host) {db : EntityDb} {id : Uuid} {above : Option Uuid} :
    (id, above) ∈ db.ownership ↔
      ∃ row ∈ db.records host, row.id = id ∧ row.ownerId = above := by
  rw [← map_entry_records host, List.mem_map]
  simp only [EntityRow.entry, Prod.mk.injEq]

/-- All registered UUIDs and all owners are rows, the dictionaries being given. -/
def Db.Owned (dictionaries : List (Uuid × Option Uuid)) (db : Db) : Prop :=
  WellOwned db.registry (dictionaries ++ db.ownership)

/-- All registered UUIDs and all owners are rows. -/
def EntityDb.Owned (db : EntityDb) : Prop :=
  db.toDb.Owned (db.dictionaries.map fun row ↦ row.entry)

theorem EntityDb.Owned.wellOwned {db : EntityDb} (howned : db.Owned) :
    WellOwned db.registry db.ownership :=
  howned

/-! ### Publication -/

section Publication

variable {host : Host} {ids : PublicationIds} {plan : PersistencePlan}
  {dictionaries : List (Uuid × Option Uuid)} {db next : Db}

/-- What the tables say about owners is all that matters. -/
theorem Db.Owned.congr (howned : db.Owned dictionaries) (hregistry : next.registry = db.registry)
    (hownership : next.ownership = db.ownership) : next.Owned dictionaries := by
  rw [Db.Owned, hregistry, hownership]
  exact howned

theorem ownership_markHierarchy (now : Instant) (documentId : Uuid) :
    (markHierarchy now documentId db).ownership = db.ownership := by
  have hchapters : (markHierarchy now documentId db).chapters.map (fun row ↦ row.entry) =
      db.chapters.map fun row ↦ row.entry := map_updateWhere (by intro _; rfl) db.chapters
  have hparagraphs : (markHierarchy now documentId db).paragraphs.map (fun row ↦ row.entry) =
      db.paragraphs.map fun row ↦ row.entry := map_updateWhere (by intro _; rfl) db.paragraphs
  have hchunks : (markHierarchy now documentId db).semanticChunks.map (fun row ↦ row.entry) =
      db.semanticChunks.map fun row ↦ row.entry := map_updateWhere (by intro _; rfl) db.semanticChunks
  rw [Db.ownership, hchapters, hparagraphs, hchunks]
  rfl

theorem Db.Owned.markExisting {now : Instant} {documentId : Uuid} (howned : db.Owned dictionaries)
    (hmark : markExistingHierarchyDeleted now documentId db = .ok next) :
    next.Owned dictionaries := by
  set marked := markHierarchy now documentId db with hmarked
  have hownership : marked.ownership = db.ownership := ownership_markHierarchy now documentId
  obtain ⟨-, hnext⟩ := raiseIf_bind_eq_ok.mp hmark
  have hchapters : next.chapters.map (fun row ↦ row.entry) =
      marked.chapters.map fun row ↦ row.entry := by
    cases hnext
    exact map_updateWhere (by intro _; rfl) marked.chapters
  refine howned.congr (by cases hnext; rfl) (Eq.trans ?_ hownership)
  rw [Db.ownership, Db.ownership, hchapters]
  cases hnext
  rfl

theorem Db.Owned.retirePreviousFiles (now : Instant) (documentId : Uuid)
    (howned : db.Owned dictionaries) :
    (retirePreviousFiles now documentId db).Owned dictionaries := by
  have hfiles : (DocStore.retirePreviousFiles now documentId db).files.map (fun row ↦ row.entry) =
      db.files.map fun row ↦ row.entry := map_updateWhere (by intro _; rfl) db.files
  refine howned.congr rfl ?_
  rw [Db.ownership, hfiles]
  rfl

/-- A row is added under an owner that is there. -/
theorem Db.Owned.insert (howned : db.Owned dictionaries) {table : EntityTable} {id : Uuid}
    {above : Option Uuid}
    (hregistry : next.entityUuidRegistry = db.entityUuidRegistry ++ [(table, id)])
    (hownership : ∀ entry, entry ∈ next.ownership ↔ entry ∈ db.ownership ∨ entry = (id, above))
    (habove : ∀ owner, above = some owner →
      ∃ higher, (owner, higher) ∈ dictionaries ++ db.ownership) :
    next.Owned dictionaries := by
  refine WellOwned.insert howned id above ?_ ?_ habove
  · intro other hother
    rw [Db.registry_of_append hregistry] at hother
    simpa using hother
  · intro entry
    rw [List.mem_append, List.mem_append, hownership entry, or_assoc]

/-- The written file is there, and keeps the owner that it has. -/
theorem Db.Owned.writeFile (howned : db.Owned dictionaries) {primarySourceId : Uuid}
    (hwrite : writeFile plan primarySourceId db = .ok next) :
    next.Owned dictionaries ∧ ∃ above, (plan.fileId, above) ∈ next.ownership := by
  unfold DocStore.writeFile at hwrite
  split at hwrite
  next hthere =>
    cases hwrite
    obtain ⟨found, hfound, hkey⟩ := hasKey_eq_true.mp hthere
    set written : Db := { db with
      files := updateWhere (fun old ↦ old.id = plan.fileId) (fun old ↦
        { fileRow plan primarySourceId with
          ownerId := old.ownerId
          primarySourceId := old.primarySourceId }) db.files } with hwritten
    have hfiles : written.files.map (fun row ↦ row.entry) = db.files.map fun row ↦ row.entry := by
      refine map_updateWhere_of_selected (fun old hselected ↦ ?_) db.files
      exact Prod.ext (of_decide_eq_true hselected).symm rfl
    have hownership : written.ownership = db.ownership := by
      rw [Db.ownership, hfiles]
      rfl
    refine ⟨howned.congr rfl hownership, found.ownerId, ?_⟩
    rw [hownership, ← hkey]
    simp only [Db.ownership, List.mem_append]
    exact Or.inl (Or.inl (Or.inl (Or.inl (Or.inr (List.mem_map_of_mem hfound)))))
  next =>
    obtain ⟨-, hwrite⟩ := Db.register_bind_eq_ok.mp hwrite
    obtain ⟨-, hnext⟩ := raiseIf_bind_eq_ok.mp hwrite
    cases hnext
    have hentries : ∀ entry, entry ∈ Db.ownership { db with
        entityUuidRegistry := db.entityUuidRegistry ++ [(.files, plan.fileId)]
        files := db.files ++ [fileRow plan primarySourceId] } ↔
        entry ∈ db.ownership ∨ entry = (plan.fileId, none) := by
      intro entry
      simp only [Db.ownership, List.map_append, List.mem_append, List.map_cons, List.map_nil,
        List.mem_singleton, fileRow, EntityRow.entry]
      tauto
    exact ⟨howned.insert rfl hentries (by simp), none, (hentries _).mpr (Or.inr rfl)⟩

/-- The entries that do not come from documents. -/
def Db.otherOwnership (db : Db) : List (Uuid × Option Uuid) :=
  db.projects.map (fun row ↦ row.entry) ++ db.files.map (fun row ↦ row.entry) ++
    db.chapters.map (fun row ↦ row.entry) ++ db.paragraphs.map (fun row ↦ row.entry) ++
    db.semanticChunks.map fun row ↦ row.entry

theorem mem_ownership_iff {entry : Uuid × Option Uuid} : entry ∈ db.ownership ↔
    entry ∈ db.documents.map (fun row ↦ row.entry) ∨ entry ∈ db.otherOwnership := by
  simp only [Db.ownership, Db.otherOwnership, List.mem_append]
  tauto

/-- The written document is there, under an owner that is there. -/
theorem Db.Owned.writeDocument (howned : db.Owned dictionaries)
    (hfile : ∃ above, (plan.fileId, above) ∈ db.ownership)
    (hwrite : writeDocument plan db = .ok next) :
    next.Owned dictionaries ∧ ∃ above, (plan.documentId, above) ∈ next.ownership := by
  obtain ⟨-, hwrite⟩ := raiseIf_bind_eq_ok.mp hwrite
  obtain ⟨above, hfile⟩ := hfile
  split at hwrite
  next hthere =>
    obtain ⟨found, hfound, hkey⟩ := hasKey_eq_true.mp hthere
    have hnext : next = { db with
        documents := updateWhere (fun old ↦ old.id = plan.documentId)
          (fun old ↦ { documentRow plan with isDeleted := old.isDeleted }) db.documents } :=
      (Except.ok.inj hwrite).symm
    have hregistry : next.registry = db.registry := by
      rw [hnext]
      rfl
    have hother : next.otherOwnership = db.otherOwnership := by
      rw [hnext]
      rfl
    have hdocuments : next.documents.map (fun row ↦ row.entry) = db.documents.map fun old ↦
        if old.id = plan.documentId then (plan.documentId, some plan.fileId) else old.entry := by
      rw [hnext, updateWhere, List.map_map]
      refine List.map_congr_left fun old _ ↦ ?_
      by_cases hselected : old.id = plan.documentId
      · simp [hselected, EntityRow.entry, documentRow]
      · simp [hselected]
    have hmoved : ∀ old ∈ db.documents, ∃ other, (old.id, other) ∈ next.ownership := by
      intro old hold
      have hmem := List.mem_map_of_mem (f := fun old : DocumentRow ↦
        if old.id = plan.documentId then (plan.documentId, some plan.fileId) else old.entry) hold
      rw [← hdocuments] at hmem
      split at hmem
      next hselected => exact ⟨_, mem_ownership_iff.mpr (Or.inl (hselected ▸ hmem))⟩
      next => exact ⟨_, mem_ownership_iff.mpr (Or.inl hmem)⟩
    refine ⟨?_, hkey ▸ hmoved found hfound⟩
    rw [Db.Owned, hregistry]
    refine howned.rebind ?_ ?_
    · intro id above hmem
      rcases List.mem_append.mp hmem with hdictionary | hmem
      · exact ⟨above, List.mem_append_left _ hdictionary⟩
      · rcases mem_ownership_iff.mp hmem with hdocument | hother'
        · obtain ⟨old, hold, heq⟩ := List.mem_map.mp hdocument
          obtain ⟨other, hthere⟩ := hmoved old hold
          cases heq
          exact ⟨other, List.mem_append_right _ hthere⟩
        · exact ⟨above, List.mem_append_right _ (mem_ownership_iff.mpr (Or.inr (hother ▸ hother')))⟩
    · intro id owner hmem
      rcases List.mem_append.mp hmem with hdictionary | hmem
      · exact Or.inl (List.mem_append_left _ hdictionary)
      · rcases mem_ownership_iff.mp hmem with hdocument | hother'
        · rw [hdocuments] at hdocument
          obtain ⟨old, hold, heq⟩ := List.mem_map.mp hdocument
          split at heq
          · cases heq
            exact Or.inr ⟨above, List.mem_append_right _ hfile⟩
          · refine Or.inl (List.mem_append_right _ (mem_ownership_iff.mpr (Or.inl ?_)))
            exact List.mem_map.mpr ⟨old, hold, heq⟩
        · exact Or.inl (List.mem_append_right _ (mem_ownership_iff.mpr (Or.inr (hother ▸ hother'))))
  next =>
    obtain ⟨-, hnext⟩ := Db.register_bind_eq_ok.mp hwrite
    cases hnext
    have hentries : ∀ entry, entry ∈ Db.ownership { db with
        entityUuidRegistry := db.entityUuidRegistry ++ [(.documents, plan.documentId)]
        documents := db.documents ++ [documentRow plan] } ↔
        entry ∈ db.ownership ∨ entry = (plan.documentId, some plan.fileId) := by
      intro entry
      simp only [Db.ownership, List.map_append, List.mem_append, List.map_cons, List.map_nil,
        List.mem_singleton, documentRow, EntityRow.entry]
      tauto
    refine ⟨howned.insert rfl hentries ?_, some plan.fileId, (hentries _).mpr (Or.inr rfl)⟩
    rintro owner ⟨⟩
    exact ⟨above, List.mem_append_right _ hfile⟩

theorem Db.Owned.insertChapter (howned : db.Owned dictionaries) {row : ChapterRow}
    (howner : ∀ owner, row.ownerId = some owner → ∃ above, (owner, above) ∈ db.ownership)
    (hinsert : db.insertChapter row = .ok next) :
    next.Owned dictionaries ∧ ∃ above, (row.id, above) ∈ next.ownership := by
  obtain ⟨-, -, rfl⟩ := Db.insertChapter_eq_ok.mp hinsert
  have hentries : ∀ entry, entry ∈ Db.ownership { db with
      entityUuidRegistry := db.entityUuidRegistry ++ [(.chapters, row.id)]
      chapters := db.chapters ++ [row] } ↔
      entry ∈ db.ownership ∨ entry = row.entry := by
    intro entry
    simp only [Db.ownership, List.map_append, List.mem_append, List.map_cons, List.map_nil,
      List.mem_singleton]
    tauto
  exact ⟨howned.insert rfl hentries fun owner hrow ↦
    (howner owner hrow).imp fun _ ↦ List.mem_append_right _,
    row.ownerId, (hentries _).mpr (Or.inr rfl)⟩

theorem Db.Owned.insertParagraph (howned : db.Owned dictionaries) {row : ParagraphRow}
    (howner : ∀ owner, row.ownerId = some owner → ∃ above, (owner, above) ∈ db.ownership)
    (hinsert : db.insertParagraph row = .ok next) :
    next.Owned dictionaries ∧ (∀ entry ∈ db.ownership, entry ∈ next.ownership) ∧
      ∃ above, (row.id, above) ∈ next.ownership := by
  obtain ⟨-, -, rfl⟩ := Db.insertParagraph_eq_ok.mp hinsert
  have hentries : ∀ entry, entry ∈ Db.ownership { db with
      entityUuidRegistry := db.entityUuidRegistry ++ [(.paragraphs, row.id)]
      paragraphs := db.paragraphs ++ [row] } ↔
      entry ∈ db.ownership ∨ entry = row.entry := by
    intro entry
    simp only [Db.ownership, List.map_append, List.mem_append, List.map_cons, List.map_nil,
      List.mem_singleton]
    tauto
  exact ⟨howned.insert rfl hentries fun owner hrow ↦
    (howner owner hrow).imp fun _ ↦ List.mem_append_right _,
    fun entry hmem ↦ (hentries entry).mpr (Or.inl hmem),
    row.ownerId, (hentries _).mpr (Or.inr rfl)⟩

/-- Texts, versions and pointers have no owners. -/
theorem ownership_insertInitialVersion {version : SemanticChunkVersion}
    (hinsert : insertInitialVersion version db = .ok next) :
    next.entityUuidRegistry = db.entityUuidRegistry ∧ next.ownership = db.ownership := by
  unfold insertInitialVersion at hinsert
  split at hinsert
  · obtain ⟨-, rfl⟩ := Db.setCurrent_eq_ok.mp hinsert
    exact ⟨rfl, rfl⟩
  · obtain ⟨inserted, hversion, hpointer⟩ := bind_eq_ok.mp hinsert
    obtain ⟨-, rfl⟩ := Db.insertVersion_eq_ok.mp hversion
    obtain ⟨-, rfl⟩ := Db.setCurrent_eq_ok.mp hpointer
    exact ⟨rfl, rfl⟩

theorem Db.Owned.writeSentenceRows (howned : db.Owned dictionaries) {rows : SentenceRows}
    (howner : ∀ owner, rows.chunk.ownerId = some owner → ∃ above, (owner, above) ∈ db.ownership)
    (hwrite : writeSentenceRows rows db = .ok next) :
    next.Owned dictionaries ∧ ∀ entry ∈ db.ownership, entry ∈ next.ownership := by
  obtain ⟨chunked, hchunk, hwrite⟩ := bind_eq_ok.mp hwrite
  obtain ⟨texted, htext, hversion⟩ := bind_eq_ok.mp hwrite
  obtain ⟨-, -, -, rfl⟩ := Db.insertSemanticChunk_eq_ok.mp hchunk
  obtain ⟨-, rfl⟩ := Db.insertText_eq_ok.mp htext
  obtain ⟨hregistry, hownership⟩ := ownership_insertInitialVersion hversion
  have hentries : ∀ entry, entry ∈ next.ownership ↔
      entry ∈ db.ownership ∨ entry = rows.chunk.entry := by
    intro entry
    rw [hownership]
    simp only [Db.ownership, List.map_append, List.mem_append, List.map_cons, List.map_nil,
      List.mem_singleton]
    tauto
  exact ⟨howned.insert hregistry hentries fun owner hrow ↦
    (howner owner hrow).imp fun _ ↦ List.mem_append_right _,
    fun entry hmem ↦ (hentries entry).mpr (Or.inl hmem)⟩

/-- The sentence loop keeps the owners. -/
theorem Db.Owned.writeSentences {orderIndex : ℕ} {paragraph : RuntimeChunk}
    {entries : List (RuntimeChunk × ExactReconstructionPiece)} (howned : db.Owned dictionaries)
    (hparagraph : ∃ above, (ids.paragraphId orderIndex, above) ∈ db.ownership)
    (hwrite : writeSentences host ids plan orderIndex paragraph entries db = .ok next) :
    next.Owned dictionaries ∧ ∀ entry ∈ db.ownership, entry ∈ next.ownership := by
  induction entries generalizing db with
  | nil =>
    cases hwrite
    exact ⟨howned, fun _ hmem ↦ hmem⟩
  | cons entry entries ih =>
    obtain ⟨middle, hfirst, hrest⟩ := bind_eq_ok.mp hwrite
    obtain ⟨_, -, hrows⟩ := bind_eq_ok.mp hfirst
    obtain ⟨hmiddle, hkept⟩ := howned.writeSentenceRows (by
      rintro owner ⟨⟩
      exact hparagraph) hrows
    obtain ⟨hnext, hlater⟩ := ih hmiddle (hparagraph.imp fun _ ↦ hkept _) hrest
    exact ⟨hnext, fun entry hmem ↦ hlater entry (hkept entry hmem)⟩

/-- The paragraph loop keeps the owners. -/
theorem Db.Owned.writeParagraphs {orderIndex : ℕ} {paragraphs : List PlannedParagraph}
    (howned : db.Owned dictionaries)
    (hchapter : ∃ above, (ids.chapterId, above) ∈ db.ownership)
    (hwrite : writeParagraphs host ids plan orderIndex paragraphs db = .ok next) :
    next.Owned dictionaries := by
  induction paragraphs generalizing db orderIndex with
  | nil =>
    cases hwrite
    exact howned
  | cons planned rest ih =>
    obtain ⟨paragraph, entries⟩ := planned
    obtain ⟨inserted, hparagraph, hwrite⟩ := bind_eq_ok.mp hwrite
    obtain ⟨written, hsentences, hrest⟩ := bind_eq_ok.mp hwrite
    obtain ⟨hinserted, hkept, hthere⟩ := howned.insertParagraph (by
      rintro owner ⟨⟩
      exact hchapter) hparagraph
    obtain ⟨hwritten, hlater⟩ := hinserted.writeSentences hthere hsentences
    exact ih hwritten (hchapter.imp fun _ hmem ↦ hlater _ (hkept _ hmem)) hrest

/-- A written hierarchy keeps the owners. -/
theorem Db.Owned.writeHierarchy (howned : db.Owned dictionaries) {primarySourceId : Uuid}
    {paragraphs : List PlannedParagraph}
    (hwrite : writeHierarchy host ids plan primarySourceId paragraphs db = .ok next) :
    next.Owned dictionaries := by
  obtain ⟨prepared, hprepare, hparagraphs⟩ := bind_eq_ok.mp hwrite
  obtain ⟨marked, hmark, hprepare⟩ := bind_eq_ok.mp hprepare
  obtain ⟨filed, hfile, hprepare⟩ := bind_eq_ok.mp hprepare
  obtain ⟨documented, hdocument, hchapter⟩ := bind_eq_ok.mp hprepare
  have hmarked := howned.markExisting hmark
  obtain ⟨hfiled, hfileThere⟩ :=
    (hmarked.retirePreviousFiles ids.now plan.documentId).writeFile hfile
  obtain ⟨hdocumented, hdocumentThere⟩ := hfiled.writeDocument hfileThere hdocument
  obtain ⟨hprepared, hchapterThere⟩ := hdocumented.insertChapter (by
    rintro owner ⟨⟩
    exact hdocumentThere) hchapter
  exact hprepared.writeParagraphs hchapterThere hparagraphs

/-- A publication keeps the owners. -/
theorem Db.Owned.publish (howned : db.Owned dictionaries) {request : NormalizedRequest}
    {paragraphChunks sentenceChunks : List RuntimeChunk} {publication : Publication}
    (hpublish : publish host ids request paragraphChunks sentenceChunks db = .ok publication) :
    publication.db.Owned dictionaries := by
  obtain ⟨-, hpublish⟩ := raiseIf_bind_eq_ok.mp hpublish
  obtain ⟨-, hpublish⟩ := raiseIf_bind_eq_ok.mp hpublish
  obtain ⟨planned, -, hpublish⟩ := bind_eq_ok.mp hpublish
  obtain ⟨hierarchy, hwrite, hpublish⟩ := bind_eq_ok.mp hpublish
  obtain ⟨reconstructed, -, hconclude⟩ := bind_eq_ok.mp hpublish
  obtain ⟨recorded, hrecord, hpublication⟩ := bind_eq_ok.mp hconclude
  cases hpublication
  dsimp only [recordVerdict] at hrecord
  split at hrecord
  · obtain ⟨run, hrun, haccept⟩ := bind_eq_ok.mp hrecord
    obtain ⟨-, -, rfl⟩ := Db.insertProcessingRun_eq_ok.mp hrun
    obtain ⟨appended, -, hrecorded⟩ := bind_eq_ok.mp haccept
    cases hrecorded
    exact (howned.writeHierarchy hwrite).congr rfl rfl
  · obtain ⟨-, -, rfl⟩ := Db.insertProcessingRun_eq_ok.mp hrecord
    exact howned.congr rfl rfl

end Publication

end DocStore
