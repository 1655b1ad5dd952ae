import DocStore.Foundation.Mirror
import DocStore.Runtime.Undeletion

/-!
# The registry

Triggers enter the address of every inserted row of the entity tables in `entity_uuid_registry` and
take out the address of every deleted one. `EntityDb.Registered` says that the registry lists the
rows and nothing else. Creations, changes of owners, deletion marks and ingestions keep it so; hard
deletions follow in `DocStore.Runtime.DeletionSafety`, updates in `DocStore.Runtime.EntityIds`.
-/

set_option autoImplicit false
set_option relaxedAutoImplicit false

namespace DocStore

open Foundation

/-! ### Addresses -/

/-- The addresses of the rows of a publication. -/
def Db.refs (db : Db) : List EntityRef :=
  db.projects.map (fun row ↦ (.projects, row.id)) ++ db.files.map (fun row ↦ (.files, row.id)) ++
    db.documents.map (fun row ↦ (.documents, row.id)) ++
    db.chapters.map (fun row ↦ (.chapters, row.id)) ++
    db.paragraphs.map (fun row ↦ (.paragraphs, row.id)) ++
    db.semanticChunks.map fun row ↦ (.semanticChunks, row.id)

/-- The addresses of all rows. -/
def EntityDb.refs (db : EntityDb) : List EntityRef :=
  db.dictionaries.map (fun row ↦ (.dictionary row.table, row.id)) ++ db.toDb.refs

theorem map_ref_records (host : Host) (db : EntityDb) :
    (db.records host).map EntityRecord.ref = db.refs := by
  simp only [EntityDb.records, EntityDb.refs, Db.refs, List.map_append, List.map_map,
    List.append_assoc]
  rfl

/-- A record comes from a row of its table. -/
theorem mem_records_iff {host : Host} {db : EntityDb} {row : EntityRecord} : row ∈ db.records host ↔
    (∃ entry ∈ db.dictionaries, entry.record = row) ∨ (∃ project ∈ db.projects,
      project.record = row) ∨ (∃ file ∈ db.files, file.record = row) ∨
    (∃ document ∈ db.documents, document.record host = row) ∨
    (∃ chapter ∈ db.chapters, chapter.record = row) ∨
    (∃ paragraph ∈ db.paragraphs, paragraph.record = row) ∨
    ∃ chunk ∈ db.semanticChunks, chunk.record = row := by
  simp only [EntityDb.records, List.mem_append, List.mem_map, or_assoc]

/-- The registry lists the rows and some entries of dictionaries. -/
def Db.Registered (dictionaries : List EntityRef) (db : Db) : Prop :=
  Mirrors Prod.snd db.entityUuidRegistry (dictionaries ++ db.refs)

/-- The registry lists all rows. -/
def EntityDb.Registered (db : EntityDb) : Prop :=
  db.toDb.Registered (db.dictionaries.map fun row ↦ (.dictionary row.table, row.id))

theorem EntityDb.Registered.mirrors {db : EntityDb} (hregistered : db.Registered) :
    Mirrors Prod.snd db.entityUuidRegistry db.refs :=
  hregistered

theorem EntityDb.registered_empty : ({} : EntityDb).Registered :=
  Mirrors.nil

/-- A registered UUID is the UUID of a row. -/
theorem EntityDb.Registered.exists_record (host : Host) {db : EntityDb}
    (hregistered : db.Registered) {id : Uuid} (hmem : id ∈ db.registry) :
    ∃ row ∈ db.records host, row.id = id := by
  obtain ⟨entry, hentry, rfl⟩ := List.mem_map.mp hmem
  have href := hregistered.mirrors.mem_iff.mp hentry
  rw [← map_ref_records host] at href
  obtain ⟨row, hrow, rfl⟩ := List.mem_map.mp href
  exact ⟨row, hrow, rfl⟩

/-! ### Publication -/

section Publication

variable {host : Host} {ids : PublicationIds} {plan : PersistencePlan}
  {dictionaries : List EntityRef} {db next : Db}

theorem Db.Registered.congr (hregistered : db.Registered dictionaries)
    (hregistry : next.entityUuidRegistry = db.entityUuidRegistry) (hrefs : next.refs = db.refs) :
    next.Registered dictionaries := by
  rw [Db.Registered, hregistry, hrefs]
  exact hregistered

/-- A row is inserted and registered. -/
theorem Db.Registered.insert (hregistered : db.Registered dictionaries) {table : EntityTable}
    {id : Uuid} (hfresh : id ∉ db.registry)
    (hregistry : next.entityUuidRegistry = db.entityUuidRegistry ++ [(table, id)])
    (hrefs : next.refs.Perm (db.refs ++ [(table, id)])) : next.Registered dictionaries := by
  rw [Db.Registered, hregistry]
  refine Mirrors.insert hregistered hfresh ?_
  rw [List.append_assoc]
  exact hrefs.append_left _

theorem Db.Registered.markExisting {now : Instant} {documentId : Uuid}
    (hregistered : db.Registered dictionaries)
    (hmark : markExistingHierarchyDeleted now documentId db = .ok next) :
    next.Registered dictionaries := by
  obtain ⟨-, hnext⟩ := raiseIf_bind_eq_ok.mp hmark
  cases hnext
  refine hregistered.congr rfl ?_
  simp only [Db.refs, markHierarchy, map_updateWhere, implies_true]

theorem Db.Registered.retirePreviousFiles (now : Instant) (documentId : Uuid)
    (hregistered : db.Registered dictionaries) :
    (retirePreviousFiles now documentId db).Registered dictionaries := by
  refine hregistered.congr rfl ?_
  simp only [Db.refs, DocStore.retirePreviousFiles, map_updateWhere, implies_true]

theorem Db.Registered.writeFile (hregistered : db.Registered dictionaries) {primarySourceId : Uuid}
    (hwrite : writeFile plan primarySourceId db = .ok next) : next.Registered dictionaries := by
  unfold DocStore.writeFile at hwrite
  split at hwrite
  · cases hwrite
    refine hregistered.congr rfl ?_
    have hfiles : ∀ old : FileRow, decide (old.id = plan.fileId) = true →
        (EntityTable.files, plan.fileId) = (EntityTable.files, old.id) :=
      fun old hselected ↦ congrArg _ (of_decide_eq_true hselected).symm
    simp only [Db.refs]
    rw [map_updateWhere_of_selected hfiles]
  · obtain ⟨hfresh, hwrite⟩ := Db.register_bind_eq_ok.mp hwrite
    obtain ⟨-, hnext⟩ := raiseIf_bind_eq_ok.mp hwrite
    cases hnext
    refine hregistered.insert hfresh rfl (List.perm_iff_count.mpr fun other ↦ ?_)
    simp only [Db.refs, List.map_append, List.map_cons, List.map_nil, List.count_append, fileRow]
    omega

theorem Db.Registered.writeDocument (hregistered : db.Registered dictionaries)
    (hwrite : writeDocument plan db = .ok next) : next.Registered dictionaries := by
  obtain ⟨-, hwrite⟩ := raiseIf_bind_eq_ok.mp hwrite
  split at hwrite
  · cases hwrite
    refine hregistered.congr rfl ?_
    have hdocuments : ∀ old : DocumentRow, decide (old.id = plan.documentId) = true →
        (EntityTable.documents, plan.documentId) = (EntityTable.documents, old.id) :=
      fun old hselected ↦ congrArg _ (of_decide_eq_true hselected).symm
    simp only [Db.refs]
    rw [map_updateWhere_of_selected hdocuments]
  · obtain ⟨hfresh, hnext⟩ := Db.register_bind_eq_ok.mp hwrite
    cases hnext
    refine hregistered.insert hfresh rfl (List.perm_iff_count.mpr fun other ↦ ?_)
    simp only [Db.refs, List.map_append, List.map_cons, List.map_nil, List.count_append,
      documentRow]
    omega

theorem Db.Registered.insertChapter (hregistered : db.Registered dictionaries) {row : ChapterRow}
    (hinsert : db.insertChapter row = .ok next) : next.Registered dictionaries := by
  obtain ⟨hfresh, -, rfl⟩ := Db.insertChapter_eq_ok.mp hinsert
  refine hregistered.insert hfresh rfl (List.perm_iff_count.mpr fun other ↦ ?_)
  simp only [Db.refs, List.map_append, List.map_cons, List.map_nil, List.count_append]
  omega

theorem Db.Registered.insertParagraph (hregistered : db.Registered dictionaries)
    {row : ParagraphRow} (hinsert : db.insertParagraph row = .ok next) :
    next.Registered dictionaries := by
  obtain ⟨hfresh, -, rfl⟩ := Db.insertParagraph_eq_ok.mp hinsert
  refine hregistered.insert hfresh rfl (List.perm_iff_count.mpr fun other ↦ ?_)
  simp only [Db.refs, List.map_append, List.map_cons, List.map_nil, List.count_append]
  omega

theorem Db.Registered.insertSemanticChunk (hregistered : db.Registered dictionaries)
    {row : SemanticChunkRow} (hinsert : db.insertSemanticChunk row = .ok next) :
    next.Registered dictionaries := by
  obtain ⟨-, hfresh, -, rfl⟩ := Db.insertSemanticChunk_eq_ok.mp hinsert
  refine hregistered.insert hfresh rfl (List.perm_iff_count.mpr fun other ↦ ?_)
  simp only [Db.refs, List.map_append, List.map_cons, List.map_nil, List.count_append]
  omega

/-- Versions and pointers are not registered. -/
theorem Db.Registered.insertInitialVersion (hregistered : db.Registered dictionaries)
    {version : SemanticChunkVersion} (hinsert : insertInitialVersion version db = .ok next) :
    next.Registered dictionaries := by
  unfold DocStore.insertInitialVersion at hinsert
  split at hinsert
  · obtain ⟨-, rfl⟩ := Db.setCurrent_eq_ok.mp hinsert
    exact hregistered.congr rfl rfl
  · obtain ⟨inserted, hversion, hpointer⟩ := bind_eq_ok.mp hinsert
    obtain ⟨-, rfl⟩ := Db.insertVersion_eq_ok.mp hversion
    obtain ⟨-, rfl⟩ := Db.setCurrent_eq_ok.mp hpointer
    exact hregistered.congr rfl rfl

theorem Db.Registered.writeSentences {orderIndex : ℕ} {paragraph : RuntimeChunk}
    {entries : List (RuntimeChunk × ExactReconstructionPiece)}
    (hregistered : db.Registered dictionaries)
    (hwrite : writeSentences host ids plan orderIndex paragraph entries db = .ok next) :
    next.Registered dictionaries := by
  induction entries generalizing db with
  | nil =>
    cases hwrite
    exact hregistered
  | cons entry entries ih =>
    obtain ⟨written, hfirst, hrest⟩ := bind_eq_ok.mp hwrite
    obtain ⟨_, -, hrows⟩ := bind_eq_ok.mp hfirst
    obtain ⟨chunked, hchunk, hrows⟩ := bind_eq_ok.mp hrows
    obtain ⟨texted, htext, hversion⟩ := bind_eq_ok.mp hrows
    obtain ⟨-, rfl⟩ := Db.insertText_eq_ok.mp htext
    have htexted : Db.Registered dictionaries { chunked with
        semanticChunkTexts := chunked.semanticChunkTexts ++
          [(sentenceRows host ids plan orderIndex paragraph entry).text] } :=
      (hregistered.insertSemanticChunk hchunk).congr rfl rfl
    exact ih (htexted.insertInitialVersion hversion) hrest

theorem Db.Registered.writeParagraphs {orderIndex : ℕ} {paragraphs : List PlannedParagraph}
    (hregistered : db.Registered dictionaries)
    (hwrite : writeParagraphs host ids plan orderIndex paragraphs db = .ok next) :
    next.Registered dictionaries := by
  induction paragraphs generalizing db orderIndex with
  | nil =>
    cases hwrite
    exact hregistered
  | cons planned rest ih =>
    obtain ⟨inserted, hparagraph, hwrite⟩ := bind_eq_ok.mp hwrite
    obtain ⟨written, hsentences, hrest⟩ := bind_eq_ok.mp hwrite
    exact ih ((hregistered.insertParagraph hparagraph).writeSentences hsentences) hrest

theorem Db.Registered.writeHierarchy (hregistered : db.Registered dictionaries)
    {primarySourceId : Uuid} {paragraphs : List PlannedParagraph}
    (hwrite : writeHierarchy host ids plan primarySourceId paragraphs db = .ok next) :
    next.Registered dictionaries := by
  obtain ⟨prepared, hprepare, hparagraphs⟩ := bind_eq_ok.mp hwrite
  obtain ⟨marked, hmark, hprepare⟩ := bind_eq_ok.mp hprepare
  obtain ⟨filed, hfile, hprepare⟩ := bind_eq_ok.mp hprepare
  obtain ⟨documented, hdocument, hchapter⟩ := bind_eq_ok.mp hprepare
  have hretired := (hregistered.markExisting hmark).retirePreviousFiles ids.now plan.documentId
  have hdocumented := (hretired.writeFile hfile).writeDocument hdocument
  exact (hdocumented.insertChapter hchapter).writeParagraphs hparagraphs

/-- A publication keeps the registry exact. -/
theorem Db.Registered.publish (hregistered : db.Registered dictionaries)
    {request : NormalizedRequest} {paragraphChunks sentenceChunks : List RuntimeChunk}
    {publication : Publication}
    (hpublish : publish host ids request paragraphChunks sentenceChunks db = .ok publication) :
    publication.db.Registered dictionaries := by
  obtain ⟨-, hpublish⟩ := raiseIf_bind_eq_ok.mp hpublish
  obtain ⟨-, hpublish⟩ := raiseIf_bind_eq_ok.mp hpublish
  obtain ⟨planned, -, hpublish⟩ := bind_eq_ok.mp hpublish
  obtain ⟨hierarchy, hwrite, hpublish⟩ := bind_eq_ok.mp hpublish
  obtain ⟨reconstructed, -, hconclude⟩ := bind_eq_ok.mp hpublish
  obtain ⟨recorded, hrecord, hpublication⟩ := bind_eq_ok.mp hconclude
  cases hpublication
  dsimp only [recordVerdict] at hrecord
  split at hrecord
  · obtain ⟨run, hrun, haccept⟩ := bind_eq_ok.mp hrecord
    obtain ⟨-, -, rfl⟩ := Db.insertProcessingRun_eq_ok.mp hrun
    obtain ⟨appended, -, hrecorded⟩ := bind_eq_ok.mp haccept
    cases hrecorded
    exact (hregistered.writeHierarchy hwrite).congr rfl rfl
  · obtain ⟨-, -, rfl⟩ := Db.insertProcessingRun_eq_ok.mp hrecord
    exact hregistered.congr rfl rfl

end Publication

/-! ### Operations on entities -/

section Operations

variable {host : Host} {db next : EntityDb}

/-- What an operation writes in the columns of a row is nothing to the registry, as long as the row
keeps its UUID. -/
theorem EntityDb.Registered.mapRows (hregistered : db.Registered)
    {rewrite : EntityTable → EntityRow → EntityRow}
    (hid : ∀ table row, (rewrite table row).id = row.id) : (db.mapRows rewrite).Registered := by
  have hrefs : (db.mapRows rewrite).refs = db.refs := by
    simp only [EntityDb.refs, Db.refs, EntityDb.mapRows, List.map_map, Function.comp_def, hid]
  show Mirrors Prod.snd db.entityUuidRegistry (db.mapRows rewrite).refs
  rw [hrefs]
  exact hregistered

theorem EntityDb.Registered.rebindOwner (hregistered : db.Registered) {table : EntityTable}
    {ids : List Uuid} {ownerId : Option Uuid}
    (hrebind : db.rebindOwner table ids ownerId = .ok next) : next.Registered := by
  obtain ⟨-, hrebind⟩ := raiseIf_bind_eq_ok.mp hrebind
  obtain ⟨_, -, hnext⟩ := bind_eq_ok.mp hrebind
  cases hnext
  refine hregistered.mapRows fun other row ↦ ?_
  split <;> rfl

/-- A row of some table is inserted and registered. -/
theorem EntityDb.Registered.insert (hregistered : db.Registered) {table : EntityTable} {id : Uuid}
    (hfresh : id ∉ db.registry)
    (hregistry : next.entityUuidRegistry = db.entityUuidRegistry ++ [(table, id)])
    (hrefs : next.refs.Perm (db.refs ++ [(table, id)])) : next.Registered := by
  show Mirrors Prod.snd next.entityUuidRegistry next.refs
  rw [hregistry]
  exact hregistered.mirrors.insert hfresh hrefs

theorem EntityDb.Registered.create (hregistered : db.Registered) {values : NewEntity}
    (hcreate : db.create values = .ok next) : next.Registered := by
  obtain ⟨_, -, hcreate⟩ := bind_eq_ok.mp hcreate
  cases values with
  | project row =>
    obtain ⟨-, hcreate⟩ := raiseIf_bind_eq_ok.mp hcreate
    obtain ⟨hfresh, hnext⟩ := Db.register_bind_eq_ok.mp hcreate
    cases hnext
    refine hregistered.insert hfresh rfl (List.perm_iff_count.mpr fun other ↦ ?_)
    simp only [EntityDb.refs, Db.refs, List.map_append, List.map_cons, List.map_nil,
      List.count_append]
    omega
  | document row =>
    obtain ⟨-, hcreate⟩ := raiseIf_bind_eq_ok.mp hcreate
    obtain ⟨hfresh, hnext⟩ := Db.register_bind_eq_ok.mp hcreate
    cases hnext
    refine hregistered.insert hfresh rfl (List.perm_iff_count.mpr fun other ↦ ?_)
    simp only [EntityDb.refs, Db.refs, List.map_append, List.map_cons, List.map_nil,
      List.count_append]
    omega
  | dictionary row =>
    obtain ⟨-, hcreate⟩ := raiseIf_bind_eq_ok.mp hcreate
    obtain ⟨hfresh, hnext⟩ := Db.register_bind_eq_ok.mp hcreate
    cases hnext
    refine hregistered.insert hfresh rfl (List.perm_iff_count.mpr fun other ↦ ?_)
    simp only [EntityDb.refs, Db.refs, List.map_append, List.map_cons, List.map_nil,
      List.count_append]
    omega
  | file row => cases hcreate

theorem EntityDb.Registered.writeClassifier (hregistered : db.Registered)
    {entryId : DictionaryTable → Text → Uuid} {chunkUuid : Uuid} {entry : DictionaryTable × Text}
    (hwrite : writeClassifier entryId chunkUuid entry db = .ok next) : next.Registered := by
  dsimp only [DocStore.writeClassifier] at hwrite
  split at hwrite
  · cases hwrite
    exact hregistered
  · obtain ⟨hfresh, hnext⟩ := Db.register_bind_eq_ok.mp hwrite
    cases hnext
    refine hregistered.insert hfresh rfl (List.perm_iff_count.mpr fun other ↦ ?_)
    simp only [EntityDb.refs, Db.refs, List.map_append, List.map_cons, List.map_nil,
      List.count_append]
    omega

theorem EntityDb.Registered.writeClassifiers {entryId : DictionaryTable → Text → Uuid}
    {entries : List (Uuid × DictionaryTable × Text)} (hregistered : db.Registered)
    (hwrite : writeClassifiers entryId entries db = .ok next) : next.Registered := by
  induction entries generalizing db with
  | nil =>
    cases hwrite
    exact hregistered
  | cons entry entries ih =>
    obtain ⟨middle, hfirst, hrest⟩ := bind_eq_ok.mp hwrite
    exact ih (hregistered.writeClassifier hfirst) hrest

theorem EntityDb.Registered.ingest (hregistered : db.Registered) {call : IngestionCall}
    (hingest : db.ingest host call = .ok next) : next.Registered := by
  obtain ⟨publication, hpublish, hingest⟩ := bind_eq_ok.mp hingest
  have hpublished : EntityDb.Registered { db with toDb := publication.db } :=
    Db.Registered.publish hregistered hpublish
  dsimp only at hingest
  split at hingest
  · obtain ⟨paragraphs, -, hwrite⟩ := bind_eq_ok.mp hingest
    exact hpublished.writeClassifiers hwrite
  · cases hingest
    exact hpublished

end Operations

end DocStore
