import DocStore.Ingestion.Provenance
import DocStore.Ingestion.Rechunk
import DocStore.Runtime.ParagraphTexts

/-!
# Rebinding a document to a project

`rebind_document` names a project in the metadata of a document and merges it into the metadata of
its chapters, paragraphs and chunks. Other operations write this metadata too: an edit of a chunk
resets some keys of it, and a rechunking derives that of the document from its text again.

The link to a project is the pair of the keys `project` and `project_id`. The edits leave it alone,
while a rechunking that succeeds leaves no `project_id` at all. So a document stays bound exactly
when no rechunking of it succeeds and the rebind itself told its children what it told the document
(`bound_iff`).
-/

set_option autoImplicit false
set_option relaxedAutoImplicit false

namespace DocStore

open Foundation

/-! ### The service -/

/-- The arguments of `rebind_document`. The command has parsed the UUIDs. -/
structure RebindCall where
  documentId : Uuid
  project : Option Text := none
  projectId : Option Uuid := none
  projectDescription : Option Text := none
  documentProperties : Dict := []
  chunkProperties : Dict := []

/-- What `rebind_document` answers. -/
structure RebindReply where
  documentId : Uuid
  project : Option Text
  projectId : Option Uuid
  projectDescription : Option Text
  documentProperties : Dict
  chunkProperties : Dict
  updated : List (String × ℕ)

/-- The width of `projects.name`. -/
def projectNameWidth : ℕ := 512

/-- `_upsert_project`: a project of that name is undeleted, else one is written under the UUID. -/
def upsertProject (projectId : Option Uuid) (name : Text) (description : Option Text) (db : Db) :
    Except Failure (Uuid × Db) :=
  match projectId.filter fun _ ↦ (nonempty description).isSome with
  | none => .error (.rebind "PROJECT_ID_DESCRIPTION_REQUIRED"
      "project_id and project_description are required when project is supplied"
      [("project", .str name)])
  | some id =>
    match lookup ProjectRow.name name db.projects with
    | some existing => .ok (existing.id, { db with
        projects := updateWhere (fun row ↦ row.name = name)
          (fun row ↦ { row with isDeleted := false, deletedAt := none }) db.projects })
    | none => do
      raiseIf (projectNameWidth < name.length) (.outOfRange "projects.name")
      if hasKey (fun row : ProjectRow ↦ row.id) id db.projects then
        return (id, { db with
          projects := updateWhere (fun row ↦ row.id = id)
            (fun row ↦ { row with name, isDeleted := false, deletedAt := none }) db.projects })
      else do
        let db ← db.register .projects id
        return (id, { db with projects := db.projects ++ [{ id, ownerId := none, name }] })

/-- The project that a call names, with the UUID that is applied. -/
def applyProject (call : RebindCall) (db : Db) : Except Failure (Option Uuid × Db) :=
  match call.project with
  | none => .ok (call.projectId, db)
  | some project => do
    let (id, db) ← upsertProject call.projectId project call.projectDescription db
    return (some id, db)

/-- What a call says about the project. -/
def RebindCall.projectUpdates (call : RebindCall) (applied : Option Uuid) : Dict :=
  match call.project, applied with
  | some project, some id => [("project", .str project), ("project_id", .str (uuidText id)),
      ("project_description", .ofOption call.projectDescription)]
  | _, _ => []

/-- What is merged into the metadata of the document: here the project comes last. -/
def RebindCall.documentUpdates (call : RebindCall) (applied : Option Uuid) : Dict :=
  updateKeys (updateKeys [] call.documentProperties) (call.projectUpdates applied)

/-- What is merged into the metadata of the children: here the project comes first. -/
def RebindCall.childUpdates (call : RebindCall) (applied : Option Uuid) : Dict :=
  updateKeys (call.projectUpdates applied) (updateKeys [] call.chunkProperties)

/-- `_merge_child_meta` of the three tables. -/
def mergeChildMeta (documentId : Uuid) (updates : Dict) (db : Db) : Db :=
  { db with
    chapters := updateWhere (fun row ↦ row.documentId = documentId && row.deletedAt.isNone)
      (fun row ↦ { row with blockMeta := updateKeys row.blockMeta updates }) db.chapters
    paragraphs := updateWhere (fun row ↦ row.documentId = documentId && row.deletedAt.isNone)
      (fun row ↦ { row with blockMeta := updateKeys row.blockMeta updates }) db.paragraphs
    semanticChunks := updateWhere
      (fun row ↦ row.documentId = documentId && row.deletedAt.isNone)
      (fun row ↦ { row with blockMeta := updateKeys row.blockMeta updates }) db.semanticChunks }

/-- The number of rows that `_merge_child_meta` counts in each table. -/
def childCounts (documentId : Uuid) (db : Db) : List (String × ℕ) :=
  [("chapters", db.chapters.countP fun row ↦
      row.documentId = documentId && row.deletedAt.isNone),
    ("paragraphs", db.paragraphs.countP fun row ↦
      row.documentId = documentId && row.deletedAt.isNone),
    ("semantic_chunks", db.semanticChunks.countP fun row ↦
      row.documentId = documentId && row.deletedAt.isNone)]

/-- Writes the metadata of the document and merges that of its children. -/
def writeBlockMeta (documentId : Uuid) (documentMeta childUpdates : Dict) (db : Db) : Db :=
  mergeChildMeta documentId childUpdates { db with
    documents := updateWhere (fun row ↦ row.id = documentId)
      (fun row ↦ { row with blockMeta := documentMeta }) db.documents }

/-- `rebind_document`. -/
def rebindDocument (call : RebindCall) (db : Db) : Except Failure (RebindReply × Db) :=
  match db.documents.find? fun row ↦ row.id = call.documentId && row.deletedAt.isNone with
  | none => .error (.rebind "DOCUMENT_NOT_FOUND" "document was not found"
      [("document_id", .str (uuidText call.documentId))])
  | some document => do
    let (applied, db) ← applyProject call db
    let documentUpdates := call.documentUpdates applied
    let childUpdates := call.childUpdates applied
    let documentMeta := updateKeys document.blockMeta documentUpdates
    return (
      { documentId := call.documentId
        project := call.project
        projectId := applied
        projectDescription := call.projectDescription
        documentProperties := documentUpdates
        chunkProperties := childUpdates
        updated := ("documents", 1) :: childCounts call.documentId db },
      writeBlockMeta call.documentId documentMeta childUpdates db)

/-! ### Later operations -/

/-- A rechunking of the document, or an edit of the text of a chunk. -/
inductive LaterOperation where
  | rechunk (call : RechunkCall)
  | version (action : VersionAction)
  | replaceText (call : TextCall) (chunkUuid : Uuid) (textValue : Text)

/-- The store after an edit of the tables, which rolls back when it fails. -/
def EvidenceDb.afterEdit (store : EvidenceDb) (edited : Except Failure Db) : EvidenceDb :=
  match edited with
  | .ok db => { store with toDb := db }
  | .error _ => store

/-- What an operation does. -/
def LaterOperation.apply (host : Host) (documentId : Uuid) (store : EvidenceDb) :
    LaterOperation → EvidenceDb
  | .rechunk call => rechunkExisting host documentId call store
  | .version action => store.afterEdit (action.apply host store.toDb |>.map Prod.snd)
  | .replaceText call chunkUuid textValue => store.afterEdit
      (updateChunkValues host call chunkUuid { text := some textValue } store.toDb)

/-- What several operations do. -/
def applyLater (host : Host) (documentId : Uuid) (store : EvidenceDb)
    (later : List LaterOperation) : EvidenceDb :=
  later.foldl (LaterOperation.apply host documentId) store

/-- Whether an operation publishes the document again, that is, records a run that succeeded. -/
def LaterOperation.republishes (host : Host) (documentId : Uuid) (store : EvidenceDb) :
    LaterOperation → Bool
  | .rechunk call => ((rechunkExisting host documentId call store).processingRuns.drop
      store.processingRuns.length).any ProcessingRun.succeeded
  | .version _ | .replaceText _ _ _ => false

/-- Whether none of several operations publishes the document again. -/
def noneRepublishes (host : Host) (documentId : Uuid) : EvidenceDb → List LaterOperation → Bool
  | _, [] => true
  | store, operation :: later => !operation.republishes host documentId store &&
      noneRepublishes host documentId (operation.apply host documentId store) later

/-! ### Links to projects -/

/-- What metadata say about the project. -/
abbrev ProjectLink := Option Json × Option Json

/-- The link in some metadata. -/
def projectLink (blockMeta : Dict) : ProjectLink :=
  (getKey blockMeta "project", getKey blockMeta "project_id")

/-- The link to a project. -/
def linkTo (project : Text) (projectId : Uuid) : ProjectLink :=
  (some (.str project), some (.str (uuidText projectId)))

/-- The link of a document. -/
def Db.documentLink (db : Db) (documentId : Uuid) : Option ProjectLink :=
  (lookup (fun row : DocumentRow ↦ row.id) documentId db.documents).map fun row ↦
    projectLink row.blockMeta

/-- The links of the live chapters, paragraphs and chunks of a document. -/
def Db.childLinks (db : Db) (documentId : Uuid) : List ProjectLink :=
  ((db.chapters.filter fun row ↦ row.documentId = documentId && row.isLive).map fun row ↦
      projectLink row.blockMeta) ++
    ((db.paragraphs.filter fun row ↦ row.documentId = documentId && row.isLive).map fun row ↦
      projectLink row.blockMeta) ++
    (db.semanticChunks.filter fun row ↦ row.documentId = documentId && row.isLive).map fun row ↦
      projectLink row.blockMeta

/-- A document and its live children name a project. -/
def Bound (db : Db) (documentId : Uuid) (project : Text) (projectId : Uuid) : Prop :=
  db.documentLink documentId = some (linkTo project projectId) ∧
    ∀ link ∈ db.childLinks documentId, link = linkTo project projectId

/-- The metadata of a document are there and lack a `project_id`. -/
def LacksProjectId (db : Db) (documentId : Uuid) : Prop :=
  ∃ project, db.documentLink documentId = some (project, none)

/-- The links of two states are the same. -/
def SameLinks (documentId : Uuid) (db next : Db) : Prop :=
  next.documentLink documentId = db.documentLink documentId ∧
    next.childLinks documentId = db.childLinks documentId

/-! ### What a rebind leaves -/

section Rebinding

variable {call : RebindCall} {db next : Db} {applied : Option Uuid} {project : Text} {id : Uuid}

theorem documentLink_eq (hdocuments : next.documents = db.documents) (documentId : Uuid) :
    next.documentLink documentId = db.documentLink documentId := by
  rw [Db.documentLink, Db.documentLink, hdocuments]

theorem sameLinks_of_textTables (htables : next.textTables = db.textTables) (documentId : Uuid) :
    SameLinks documentId db next := by
  obtain ⟨hdocuments, hchapters, hparagraphs, hchunks, -⟩ := TextTables.mk.inj htables
  refine ⟨documentLink_eq hdocuments documentId, ?_⟩
  rw [Db.childLinks, Db.childLinks, hchapters, hparagraphs, hchunks]

theorem textTables_of_upsertProject {projectId description : Option _}
    (hupsert : upsertProject projectId project description db = .ok (id, next)) :
    next.textTables = db.textTables := by
  unfold upsertProject at hupsert
  split at hupsert
  · cases hupsert
  · split at hupsert
    · cases hupsert
      rfl
    · obtain ⟨-, hupsert⟩ := raiseIf_bind_eq_ok.mp hupsert
      split at hupsert
      · cases hupsert
        rfl
      · obtain ⟨-, hupsert⟩ := Db.register_bind_eq_ok.mp hupsert
        cases hupsert
        rfl

/-- The project is written into tables of its own. -/
theorem spec_of_applyProject (hproject : call.project = some project)
    (happly : applyProject call db = .ok (applied, next)) :
    (∃ id, applied = some id) ∧ next.textTables = db.textTables := by
  unfold applyProject at happly
  simp only [hproject] at happly
  obtain ⟨⟨id, upserted⟩, hupsert, happly⟩ := bind_eq_ok.mp happly
  cases happly
  exact ⟨⟨id, rfl⟩, textTables_of_upsertProject hupsert⟩

/-- Where an update names a link, that is what the updated metadata say. -/
theorem projectLink_updateKeys {updates : Dict} (hnodup : (updates.map Prod.fst).Nodup)
    (hproject : (getKey updates "project").isSome) (hid : (getKey updates "project_id").isSome)
    (blockMeta : Dict) : projectLink (updateKeys blockMeta updates) = projectLink updates := by
  obtain ⟨value, hvalue⟩ := Option.isSome_iff_exists.mp hproject
  obtain ⟨idValue, hidValue⟩ := Option.isSome_iff_exists.mp hid
  rw [projectLink, projectLink, getKey_updateKeys_of_nodup hnodup,
    getKey_updateKeys_of_nodup hnodup, hvalue, hidValue, Option.some_or, Option.some_or]

theorem projectUpdates_eq (hproject : call.project = some project) (id : Uuid) :
    call.projectUpdates (some id) = [("project", .str project),
      ("project_id", .str (uuidText id)),
      ("project_description", .ofOption call.projectDescription)] := by
  simp only [RebindCall.projectUpdates, hproject]

theorem nodup_projectUpdates (applied : Option Uuid) :
    ((call.projectUpdates applied).map Prod.fst).Nodup := by
  unfold RebindCall.projectUpdates
  split
  · simp
  · exact List.nodup_nil

/-- The document is told the project. -/
theorem projectLink_documentUpdates (hproject : call.project = some project) (id : Uuid)
    (blockMeta : Dict) :
    projectLink (updateKeys blockMeta (call.documentUpdates (some id))) = linkTo project id := by
  have hproperties : ((updateKeys [] call.documentProperties).map Prod.fst).Nodup :=
    nodup_updateKeys (by simp) _
  have hnodup : ((call.documentUpdates (some id)).map Prod.fst).Nodup :=
    nodup_updateKeys hproperties _
  have hlink : projectLink (call.documentUpdates (some id)) = linkTo project id := by
    rw [projectLink, RebindCall.documentUpdates,
      getKey_updateKeys_of_nodup (nodup_projectUpdates (some id)),
      getKey_updateKeys_of_nodup (nodup_projectUpdates (some id)), projectUpdates_eq hproject]
    simp [getKey, linkTo]
  have hname : getKey (call.documentUpdates (some id)) "project" = some (.str project) :=
    congrArg Prod.fst hlink
  have hid : getKey (call.documentUpdates (some id)) "project_id" = some (.str (uuidText id)) :=
    congrArg Prod.snd hlink
  rw [projectLink_updateKeys hnodup (by simp [hname]) (by simp [hid]), hlink]

/-- The children are told what the call says to them. -/
theorem projectLink_childUpdates (hproject : call.project = some project) (id : Uuid)
    (blockMeta : Dict) : projectLink (updateKeys blockMeta (call.childUpdates (some id))) =
      projectLink (call.childUpdates (some id)) := by
  have hproperties : ((updateKeys [] call.chunkProperties).map Prod.fst).Nodup :=
    nodup_updateKeys (by simp) _
  have hnodup : ((call.childUpdates (some id)).map Prod.fst).Nodup :=
    nodup_updateKeys (nodup_projectUpdates _) _
  refine projectLink_updateKeys hnodup ?_ ?_ blockMeta <;>
  · rw [RebindCall.childUpdates, getKey_updateKeys_of_nodup hproperties,
      projectUpdates_eq hproject, Option.isSome_or]
    simp [getKey]

/-- A live child of a document is among those that the merge selects. -/
theorem selected_of_live {documentId rowDocument : Uuid} {lifecycle : Lifecycle}
    (hlive : (decide (rowDocument = documentId) && lifecycle.isLive) = true) :
    (decide (rowDocument = documentId) && lifecycle.deletedAt.isNone) = true := by
  rw [Lifecycle.isLive, ← Bool.and_assoc, Bool.and_eq_true] at hlive
  exact hlive.1

/-- Every live child has the link that is merged. -/
theorem childLinks_writeBlockMeta {documentId : Uuid} {documentMeta updates : Dict}
    {link : ProjectLink}
    (hlink : ∀ blockMeta, projectLink (updateKeys blockMeta updates) = link) :
    (writeBlockMeta documentId documentMeta updates db).childLinks documentId =
      (db.childLinks documentId).map fun _ ↦ link := by
  rw [Db.childLinks, Db.childLinks, List.map_append, List.map_append, List.map_map, List.map_map,
    List.map_map]
  refine congrArg₂ _ (congrArg₂ _ ?_ ?_) ?_ <;>
  refine map_filter_updateWhere ?_ ?_ ?_ _ <;> intro row
  exacts [rfl, selected_of_live, hlink _, rfl, selected_of_live, hlink _, rfl, selected_of_live,
    hlink _]

/-- **What a rebind with a project leaves.** The document names the project, and each live child what
the call says to the children. -/
theorem links_of_rebindDocument {reply : RebindReply} (hproject : call.project = some project)
    (hrebind : rebindDocument call db = .ok (reply, next)) :
    ∃ id, reply.projectId = some id ∧
      next.documentLink call.documentId = some (linkTo project id) ∧
      next.childLinks call.documentId =
        (db.childLinks call.documentId).map (fun _ ↦ projectLink (call.childUpdates (some id))) ∧
      next.semanticChunks.map (fun row ↦ row.id) = db.semanticChunks.map fun row ↦ row.id := by
  unfold rebindDocument at hrebind
  split at hrebind
  next => cases hrebind
  next document hfound =>
    obtain ⟨⟨applied, upserted⟩, happly, hrebind⟩ := bind_eq_ok.mp hrebind
    obtain ⟨⟨id, rfl⟩, htables⟩ := spec_of_applyProject hproject happly
    obtain ⟨hdocuments, -, -, hchunks, -⟩ := TextTables.mk.inj htables
    cases hrebind
    refine ⟨id, rfl, ?_, ?_, ?_⟩
    · have hlookup : lookup (fun row : DocumentRow ↦ row.id) call.documentId upserted.documents ≠
          none := by
        intro hnone
        have hid := List.find?_some hfound
        simp only [Bool.and_eq_true, decide_eq_true_eq] at hid
        exact lookup_eq_none.mp hnone document
          (hdocuments ▸ List.mem_of_find?_eq_some hfound) hid.1
      obtain ⟨row, hrow⟩ := Option.ne_none_iff_exists'.mp hlookup
      rw [Db.documentLink, writeBlockMeta, mergeChildMeta,
        lookup_updateWhere (by intro _; rfl), hrow, Option.map_some, Option.map_some,
        if_pos (decide_eq_true (mem_of_lookup hrow).2)]
      exact congrArg some (projectLink_documentUpdates hproject id document.blockMeta)
    · rw [childLinks_writeBlockMeta (projectLink_childUpdates hproject id),
        (sameLinks_of_textTables htables call.documentId).2]
    · rw [← hchunks]
      exact map_updateWhere (by intro _; rfl) _

end Rebinding

/-! ### What the later operations leave -/

section Later

variable {host : Host} {documentId : Uuid} {store : EvidenceDb} {db next : Db}

theorem SameLinks.refl (documentId : Uuid) (db : Db) : SameLinks documentId db db := ⟨rfl, rfl⟩

/-- What the children's links depend on in a row of a chunk. -/
def chunkReading (row : SemanticChunkRow) : Uuid × Bool × ProjectLink :=
  (row.documentId, row.isLive, projectLink row.blockMeta)

/-- Links survive when the rows above the chunks stay and the chunks read the same. -/
theorem sameLinks_of_chunkReading (hdocuments : next.documents = db.documents)
    (hchapters : next.chapters = db.chapters) (hparagraphs : next.paragraphs = db.paragraphs)
    (hchunks : next.semanticChunks.map chunkReading = db.semanticChunks.map chunkReading) :
    SameLinks documentId db next := by
  have hread : ∀ rows : List SemanticChunkRow,
      (rows.filter fun row ↦ row.documentId = documentId && row.isLive).map
          (fun row ↦ projectLink row.blockMeta) =
        ((rows.map chunkReading).filter fun reading ↦
          reading.1 = documentId && reading.2.1).map fun reading ↦ reading.2.2 := by
    intro rows
    rw [List.filter_map, List.map_map]
    rfl
  refine ⟨documentLink_eq hdocuments documentId, ?_⟩
  rw [Db.childLinks, Db.childLinks, hchapters, hparagraphs, hread, hread, hchunks]

/-- A call of the version service writes no metadata of a chunk row. -/
theorem sameLinks_of_version (documentId : Uuid) {action : VersionAction} {reply : VersionReply}
    (happly : action.apply host db = .ok (reply, next)) :
    SameLinks documentId db next ∧
      next.semanticChunks.map (fun row ↦ row.id) = db.semanticChunks.map fun row ↦ row.id := by
  obtain ⟨chunk, hfound⟩ := exists_chunk_of_apply happly
  have hwrites := writesText_of_apply hfound happly
  cases hwritten : action.written chunk db with
  | none =>
    rw [hwritten] at hwrites
    refine ⟨sameLinks_of_textTables hwrites documentId, ?_⟩
    rw [show next.semanticChunks = db.semanticChunks from congrArg TextTables.semanticChunks hwrites]
  | some written =>
    rw [hwritten] at hwrites
    obtain ⟨row, -, -, htables⟩ := hwrites
    obtain ⟨hdocuments, hchapters, hparagraphs, hchunks, -⟩ := TextTables.mk.inj htables
    have hreading : next.semanticChunks.map chunkReading =
        db.semanticChunks.map chunkReading := by
      rw [hchunks]
      exact map_updateWhere (by intro _; rfl) _
    refine ⟨sameLinks_of_chunkReading hdocuments hchapters hparagraphs hreading, ?_⟩
    rw [hchunks]
    exact map_updateWhere (by intro _; rfl) _

/-- Resetting the metadata of a chunk keeps the link. -/
theorem projectLink_resetSemanticChunkBlockMeta (blockMeta : Dict) :
    projectLink (resetSemanticChunkBlockMeta blockMeta) = projectLink blockMeta := by
  have hkey : ∀ key, key ∉ resetBlockMetaFields → key ≠ "status" → key ≠ "category" →
      getKey (resetSemanticChunkBlockMeta blockMeta) key = getKey blockMeta key := by
    intro key hnot hstatus hcategory
    rw [resetSemanticChunkBlockMeta, getKey_setKey_of_ne _ _ hcategory,
      getKey_setKey_of_ne _ _ hstatus, getKey_popKeys_of_notMem _ hnot]
  rw [projectLink, projectLink, hkey "project" (by decide) (by decide) (by decide),
    hkey "project_id" (by decide) (by decide) (by decide)]

/-- A replaced text leaves the link of the chunk. -/
theorem sameLinks_of_replaceText (documentId : Uuid) {call : TextCall} {chunkUuid : Uuid}
    {textValue : Text}
    (hkeys : (db.semanticChunks.map fun row ↦ row.id).Nodup)
    (hupdate : updateChunkValues host call chunkUuid { text := some textValue } db = .ok next) :
    SameLinks documentId db next ∧
      next.semanticChunks.map (fun row ↦ row.id) = db.semanticChunks.map fun row ↦ row.id := by
  obtain ⟨chunk, hfound⟩ := exists_chunk_of_updateChunkValues hupdate
  have hassigned : (assignChunkValues chunkUuid { text := some textValue } db).textTables =
      db.textTables := by
    rw [assignChunkValues, Db.textTables, Db.textTables]
    exact congrArg (fun rows ↦ TextTables.mk db.documents db.chapters db.paragraphs rows _)
      ((List.map_congr_left fun row _ ↦ ite_self row).trans (List.map_id _))
  have htables := textTables_of_updateChunkValues hfound hupdate
  split at htables
  next =>
    have hsame := htables.trans hassigned
    refine ⟨sameLinks_of_textTables hsame documentId, ?_⟩
    rw [show next.semanticChunks = db.semanticChunks from congrArg TextTables.semanticChunks hsame]
  next text _ =>
    obtain ⟨hdocuments, hchapters, hparagraphs, hchunks, -⟩ := TextTables.mk.inj htables
    have hchunk := mem_of_lookup hfound
    have hold : (assignChunkValues chunkUuid { text := some textValue } db).semanticChunks =
        db.semanticChunks := congrArg TextTables.semanticChunks hassigned
    rw [storeText, hold] at hchunks
    have hreading : next.semanticChunks.map chunkReading =
        db.semanticChunks.map chunkReading := by
      rw [hchunks]
      refine map_updateWhere_of_mem fun row hrow hselected ↦ ?_
      obtain rfl := List.inj_on_of_nodup_map hkeys hrow hchunk.1
        ((of_decide_eq_true hselected).trans hchunk.2.symm)
      exact congrArg (fun link ↦ (row.documentId, row.isLive, link))
        (projectLink_resetSemanticChunkBlockMeta row.blockMeta)
    refine ⟨sameLinks_of_chunkReading hdocuments hchapters hparagraphs hreading, ?_⟩
    rw [hchunks]
    exact map_updateWhere (by intro _; rfl) _

/-- The metadata of a publication name no `project_id`. -/
theorem getKey_docMeta_project_id (request : NormalizedRequest) (bodySha256 : Text) (fileId : Uuid) :
    getKey (docMeta host request bodySha256 fileId) "project_id" = none := by
  have hproperties : getKey ((host.sourceProperties request.textValue).toDict
      (some (lit "doc-store"))) "project_id" = none := by
    rw [SourceProperties.toDict]
    cases (host.sourceProperties request.textValue).project.or (some (lit "doc-store")) <;>
      simp [getKey]
  rw [docMeta, getKey_updateKeys_of_forall_ne (getKey_eq_none.mp hproperties)]
  simp [getKey]

/-- A rechunking that does not publish leaves the hierarchy, and one that does leaves a document
without a `project_id`. -/
theorem links_of_rechunkExisting (host : Host) (documentId : Uuid) (store : EvidenceDb)
    (call : RechunkCall) :
    let operation : LaterOperation := .rechunk call
    let after := rechunkExisting host documentId call store
    (operation.republishes host documentId store = false ∧ after.textTables = store.textTables) ∨
      (operation.republishes host documentId store = true ∧
        LacksProjectId after.toDb documentId) := by
  intro operation after
  cases hrequest : rechunkRequest host documentId call store.toDb with
  | error failure =>
    have hafter : after = store := by
      show rechunkExisting host documentId call store = store
      rw [rechunkExisting, hrequest]
    refine Or.inl ⟨?_, by rw [hafter]⟩
    show (after.processingRuns.drop store.processingRuns.length).any _ = false
    rw [hafter, List.drop_length, List.any_nil]
  | ok request =>
    have hafter : after = (publishIn host call.ids request call.paragraphChunks
        call.sentenceChunks call.faults store).2 := by
      show rechunkExisting host documentId call store = _
      rw [rechunkExisting, hrequest]
    obtain ⟨commits, houtcome⟩ := publishIn_outcome host call.ids request call.paragraphChunks
      call.sentenceChunks call.faults store
    rw [← hafter] at houtcome
    have hruns : ∀ runs, after.processingRuns = store.processingRuns ++ runs →
        operation.republishes host documentId store = runs.any ProcessingRun.succeeded := by
      intro runs happended
      show (after.processingRuns.drop store.processingRuns.length).any _ = _
      rw [happended, List.drop_left]
    cases houtcome with
    | failed hdb =>
      refine Or.inl ⟨?_, congrArg Db.textTables hdb⟩
      rw [hruns [] (by rw [List.append_nil, hdb]), List.any_nil]
    | recorded _ hwrite _ hrecord =>
      obtain ⟨produced, happended, hmatch | hnot⟩ :=
        recordVerdict_eq_ok (processingRuns_of_writeHierarchy hwrite) hrecord
      · obtain ⟨-, hproduced, -, hdocuments⟩ := hmatch
        refine Or.inr ⟨?_, ?_⟩
        · rw [hruns _ happended, List.any_cons, List.any_nil, Bool.or_false]
          exact hproduced
        · obtain ⟨document, -, hlookup, -, hmeta, -⟩ := filed_of_writeHierarchy hwrite
          have hrequested : (mapPlan host request).documentId = documentId :=
            (rechunkRequest_eq_ok hrequest).1
          rw [hrequested, ← hdocuments] at hlookup
          refine ⟨getKey document.blockMeta "project", ?_⟩
          rw [Db.documentLink, hlookup, Option.map_some, projectLink, hmeta]
          exact congrArg (fun id ↦ some (_, id)) (getKey_docMeta_project_id request _ _)
      · obtain ⟨-, hproduced, hdb⟩ := hnot
        refine Or.inl ⟨?_, by rw [hdb]; rfl⟩
        rw [hruns _ happended, hproduced]
        rfl

/-- What an operation on tables with distinct chunks leaves, unless it publishes the document. -/
theorem sameLinks_of_apply (operation : LaterOperation)
    (hkeys : (store.semanticChunks.map fun row ↦ row.id).Nodup)
    (hnot : operation.republishes host documentId store = false) :
    let after := operation.apply host documentId store
    SameLinks documentId store.toDb after.toDb ∧
      (after.semanticChunks.map fun row ↦ row.id).Nodup := by
  cases operation with
  | rechunk call =>
    rcases links_of_rechunkExisting host documentId store call with
      ⟨-, htables⟩ | ⟨hpublished, -⟩
    · have hchunks : (rechunkExisting host documentId call store).semanticChunks =
          store.semanticChunks := congrArg TextTables.semanticChunks htables
      exact ⟨sameLinks_of_textTables htables documentId, hchunks ▸ hkeys⟩
    · exact absurd hpublished (by rw [hnot]; decide)
  | version action =>
    cases happly : action.apply host store.toDb with
    | error failure =>
      simp only [LaterOperation.apply, happly]
      exact ⟨SameLinks.refl documentId store.toDb, hkeys⟩
    | ok result =>
      obtain ⟨reply, next⟩ := result
      simp only [LaterOperation.apply, happly]
      obtain ⟨hsame, hids⟩ := sameLinks_of_version documentId happly
      exact ⟨hsame, hids ▸ hkeys⟩
  | replaceText call chunkUuid textValue =>
    cases hupdate : updateChunkValues host call chunkUuid { text := some textValue } store.toDb with
    | error failure =>
      simp only [LaterOperation.apply, hupdate]
      exact ⟨SameLinks.refl documentId store.toDb, hkeys⟩
    | ok next =>
      simp only [LaterOperation.apply, hupdate]
      obtain ⟨hsame, hids⟩ := sameLinks_of_replaceText documentId hkeys hupdate
      exact ⟨hsame, hids ▸ hkeys⟩

/-- Nothing but a rechunking writes the metadata of a document, so a `project_id` that is gone stays
gone. -/
theorem lacksProjectId_of_apply (operation : LaterOperation)
    (hlacks : LacksProjectId store.toDb documentId) :
    LacksProjectId (operation.apply host documentId store).toDb documentId := by
  cases operation with
  | rechunk call =>
    rcases links_of_rechunkExisting host documentId store call with ⟨-, htables⟩ | ⟨-, hafter⟩
    · obtain ⟨project, hlink⟩ := hlacks
      exact ⟨project, (sameLinks_of_textTables htables documentId).1.trans hlink⟩
    · exact hafter
  | version action =>
    cases happly : action.apply host store.toDb with
    | error failure =>
      simp only [LaterOperation.apply, happly]
      exact hlacks
    | ok result =>
      obtain ⟨reply, next⟩ := result
      obtain ⟨project, hlink⟩ := hlacks
      simp only [LaterOperation.apply, happly]
      exact ⟨project, (sameLinks_of_version documentId happly).1.1.trans hlink⟩
  | replaceText call chunkUuid textValue =>
    cases hupdate : updateChunkValues host call chunkUuid { text := some textValue } store.toDb with
    | error failure =>
      simp only [LaterOperation.apply, hupdate]
      exact hlacks
    | ok next =>
      obtain ⟨project, hlink⟩ := hlacks
      simp only [LaterOperation.apply, hupdate]
      exact ⟨project,
        (documentLink_eq (filing_of_updateChunkValues hupdate).2 documentId).trans hlink⟩

theorem not_bound_of_lacksProjectId {project : Text} {projectId : Uuid}
    (hlacks : LacksProjectId db documentId) : ¬Bound db documentId project projectId := by
  rintro ⟨hbound, -⟩
  obtain ⟨found, hlink⟩ := hlacks
  cases hlink.symm.trans hbound

/-- A document without a `project_id` does not get one back. -/
theorem lacksProjectId_of_applyLater (later : List LaterOperation)
    (hlacks : LacksProjectId store.toDb documentId) :
    LacksProjectId (applyLater host documentId store later).toDb documentId := by
  induction later generalizing store with
  | nil => exact hlacks
  | cons operation later ih => exact ih (lacksProjectId_of_apply operation hlacks)

/-- A document is bound after some operations exactly when it was and none published it again. -/
theorem bound_applyLater_iff {project : Text} {projectId : Uuid} (later : List LaterOperation)
    (hkeys : (store.semanticChunks.map fun row ↦ row.id).Nodup) :
    Bound (applyLater host documentId store later).toDb documentId project projectId ↔
      Bound store.toDb documentId project projectId ∧
        noneRepublishes host documentId store later = true := by
  induction later generalizing store with
  | nil => simp [applyLater, noneRepublishes]
  | cons operation later ih =>
    rw [noneRepublishes]
    show Bound (applyLater host documentId (operation.apply host documentId store) later).toDb
      documentId project projectId ↔ _
    cases hpublished : operation.republishes host documentId store with
    | false =>
      obtain ⟨hsame, hnext⟩ := sameLinks_of_apply operation hkeys hpublished
      have hbound : Bound (operation.apply host documentId store).toDb documentId project projectId
          ↔ Bound store.toDb documentId project projectId := by
        rw [Bound, Bound, hsame.1, hsame.2]
      rw [ih hnext, hbound, Bool.not_false, Bool.true_and]
    | true =>
      have hlacks : LacksProjectId (operation.apply host documentId store).toDb documentId := by
        cases operation with
        | rechunk call =>
          rcases links_of_rechunkExisting host documentId store call with ⟨hnot, -⟩ | ⟨-, hafter⟩
          · exact absurd hpublished (by rw [hnot]; decide)
          · exact hafter
        | version | replaceText => cases hpublished
      refine iff_of_false (not_bound_of_lacksProjectId (lacksProjectId_of_applyLater later hlacks))
        ?_
      simp

end Later

/-! ### A rebind and what follows -/

/-- What a call tells the live children of a document about the project. -/
def TellsChildren (call : RebindCall) (project : Text) (projectId : Uuid) (db : Db) : Prop :=
  db.childLinks call.documentId = [] ∨
    projectLink (call.childUpdates (some projectId)) = linkTo project projectId

/-- **When a rebind survives.** A document that was rebound to a project still names it after any
rechunkings and edits, together with its live chapters, paragraphs and chunks, exactly when the call
told the children no other project and no rechunking published the document again. -/
theorem bound_iff {host : Host} {call : RebindCall} {store : EvidenceDb} {rebound : Db}
    {reply : RebindReply} {project : Text} {projectId : Uuid}
    (hkeys : (store.semanticChunks.map fun row ↦ row.id).Nodup)
    (hproject : call.project = some project)
    (hrebind : rebindDocument call store.toDb = .ok (reply, rebound))
    (hid : reply.projectId = some projectId) (later : List LaterOperation) :
    Bound (applyLater host call.documentId { store with toDb := rebound } later).toDb
        call.documentId project projectId ↔
      TellsChildren call project projectId store.toDb ∧
        noneRepublishes host call.documentId { store with toDb := rebound } later = true := by
  obtain ⟨id, hreply, hlink, hchildren, hids⟩ := links_of_rebindDocument hproject hrebind
  obtain rfl := Option.some.inj (hreply.symm.trans hid)
  rw [bound_applyLater_iff later (show (rebound.semanticChunks.map _).Nodup from hids ▸ hkeys)]
  refine and_congr_left fun _ ↦ ?_
  rw [Bound, TellsChildren, hlink, hchildren]
  constructor
  · rintro ⟨-, hall⟩
    by_cases hnone : store.childLinks call.documentId = []
    · exact Or.inl hnone
    · obtain ⟨child, hchild⟩ := List.exists_mem_of_ne_nil _ hnone
      exact Or.inr (hall _ (List.mem_map_of_mem hchild))
  · intro htold
    refine ⟨rfl, fun link hmem ↦ ?_⟩
    obtain ⟨child, hchild, rfl⟩ := List.mem_map.mp hmem
    rcases htold with hnone | htold
    · exact absurd hchild (hnone ▸ List.not_mem_nil)
    · exact htold

/-- The published small document. -/
def publishedDocument : EvidenceDb := sampleFirst.2

/-- Binds the document to a project. -/
def sampleRebind : RebindCall where
  documentId := sampleRequest.documentId
  project := some (lit "p")
  projectId := some 7
  projectDescription := some (lit "d")

/-- The store after the rebind. -/
def reboundDocument : EvidenceDb :=
  publishedDocument.afterEdit ((rebindDocument sampleRebind publishedDocument.toDb).map Prod.snd)

/-- A new text for a chunk of the document. -/
def editsChunk : LaterOperation :=
  .replaceText { now := 30, versionId := sampleUuid 900 }
    ((publishedDocument.semanticChunks.head?.map fun row ↦ row.id).getD 0) (lit "z")

/-- The rebind succeeds and applies the project. -/
theorem rebindDocument_sampleRebind : ∃ reply rebound,
    rebindDocument sampleRebind publishedDocument.toDb = .ok (reply, rebound) ∧
      reply.projectId = some 7 ∧
      reboundDocument = { publishedDocument with toDb := rebound } := by
  obtain ⟨⟨reply, rebound⟩, hrebind⟩ := exists_of_succeeds (show succeeds
    (rebindDocument sampleRebind publishedDocument.toDb) = true by decide +kernel)
  have hreplied : ((toOption (rebindDocument sampleRebind publishedDocument.toDb)).bind
      fun result ↦ result.1.projectId) = some 7 := by
    decide +kernel
  rw [hrebind] at hreplied
  refine ⟨reply, rebound, hrebind, hreplied, ?_⟩
  rw [reboundDocument, hrebind]
  rfl

/-- The document is still bound after the edit of a chunk. -/
theorem bound_after_editsChunk :
    Bound (applyLater sampleHost sampleRebind.documentId reboundDocument [editsChunk]).toDb
      sampleRebind.documentId (lit "p") 7 := by
  obtain ⟨reply, rebound, hrebind, hid, hstore⟩ := rebindDocument_sampleRebind
  have hlater : noneRepublishes sampleHost sampleRebind.documentId reboundDocument [editsChunk] =
      true := by
    rfl
  rw [hstore] at hlater ⊢
  exact (bound_iff (by decide +kernel) rfl hrebind hid [editsChunk]).mpr ⟨Or.inr rfl, hlater⟩

/-- A rechunking ends the binding: the document has no `project_id` any more. -/
theorem not_bound_after_sampleRechunk : ∃ reply rebound,
    rebindDocument sampleRebind publishedDocument.toDb = .ok (reply, rebound) ∧
      sampleRebind.project = some (lit "p") ∧ reply.projectId = some 7 ∧
      sampleRebind.chunkProperties = [] ∧
      ¬Bound (applyLater sampleHost sampleRebind.documentId
        { publishedDocument with toDb := rebound } [.rechunk sampleRechunk]).toDb
          sampleRebind.documentId (lit "p") 7 := by
  obtain ⟨reply, rebound, hrebind, hid, hstore⟩ := rebindDocument_sampleRebind
  refine ⟨reply, rebound, hrebind, rfl, hid, rfl, ?_⟩
  rw [← hstore]
  have hgone : (((applyLater sampleHost sampleRebind.documentId reboundDocument
      [.rechunk sampleRechunk]).documentLink sampleRebind.documentId).any
        fun link ↦ link.2.isNone) = true := by
    decide +kernel
  obtain ⟨⟨project, id⟩, hlink, hnone⟩ := (Option.any_eq_true _ _).mp hgone
  obtain rfl := Option.isNone_iff_eq_none.mp hnone
  exact not_bound_of_lacksProjectId ⟨project, hlink⟩

end DocStore
