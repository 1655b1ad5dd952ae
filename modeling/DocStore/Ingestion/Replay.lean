import DocStore.Ingestion.Provenance
import DocStore.Ingestion.RechunkedText
import DocStore.Runtime.Invalidation

/-!
# Replay

A publication is answered from what is stored when the file of the document carries a digest of the
request, or the document its source version, and nothing waits to be processed again. Neither says
what the text of the document is: the text may be edited, and a source version may be offered with
another text. `replay_sound_of_run` is the condition under which an answer can be relied on: a
version and a digest never stand for two texts, and nothing but an ingestion shows a reader of the
document something else than what was there to be read.
-/

set_option autoImplicit false
set_option relaxedAutoImplicit false

namespace DocStore

open Foundation

variable {ν : Type}

/-! ### The answer -/

/-- What `_load_document_file_state` returns, but for the digest of the document, which nothing
reads. -/
structure DocumentFileState where
  documentNeedsRevectorize : Bool
  fileId : Option Uuid
  fileContentSha256 : Option Text
  fileBodySha256 : Option Text
  fileNeedsRevectorize : Bool
  fileNeedsRechunk : Bool

/-- The document with a UUID, unless it has a deletion time. -/
def undeletedDocument (db : Db) (documentId : Uuid) : Option DocumentRow :=
  (lookup (fun row : DocumentRow ↦ row.id) documentId db.documents).filter fun row ↦
    row.deletedAt.isNone

/-- The file that owns a document. -/
def ownerFile (db : Db) (document : DocumentRow) : Option FileRow :=
  document.ownerId.bind fun ownerId ↦ lookup (fun row : FileRow ↦ row.id) ownerId db.files

/-- `_load_document_file_state`. -/
def loadDocumentFileState (documentId : Uuid) (store : VectorDb ν) : Option DocumentFileState :=
  (undeletedDocument store.toDb documentId).map fun document ↦
    let file := ownerFile store.toDb document
    { documentNeedsRevectorize := store.documentsToRevectorize.contains document.id
      fileId := file.map fun row ↦ row.id
      fileContentSha256 := file.map FileRow.contentSha256
      fileBodySha256 := file.map FileRow.bodySha256
      fileNeedsRevectorize := file.any fun row ↦ store.filesToRevectorize.contains row.id
      fileNeedsRechunk := file.any fun row ↦ store.filesToRechunk.contains row.id }

/-- Nothing waits to be processed again. -/
def DocumentFileState.quiescent (state : DocumentFileState) : Bool :=
  !state.fileNeedsRechunk && !state.fileNeedsRevectorize && !state.documentNeedsRevectorize

/-- `idempotent_reason`. -/
inductive ReplayReason where
  | fileChecksumMatch
  | sourceVersionMatch
  | revectorizationPending
deriving DecidableEq, Repr

/-- The references with which a publication is answered. -/
structure ReplayReference where
  idempotent : Bool
  reason : ReplayReason
  documentId : Uuid
  sourceVersionId : Text
  sourceVersion : ℕ
  chunkIds : List Uuid
  chunkingStrategy : Text

/-- The chunks of a document that have no deletion time, in order. -/
def existingChunks (db : Db) (documentId : Uuid) : List Uuid :=
  ((db.semanticChunks.filter fun row ↦
    row.documentId = documentId && row.deletedAt.isNone).insertionSort fun first second ↦
      first.orderIndex ≤ second.orderIndex).map fun row ↦ row.id

/-- `_existing_references`. -/
def existingReferences (plan : PersistencePlan) (store : VectorDb ν) (chunkingStrategy : Text)
    (idempotent : Bool) (reason : ReplayReason) : ReplayReference where
  idempotent
  reason
  documentId := plan.documentId
  sourceVersionId := plan.sourceVersionId
  sourceVersion := plan.sourceVersion
  chunkIds := existingChunks store.toDb plan.documentId
  chunkingStrategy

/-- `_committed_document_row`: the chunking strategy of the document, if it carries the source
version. -/
def committedDocumentRow (host : Host) (plan : PersistencePlan) (db : Db) : Option Text :=
  ((lookup (fun row : DocumentRow ↦ row.id) plan.documentId db.documents).filter fun row ↦
    jsonText host row.blockMeta "source_version_id" = some plan.sourceVersionId).map fun row ↦
      (nonempty (jsonText host row.blockMeta "chunking_strategy")).getD plan.chunkingStrategy

/-- `_replay_reference` with the plan of the request. -/
def replayReference (host : Host) (plan : PersistencePlan) (store : VectorDb ν) :
    Option ReplayReference :=
  if plan.command = lit "document_chunk" then none
  else match loadDocumentFileState plan.documentId store with
    | none => none
    | some state =>
      if plan.filename.isSome && state.quiescent &&
          (state.fileContentSha256 = some plan.contentSha256 ||
            state.fileBodySha256 = some plan.bodySha256) then
        some (existingReferences plan store plan.chunkingStrategy true .fileChecksumMatch)
      else match committedDocumentRow host plan store.toDb with
        | none => none
        | some chunkingStrategy =>
          if state.quiescent then
            some (existingReferences plan store chunkingStrategy true .sourceVersionMatch)
          else if !state.fileNeedsRechunk &&
              (state.fileNeedsRevectorize || state.documentNeedsRevectorize) then
            some (existingReferences plan store chunkingStrategy false .revectorizationPending)
          else none

/-! ### Publication with an answer -/

/-- A call of `publish_document`. -/
structure PublishCall where
  ids : PublicationIds
  request : NormalizedRequest
  paragraphChunks : List RuntimeChunk
  sentenceChunks : List RuntimeChunk

/-- What a publication that matches leaves of the embeddings and the flags. -/
def VectorDb.published (store : VectorDb ν) (plan : PersistencePlan) (db : Db) : VectorDb ν where
  toDb := db
  embeddings := deactivate
    (fun row ↦ row.chunkUuid.any (existingChunks store.toDb plan.documentId).contains)
    store.embeddings
  documentsToRevectorize := plan.documentId :: store.documentsToRevectorize
  filesToRevectorize := plan.fileId :: store.filesToRevectorize
  filesToRechunk := clearFlag (fun id ↦ id = plan.fileId) store.filesToRechunk

/-- `publish_document`: the reference with which it answers, and the tables it leaves. -/
def publishDocument (host : Host) (call : PublishCall) (store : VectorDb ν) :
    Except Failure (Option ReplayReference × VectorDb ν) :=
  match replayReference host (mapPlan host call.request) store with
  | some reference => .ok (some reference, store)
  | none => do
    let publication ← publish host call.ids call.request call.paragraphChunks call.sentenceChunks
      store.toDb
    return (none, if publication.integrityOutcome = .matching then
      store.published (mapPlan host call.request) publication.db
      else { store with toDb := publication.db })

/-- The statements with which a rebuild of the vectors of some documents ends. -/
def clearReprocessing (documentIds : List Uuid) (store : VectorDb ν) : VectorDb ν :=
  { store with
    documentsToRevectorize := clearFlag documentIds.contains store.documentsToRevectorize
    filesToRevectorize :=
      clearFlag (documentIds.flatMap store.documentOwners).contains store.filesToRevectorize }

/-- What an answer promises: the document that it names is live, and its text is the one that was
offered. -/
def ReplaySound (host : Host) (request : NormalizedRequest) (store : VectorDb ν) : Prop :=
  ∀ reference, replayReference host (mapPlan host request) store = some reference →
    (∃ document, lookup (fun row : DocumentRow ↦ row.id) reference.documentId store.documents =
        some document ∧ document.isLive = true) ∧
      currentText host store.toDb reference.documentId = some request.textValue

/-! ### What is to be seen of a document -/

/-- The source version and the digests that are stored for a document, and the text that a reader
gets. -/
structure DocumentView where
  sourceVersionId : Option Text
  contentSha256 : Option Text
  bodySha256 : Option Text
  text : Option Text

/-- What is to be seen of a document that has no deletion time. -/
def documentView (host : Host) (documentId : Uuid) (db : Db) : Option DocumentView :=
  (undeletedDocument db documentId).map fun document ↦
    { sourceVersionId := jsonText host document.blockMeta "source_version_id"
      contentSha256 := (ownerFile db document).map FileRow.contentSha256
      bodySha256 := (ownerFile db document).map FileRow.bodySha256
      text := currentText host db documentId }

/-- The texts that source versions and digests stand for. -/
structure Identities where
  ofVersion : Text → Text
  ofContent : Text → Text
  ofBody : Text → Text

/-- The source version and the digests of a request stand for the text that it offers. -/
structure Identities.Names (identities : Identities) (host : Host) (request : NormalizedRequest) :
    Prop where
  nonempty : request.textValue ≠ []
  version : identities.ofVersion request.sourceVersionId = request.textValue
  content : identities.ofContent request.contentSha256 = request.textValue
  body : identities.ofBody (host.hexdigest request.textValue) = request.textValue

/-- What is to be seen of a document has the text that its source version and its digests stand
for. -/
def Identities.Fits (identities : Identities) (view : DocumentView) : Prop :=
  ∃ text, view.text = some text ∧
    (∀ sourceVersionId ∈ view.sourceVersionId, identities.ofVersion sourceVersionId = text) ∧
    (∀ digest ∈ view.contentSha256, identities.ofContent digest = text) ∧
    ∀ digest ∈ view.bodySha256, identities.ofBody digest = text

/-- A view shows the text of another one, and no version and no digest but those of the other. -/
structure DocumentView.Within (view last : DocumentView) : Prop where
  text : view.text = last.text
  version : ∀ sourceVersionId ∈ view.sourceVersionId, sourceVersionId ∈ last.sourceVersionId
  content : ∀ digest ∈ view.contentSha256, digest ∈ last.contentSha256
  body : ∀ digest ∈ view.bodySha256, digest ∈ last.bodySha256

theorem Identities.Fits.within {identities : Identities} {view last : DocumentView}
    (hlast : identities.Fits last) (hwithin : view.Within last) : identities.Fits view := by
  obtain ⟨text, htext, hversion, hcontent, hbody⟩ := hlast
  exact ⟨text, hwithin.text.trans htext, fun id hid ↦ hversion id (hwithin.version id hid),
    fun digest hdigest ↦ hcontent digest (hwithin.content digest hdigest),
    fun digest hdigest ↦ hbody digest (hwithin.body digest hdigest)⟩

/-! ### Runs -/

/-- An operation on the store. -/
inductive StoreAction (ν : Type) where
  | ingest (call : PublishCall)
  | edit (operation : TextOperation ν)
  | rebuild (documentIds : List Uuid)
  | other (next : VectorDb ν)

/-- What an operation leaves. One that fails leaves everything as it was. -/
def StoreAction.apply (host : Host) (store : VectorDb ν) : StoreAction ν → VectorDb ν
  | .ingest call => ((toOption (publishDocument host call store)).map Prod.snd).getD store
  | .edit operation => (toOption (operation.apply host store)).getD store
  | .rebuild documentIds => clearReprocessing documentIds store
  | .other next => next

/-- The store, with what was last to be seen of a document. -/
structure WatchedDb (ν : Type) extends VectorDb ν where
  lastSeen : Option DocumentView := none

/-- What an operation leaves, watched from a document. -/
def StoreAction.watched (host : Host) (documentId : Uuid) (store : WatchedDb ν)
    (action : StoreAction ν) : WatchedDb ν :=
  let next := action.apply host store.toVectorDb
  { next with lastSeen := (documentView host documentId next.toDb).or store.lastSeen }

/-- An operation as a step. -/
def watchedStep (host : Host) (documentId : Uuid) (store : WatchedDb ν) (action : StoreAction ν) :
    Option (WatchedDb ν) :=
  some (action.watched host documentId store)

/-- An operation may hide the document and bring it back, but shows nothing else of it than what was
last to be seen. The declared constraints hold afterwards. -/
structure ShowsNothingElse (host : Host) (documentId : Uuid) (store : WatchedDb ν)
    (next : VectorDb ν) : Prop where
  consistent : next.Consistent
  view : ∀ view ∈ documentView host documentId next.toDb,
    ∃ last ∈ store.lastSeen, view.Within last

/-- The condition on an operation: an ingestion of the document offers the text that its source
version and its digests stand for, and any other operation shows nothing else of the document. -/
def KeepsIdentities (host : Host) (documentId : Uuid) (identities : Identities)
    (store : WatchedDb ν) (action : StoreAction ν) : Prop :=
  match action with
  | .ingest call =>
    if call.request.documentId = documentId then identities.Names host call.request
    else ShowsNothingElse host documentId store (action.apply host store.toVectorDb)
  | .rebuild _ => True
  | .edit _ | .other _ =>
    ShowsNothingElse host documentId store (action.apply host store.toVectorDb)

section Soundness

variable {host : Host} {documentId : Uuid} {identities : Identities} {request : NormalizedRequest}

/-! ### From the view to the answer -/

/-- A document whose text can be read is live. -/
theorem isLive_of_currentText {db : Db} {text : Text}
    (hread : currentText host db documentId = some text) :
    ∃ document, lookup (fun row : DocumentRow ↦ row.id) documentId db.documents = some document ∧
      document.isLive = true := by
  have hrows : joinedRows host db documentId ≠ [] := by
    intro hempty
    rw [currentText, hempty] at hread
    cases hread
  rw [joinedRows, Ne, List.map_eq_nil_iff, ← List.length_eq_zero_iff, List.length_insertionSort,
    List.length_eq_zero_iff] at hrows
  obtain ⟨joined, hjoined⟩ := List.exists_mem_of_ne_nil _ hrows
  obtain ⟨chunk, hchunk, hjoin⟩ := List.mem_filterMap.mp hjoined
  have hdocument := of_decide_eq_true (List.mem_filter.mp hchunk).2
  simp only [joinChunk, Option.bind_eq_bind, Option.bind_eq_some_iff] at hjoin
  obtain ⟨_, -, _, -, _, -, document, hlookup, hjoin⟩ := hjoin
  split at hjoin
  next hlive =>
    rw [Bool.and_eq_true, Bool.and_eq_true, Bool.and_eq_true] at hlive
    exact ⟨document, hdocument ▸ hlookup, hlive.1.1.1⟩
  next => cases hjoin

/-- An answer is given for a request whose source version or one of whose digests is to be seen of
the document. -/
theorem view_of_replayReference {store : VectorDb ν} {reference : ReplayReference}
    (hreply : replayReference host (mapPlan host request) store = some reference) :
    reference.documentId = request.documentId ∧
      ∃ view, documentView host request.documentId store.toDb = some view ∧
        (request.contentSha256 ∈ view.contentSha256 ∨
          host.hexdigest request.textValue ∈ view.bodySha256 ∨
          request.sourceVersionId ∈ view.sourceVersionId) := by
  unfold replayReference at hreply
  split at hreply
  · cases hreply
  · split at hreply
    · cases hreply
    next state hstate =>
      obtain ⟨document, hdocument, rfl⟩ := Option.map_eq_some_iff.mp hstate
      have hview : documentView host request.documentId store.toDb = some _ :=
        congrArg (Option.map _) hdocument
      split at hreply
      next hmatches =>
        cases hreply
        simp only [Bool.and_eq_true, Bool.or_eq_true, decide_eq_true_eq] at hmatches
        exact ⟨rfl, _, hview, hmatches.2.imp_right Or.inl⟩
      next =>
        split at hreply
        · cases hreply
        next chunkingStrategy hcommitted =>
          obtain ⟨row, hrow, -⟩ := Option.map_eq_some_iff.mp hcommitted
          obtain ⟨hrow, hversion⟩ := Option.filter_eq_some_iff.mp hrow
          obtain ⟨hlookup, -⟩ := Option.filter_eq_some_iff.mp hdocument
          obtain rfl : row = document := Option.some.inj (hrow.symm.trans hlookup)
          have hshown : request.sourceVersionId ∈
              jsonText host row.blockMeta "source_version_id" := of_decide_eq_true hversion
          split at hreply
          · cases hreply
            exact ⟨rfl, _, hview, Or.inr (Or.inr hshown)⟩
          · split at hreply
            · cases hreply
              exact ⟨rfl, _, hview, Or.inr (Or.inr hshown)⟩
            · cases hreply

/-- An answer can be relied on when the view of the document and the request agree on what versions
and digests stand for. -/
theorem replaySound_of_fits {store : VectorDb ν} (hrequest : identities.Names host request)
    (hfits : ∀ view ∈ documentView host request.documentId store.toDb, identities.Fits view) :
    ReplaySound host request store := by
  intro reference hreply
  obtain ⟨hdocument, view, hview, hidentity⟩ := view_of_replayReference hreply
  obtain ⟨text, htext, hversion, hcontent, hbody⟩ := hfits view hview
  have hoffered : text = request.textValue := by
    rcases hidentity with hidentity | hidentity | hidentity
    · exact (hcontent _ hidentity).symm.trans hrequest.content
    · exact (hbody _ hidentity).symm.trans hrequest.body
    · exact (hversion _ hidentity).symm.trans hrequest.version
  obtain ⟨document, -, rfl⟩ := Option.map_eq_some_iff.mp hview
  rw [hdocument]
  exact ⟨isLive_of_currentText htext, htext.trans (congrArg some hoffered)⟩

/-! ### From a publication to the view -/

/-- The properties of a source have two keys. -/
theorem ne_of_mem_sourceProperties (host : Host) (text : Text) {key : String} (htags : key ≠ "tags")
    (hproject : key ≠ "project") :
    ∀ entry ∈ (host.sourceProperties text).toDict (some (lit "doc-store")), entry.1 ≠ key := by
  rw [SourceProperties.toDict]
  cases (host.sourceProperties text).project.or (some (lit "doc-store")) <;>
    simp [htags.symm, hproject.symm]

/-- The source version that a document is written with. -/
theorem jsonText_docMeta (host : Host) (request : NormalizedRequest) (bodySha256 : Text)
    (fileId : Uuid) : jsonText host (docMeta host request bodySha256 fileId) "source_version_id" =
      some request.sourceVersionId := by
  have hfound : getKey (docMeta host request bodySha256 fileId) "source_version_id" =
      some (.str request.sourceVersionId) := by
    rw [docMeta, getKey_updateKeys_of_forall_ne
      (ne_of_mem_sourceProperties host request.textValue (by decide) (by decide))]
    rfl
  rw [jsonText, getValue, hfound]
  rfl

/-- The chunking strategy that a document is written with. -/
theorem jsonText_docMeta_strategy (host : Host) (request : NormalizedRequest) (bodySha256 : Text)
    (fileId : Uuid) : jsonText host (docMeta host request bodySha256 fileId) "chunking_strategy" =
      some request.chunkingStrategy := by
  have hfound : getKey (docMeta host request bodySha256 fileId) "chunking_strategy" =
      some (.str request.chunkingStrategy) := by
    rw [docMeta, getKey_updateKeys_of_forall_ne
      (ne_of_mem_sourceProperties host request.textValue (by decide) (by decide))]
    rfl
  rw [jsonText, getValue, hfound]
  rfl

/-- A publication that matches leaves the tables with the written hierarchy, from which the text is
read. -/
theorem written_of_publish {ids : PublicationIds} {paragraphChunks sentenceChunks : List RuntimeChunk}
    {db : Db} (hdb : db.Consistent) {publication : Publication}
    (hpublish : publish host ids request paragraphChunks sentenceChunks db = .ok publication)
    (hmatch : publication.integrityOutcome = .matching) (hne : request.textValue ≠ []) :
    ∃ paragraphs hierarchy runs assertions,
      exactSentencePlan request.textValue paragraphChunks sentenceChunks = .ok paragraphs ∧
        writeHierarchy host ids (mapPlan host request)
          (resolvePrimarySource host (mapPlan host request) db) paragraphs db = .ok hierarchy ∧
        publication.db = { hierarchy with
          processingRuns := runs
          temporalAssertions := assertions } ∧
        currentText host hierarchy request.documentId = some request.textValue := by
  obtain ⟨-, hpublish⟩ := raiseIf_bind_eq_ok.mp hpublish
  obtain ⟨-, hpublish⟩ := raiseIf_bind_eq_ok.mp hpublish
  obtain ⟨paragraphs, hplan, hpublish⟩ := bind_eq_ok.mp hpublish
  obtain ⟨hierarchy, hwrite, hpublish⟩ := bind_eq_ok.mp hpublish
  obtain ⟨reconstructed, hreconstructed, hconclude⟩ := bind_eq_ok.mp hpublish
  obtain ⟨recorded, hrecord, hconclude⟩ := bind_eq_ok.mp hconclude
  cases hconclude
  obtain ⟨kept, runs, assertions, rfl, ⟨hverdict, rfl⟩ | ⟨hnot, -⟩⟩ := tables_of_recordVerdict hrecord
  · have hread : reconstructedScopeText host kept request.documentId = .ok request.textValue := by
      rw [show request.textValue = reconstructed from eq_of_integrityVerdict hverdict]
      exact hreconstructed
    exact ⟨paragraphs, kept, runs, assertions, hplan, hwrite, rfl,
      currentText_of_reconstructedScopeText (nodup_joinedRows_of_writeHierarchy hdb hwrite) hread hne⟩
  · exact absurd hmatch hnot

/-- What is to be seen of a document after a publication is what was to be seen before, or it fits
the request. -/
theorem fits_of_publish {ids : PublicationIds} {paragraphChunks sentenceChunks : List RuntimeChunk}
    {db : Db} (hdb : db.Consistent) (hrequest : identities.Names host request)
    {publication : Publication}
    (hpublish : publish host ids request paragraphChunks sentenceChunks db = .ok publication) :
    publication.db.Consistent ∧
      ∀ view ∈ documentView host request.documentId publication.db,
        documentView host request.documentId db = some view ∨ identities.Fits view := by
  by_cases hmatch : publication.integrityOutcome = .matching
  · obtain ⟨paragraphs, kept, runs, assertions, -, hwrite, htables, htext⟩ :=
      written_of_publish hdb hpublish hmatch hrequest.nonempty
    rw [htables]
    refine ⟨(hdb.writeHierarchy hwrite).withEvidence runs assertions, fun view hview ↦ Or.inr ?_⟩
    obtain ⟨document, file, hdocument, howner, hmeta, hfile, -, hcontent, hbody, -⟩ :=
      filed_of_writeHierarchy hwrite
    obtain ⟨row, hrow, rfl⟩ := Option.map_eq_some_iff.mp hview
    obtain ⟨hrow, -⟩ := Option.filter_eq_some_iff.mp hrow
    obtain rfl : document = row := Option.some.inj (hdocument.symm.trans hrow)
    have hfiled : ownerFile kept document = some file := by
      rw [ownerFile, howner]
      exact hfile
    refine ⟨request.textValue, htext, ?_, ?_, ?_⟩
    · intro sourceVersionId hversion
      rw [hmeta] at hversion
      obtain rfl := Option.some.inj ((jsonText_docMeta host request _ _).symm.trans hversion)
      exact hrequest.version
    · intro digest hdigest
      obtain rfl : file.contentSha256 = digest :=
        Option.some.inj ((congrArg (Option.map _) hfiled).symm.trans hdigest)
      rw [hcontent]
      exact hrequest.content
    · intro digest hdigest
      obtain rfl : file.bodySha256 = digest :=
        Option.some.inj ((congrArg (Option.map _) hfiled).symm.trans hdigest)
      rw [hbody]
      exact hrequest.body
  · obtain ⟨_, _, kept, runs, assertions, -, -, htables, ⟨hmatched, -⟩ | ⟨-, rfl⟩⟩ :=
      tables_of_publish hpublish
    · exact absurd hmatched hmatch
    · rw [htables]
      exact ⟨hdb.withEvidence runs assertions, fun view hview ↦ Or.inl hview⟩

/-! ### Runs -/

/-- What holds in every state of a run: what was last to be seen of the document fits, and so does
what is to be seen. -/
structure Kept (host : Host) (documentId : Uuid) (identities : Identities) (store : WatchedDb ν) :
    Prop where
  consistent : store.Consistent
  last : ∀ last ∈ store.lastSeen, identities.Fits last
  view : ∀ view ∈ documentView host documentId store.toDb, identities.Fits view

/-- What an operation keeps that leaves a document as it fits. -/
theorem Kept.watched {store : WatchedDb ν} {next : VectorDb ν}
    (hstore : Kept host documentId identities store) (hnext : next.Consistent)
    (hview : ∀ view ∈ documentView host documentId next.toDb, identities.Fits view) :
    Kept host documentId identities
      { next with lastSeen := (documentView host documentId next.toDb).or store.lastSeen } := by
  refine ⟨hnext, fun last hlast ↦ ?_, hview⟩
  rcases Option.or_eq_some_iff.mp hlast with hlast | ⟨-, hlast⟩
  · exact hview last hlast
  · exact hstore.last last hlast

/-- What an ingestion of the document keeps. -/
theorem Kept.publishDocument {store : WatchedDb ν} {call : PublishCall}
    (hstore : Kept host call.request.documentId identities store)
    (hrequest : identities.Names host call.request) :
    let next := (StoreAction.ingest call : StoreAction ν).apply host store.toVectorDb
    next.Consistent ∧
      ∀ view ∈ documentView host call.request.documentId next.toDb, identities.Fits view := by
  intro next
  have hsame : next = (StoreAction.ingest call).apply host store.toVectorDb := rfl
  dsimp only [StoreAction.apply] at hsame
  cases hpublish : DocStore.publishDocument host call store.toVectorDb with
  | error failure =>
    rw [hsame, hpublish]
    exact ⟨hstore.consistent, hstore.view⟩
  | ok result =>
    rw [hsame, hpublish]
    unfold DocStore.publishDocument at hpublish
    split at hpublish
    · cases hpublish
      exact ⟨hstore.consistent, hstore.view⟩
    · obtain ⟨publication, hpublication, hresult⟩ := bind_eq_ok.mp hpublish
      obtain ⟨hconsistent, hviews⟩ := fits_of_publish hstore.consistent hrequest hpublication
      have hfits : ∀ view ∈ documentView host call.request.documentId publication.db,
          identities.Fits view :=
        fun view hview ↦ (hviews view hview).elim (fun hbefore ↦ hstore.view view hbefore) id
      cases hresult
      dsimp only [toOption_ok, Option.map_some, Option.getD_some]
      split <;> exact ⟨hconsistent, hfits⟩

/-- What an operation under the condition keeps. -/
theorem Kept.step {store next : WatchedDb ν} {action : StoreAction ν}
    (hstore : Kept host documentId identities store)
    (hallowed : KeepsIdentities host documentId identities store action)
    (hstep : watchedStep host documentId store action = some next) :
    Kept host documentId identities next := by
  cases hstep
  have hother : ShowsNothingElse host documentId store (action.apply host store.toVectorDb) →
      Kept host documentId identities { action.apply host store.toVectorDb with
        lastSeen := (documentView host documentId
          (action.apply host store.toVectorDb).toDb).or store.lastSeen } := by
    intro hshows
    refine hstore.watched hshows.consistent fun view hview ↦ ?_
    obtain ⟨last, hlast, hwithin⟩ := hshows.view view hview
    exact (hstore.last last hlast).within hwithin
  cases action with
  | rebuild documentIds => exact hstore.watched hstore.consistent hstore.view
  | edit operation => exact hother hallowed
  | other tables => exact hother hallowed
  | ingest call =>
    rw [KeepsIdentities] at hallowed
    split at hallowed
    next hdocument =>
      subst hdocument
      obtain ⟨hnext, hview⟩ := hstore.publishDocument hallowed
      exact hstore.watched hnext hview
    next => exact hother hallowed

/-- **When an answer can be relied on.** In every run from the empty store in which every ingestion
of a document offers the text that its source version and its digests stand for, and no other
operation shows anything else of the document than what was last to be seen: in every state, a
request for the document that offers such a text is answered only when the document is live and its
text is the one that is offered. -/
theorem replay_sound_of_run {final : WatchedDb ν}
    (hrun : Steps (watchedStep host documentId) (KeepsIdentities host documentId identities) {}
      final)
    (hdocument : request.documentId = documentId) (hrequest : identities.Names host request) :
    ReplaySound host request final.toVectorDb := by
  subst hdocument
  have hempty : Kept host request.documentId identities ({} : WatchedDb ν) :=
    ⟨Db.consistent_empty, nofun, nofun⟩
  have hfinal : Kept host request.documentId identities final :=
    hrun.invariant hempty fun _ _ _ hstate hallowed hstep ↦ hstate.step hallowed hstep
  exact replaySound_of_fits hrequest hfinal.view

end Soundness

/-- The publication of the small document. -/
def samplePublish : StoreAction ℕ :=
  .ingest
    { ids := sampleIds 10
      request := sampleRequest
      paragraphChunks := sampleParagraphChunks
      sentenceChunks := sampleSentenceChunks }

/-- The rebuild of its vectors. -/
def sampleRebuild : StoreAction ℕ := .rebuild [sampleRequest.documentId]

/-- What the two leave. -/
def sampleWatched : WatchedDb ℕ :=
  sampleRebuild.watched sampleHost sampleRequest.documentId
    (samplePublish.watched sampleHost sampleRequest.documentId {})

/-- An update of the small document with another text, under the same source version. -/
def sampleUpdate : NormalizedRequest :=
  { sampleRequest with
    command := lit "document_update"
    textValue := lit "d e"
    contentSha256 := lit "11" }

/-- Every version and every digest stands for the text of the small document. -/
def sampleIdentities : Identities where
  ofVersion _ := sampleRequest.textValue
  ofContent _ := sampleRequest.textValue
  ofBody _ := sampleRequest.textValue

/-- The small document is not published again: an answer names it, and it is live with its text. -/
theorem replay_sound_sample :
    (replayReference sampleHost (mapPlan sampleHost sampleRequest)
        sampleWatched.toVectorDb).isSome = true ∧
      ReplaySound sampleHost sampleRequest sampleWatched.toVectorDb := by
  have hnames : sampleIdentities.Names sampleHost sampleRequest := ⟨by decide, rfl, rfl, rfl⟩
  have hallowed : KeepsIdentities sampleHost sampleRequest.documentId sampleIdentities {}
      samplePublish := by
    simpa only [KeepsIdentities, samplePublish, if_true] using hnames
  have hrun : Steps (watchedStep sampleHost sampleRequest.documentId)
      (KeepsIdentities sampleHost sampleRequest.documentId sampleIdentities) {} sampleWatched :=
    (Steps.single samplePublish hallowed rfl).trans (Steps.single sampleRebuild trivial rfl)
  exact ⟨by decide +kernel, replay_sound_of_run hrun rfl hnames⟩

/-- An update under a source version that is stored is answered as already published, and the
document keeps its old text. -/
theorem exists_unsound_replay : ∃ store : WatchedDb ℕ,
    Steps (watchedStep sampleHost sampleRequest.documentId) (fun _ _ ↦ True) {} store ∧
      ((replayReference sampleHost (mapPlan sampleHost sampleUpdate) store.toVectorDb).any
        fun reference ↦ reference.idempotent ∧ reference.reason = .sourceVersionMatch) = true ∧
      currentText sampleHost store.toDb sampleUpdate.documentId = some (lit " Ab c\n\nd ") ∧
      ¬ReplaySound sampleHost sampleUpdate store.toVectorDb := by
  have hrun : Steps (watchedStep sampleHost sampleRequest.documentId) (fun _ _ ↦ True) {}
      sampleWatched :=
    (Steps.single samplePublish trivial rfl).trans (Steps.single sampleRebuild trivial rfl)
  have hanswer : ((replayReference sampleHost (mapPlan sampleHost sampleUpdate)
      sampleWatched.toVectorDb).any fun reference ↦
        reference.idempotent ∧ reference.reason = .sourceVersionMatch) = true := by
    decide +kernel
  have htext : currentText sampleHost sampleWatched.toDb sampleUpdate.documentId =
      some (lit " Ab c\n\nd ") := by
    decide +kernel
  refine ⟨sampleWatched, hrun, hanswer, htext, fun hsound ↦ ?_⟩
  obtain ⟨reference, hreply, -⟩ := (Option.any_eq_true _ _).mp hanswer
  obtain ⟨hdocument, -⟩ := view_of_replayReference hreply
  have hoffered := (hsound reference hreply).2
  rw [hdocument, htext] at hoffered
  exact absurd hoffered (by decide)

end DocStore
