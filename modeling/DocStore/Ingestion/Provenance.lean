import DocStore.Ingestion.Rechunk

/-!
# The original of a document

The file of a document and the runs that produced the document name an original with the digest of
the bytes that were ingested first. A rechunking takes the digest from the source hash of the
document, which is the digest of the normalized text and not of the bytes, and derives the file from
the text that it reads back and from the bare file name. So the provenance is kept as long as the
source hash is the digest of the bytes.
-/

set_option autoImplicit false
set_option relaxedAutoImplicit false

namespace DocStore

open Foundation

/-! ### Provenance -/

/-- The original with a UUID. -/
def EvidenceDb.original (store : EvidenceDb) (id : Uuid) : Option PrimarySource :=
  lookup PrimarySource.id id store.primarySources

/-- A UUID names an original with a digest. -/
def EvidenceDb.NamesOriginal (store : EvidenceDb) (id : Uuid) (digest : Text) : Prop :=
  (store.original id).map PrimarySource.originalSha256 = some digest

instance (store : EvidenceDb) (id : Uuid) (digest : Text) :
    Decidable (store.NamesOriginal id digest) :=
  inferInstanceAs (Decidable (_ = _))

/-- The live file of a document. -/
def liveFile (db : Db) (documentId : Uuid) : Option FileRow := do
  let document ← lookup (fun row : DocumentRow ↦ row.id) documentId db.documents
  let ownerId ← document.ownerId
  (lookup (fun row : FileRow ↦ row.id) ownerId db.files).filter fun file ↦ file.isLive

/-- The live file of a document carries a digest, and so do the originals of the file and of every
run of the document. -/
structure Provenance (documentId : Uuid) (digest : Text) (store : EvidenceDb) : Prop where
  file : ∃ file, liveFile store.toDb documentId = some file ∧ file.contentSha256 = digest ∧
    store.NamesOriginal file.primarySourceId digest
  runs : ∀ run ∈ store.processingRuns, run.documentId = some documentId →
    store.NamesOriginal run.primarySourceId digest

/-- Nothing else stands under the UUIDs that a plan derives from digests: a file or an original that
is already there has the digest of the plan. -/
structure OriginalFits (host : Host) (plan : PersistencePlan) (store : EvidenceDb) : Prop where
  file : ∀ file ∈ lookup (fun row : FileRow ↦ row.id) plan.fileId store.files,
    store.NamesOriginal file.primarySourceId plan.contentSha256
  original : ∀ original ∈ store.original (primarySourceRow host plan).id,
    original.originalSha256 = plan.contentSha256

section Publication

variable {host : Host} {ids : AttemptIds} {plan : PersistencePlan} {request : NormalizedRequest}
  {paragraphChunks sentenceChunks : List RuntimeChunk} {documentId : Uuid} {digest : Text}
  {store after : EvidenceDb}

/-! ### Originals -/

/-- An original is written unless it is there. -/
theorem original_resolvePrimarySource (host : Host) (plan : PersistencePlan) (store : EvidenceDb)
    (id : Uuid) : (store.resolvePrimarySource host plan).1.original id =
      if hasKey (fun row : FileRow ↦ row.id) plan.fileId store.files then store.original id
      else (store.original id).or (if (primarySourceRow host plan).id = id then
        some (primarySourceRow host plan) else none) := by
  dsimp only [EvidenceDb.resolvePrimarySource]
  split
  · rfl
  · exact lookup_upsert_keep (primarySourceRow host plan) store.primarySources id

theorem EvidenceDb.NamesOriginal.of_primarySources {id : Uuid}
    (hnames : store.NamesOriginal id digest) (hsources : after.primarySources =
      store.primarySources ∨
        after.primarySources = (store.resolvePrimarySource host plan).1.primarySources) :
    after.NamesOriginal id digest := by
  obtain ⟨original, hfound, hdigest⟩ := Option.map_eq_some_iff.mp hnames
  refine Option.map_eq_some_iff.mpr ⟨original, ?_, hdigest⟩
  unfold EvidenceDb.original
  rcases hsources with hsources | hsources <;> rw [hsources]
  · exact hfound
  · refine (original_resolvePrimarySource host plan store id).trans ?_
    rw [hfound, Option.some_or, ite_self]

/-- The original that a plan resolves to carries the digest of the plan. -/
theorem OriginalFits.namesOriginal (hfits : OriginalFits host plan store)
    (hsources : after.primarySources =
      (store.resolvePrimarySource host plan).1.primarySources) :
    after.NamesOriginal (resolvePrimarySource host plan store.toDb) plan.contentSha256 := by
  unfold resolvePrimarySource
  split
  next file hfile => exact (hfits.file file hfile).of_primarySources (Or.inr hsources)
  next hnone =>
    have habsent : hasKey (fun row : FileRow ↦ row.id) plan.fileId store.files = false :=
      hasKey_eq_false.mpr (lookup_eq_none.mp hnone)
    have hresolved := original_resolvePrimarySource host plan store (primarySourceRow host plan).id
    rw [if_neg (by simp [habsent]), if_pos rfl] at hresolved
    cases hthere : store.original (primarySourceRow host plan).id with
    | none =>
      rw [hthere, Option.none_or] at hresolved
      refine Option.map_eq_some_iff.mpr ⟨primarySourceRow host plan, ?_, rfl⟩
      rw [EvidenceDb.original, hsources]
      exact hresolved
    | some original =>
      rw [hthere, Option.some_or] at hresolved
      refine Option.map_eq_some_iff.mpr ⟨original, ?_, hfits.original original hthere⟩
      rw [EvidenceDb.original, hsources]
      exact hresolved

/-! ### The file of a publication -/

/-- A retired file keeps its original. -/
theorem lookup_retirePreviousFiles {now : Instant} {id : Uuid} {db : Db} {file : FileRow}
    (hfile : lookup (fun row : FileRow ↦ row.id) id
      (retirePreviousFiles now documentId db).files = some file) :
    ∃ old, lookup (fun row : FileRow ↦ row.id) id db.files = some old ∧
      file.primarySourceId = old.primarySourceId := by
  dsimp only [retirePreviousFiles] at hfile
  rw [lookup_updateWhere (by intro _; rfl)] at hfile
  obtain ⟨old, hold, rfl⟩ := Option.map_eq_some_iff.mp hfile
  refine ⟨old, hold, ?_⟩
  split <;> rfl

/-- A written file is live, carries the digests of the plan and keeps the original it had. -/
theorem lookup_file_of_writeFile {db next : Db} {primarySourceId : Uuid}
    (hsource : ∀ old, lookup (fun row : FileRow ↦ row.id) plan.fileId db.files = some old →
      old.primarySourceId = primarySourceId)
    (hwrite : writeFile plan primarySourceId db = .ok next) :
    ∃ file, lookup (fun row : FileRow ↦ row.id) plan.fileId next.files = some file ∧
      file.isLive = true ∧ file.contentSha256 = plan.contentSha256 ∧
      file.bodySha256 = plan.bodySha256 ∧ file.primarySourceId = primarySourceId := by
  unfold writeFile at hwrite
  split at hwrite
  next hthere =>
    cases hwrite
    cases hfound : lookup (fun row : FileRow ↦ row.id) plan.fileId db.files with
    | none =>
      have habsent := hasKey_eq_false.mpr (lookup_eq_none.mp hfound)
      exact absurd (hthere.symm.trans habsent) (by simp)
    | some old =>
      exact ⟨_, lookup_updateWhere_self (fun _ _ ↦ rfl) hfound, rfl, rfl, rfl, hsource old hfound⟩
  next habsent =>
    obtain ⟨-, hwrite⟩ := Db.register_bind_eq_ok.mp hwrite
    obtain ⟨-, hnext⟩ := raiseIf_bind_eq_ok.mp hwrite
    cases hnext
    have hnone := hasKey_eq_false.mp (Bool.eq_false_iff.mpr habsent)
    refine ⟨fileRow plan primarySourceId, ?_, rfl, rfl, rfl, rfl⟩
    exact (lookup_append_of_forall_ne hnone).trans (by simp [lookup, fileRow])

/-- Writing a document leaves the rows of other documents alone, and of the old row it keeps no
more than the flag. -/
theorem lookup_writeDocument {db next : Db} (hwrite : writeDocument plan db = .ok next) (id : Uuid) :
    lookup (fun row : DocumentRow ↦ row.id) id next.documents =
      if id = plan.documentId then
        some { documentRow plan with
          isDeleted := (lookup (fun row : DocumentRow ↦ row.id) id db.documents).any
            fun old ↦ old.isDeleted }
      else lookup (fun row : DocumentRow ↦ row.id) id db.documents := by
  obtain ⟨-, hwrite⟩ := raiseIf_bind_eq_ok.mp hwrite
  split at hwrite
  next hthere =>
    cases hwrite
    by_cases hid : id = plan.documentId
    · subst hid
      cases hfound : lookup (fun row : DocumentRow ↦ row.id) plan.documentId db.documents with
      | none =>
        have habsent := hasKey_eq_false.mpr (lookup_eq_none.mp hfound)
        exact absurd (hthere.symm.trans habsent) (by simp)
      | some old =>
        rw [if_pos rfl]
        exact lookup_updateWhere_self (fun _ _ ↦ rfl) hfound
    · rw [if_neg hid]
      exact lookup_updateWhere_of_ne _ (fun _ _ ↦ rfl) hid
  next habsent =>
    obtain ⟨-, hnext⟩ := Db.register_bind_eq_ok.mp hwrite
    cases hnext
    have hnone := lookup_eq_none.mpr (hasKey_eq_false.mp (Bool.eq_false_iff.mpr habsent))
    rw [lookup_append]
    by_cases hid : id = plan.documentId
    · subst hid
      rw [if_pos rfl, hnone, Option.none_or, Option.any_none]
      exact List.find?_cons_of_pos (decide_eq_true rfl)
    · have hother : lookup (fun row : DocumentRow ↦ row.id) id [documentRow plan] = none :=
        lookup_eq_none.mpr fun row hmem heq ↦ hid (by simp_all [documentRow])
      rw [if_neg hid, hother, Option.or_none]

theorem documents_of_writeFile {db next : Db} {primarySourceId : Uuid}
    (hwrite : writeFile plan primarySourceId db = .ok next) : next.documents = db.documents := by
  obtain ⟨_, _, rfl⟩ := exists_of_writeFile hwrite
  rfl

theorem files_of_writeDocument {db next : Db} (hwrite : writeDocument plan db = .ok next) :
    next.files = db.files := by
  obtain ⟨_, _, rfl⟩ := exists_of_writeDocument hwrite
  rfl

/-- A publication writes its document and leaves the rows of other documents alone. -/
theorem lookup_document_of_writeHierarchy {ids : PublicationIds}
    {paragraphs : List PlannedParagraph} {primarySourceId : Uuid} {db next : Db}
    (hwrite : writeHierarchy host ids plan primarySourceId paragraphs db = .ok next) (id : Uuid) :
    lookup (fun row : DocumentRow ↦ row.id) id next.documents =
      if id = plan.documentId then
        some { documentRow plan with
          isDeleted := (lookup (fun row : DocumentRow ↦ row.id) id db.documents).any
            fun old ↦ old.isDeleted }
      else lookup (fun row : DocumentRow ↦ row.id) id db.documents := by
  obtain ⟨prepared, hprepare, hparagraphs⟩ := bind_eq_ok.mp hwrite
  obtain ⟨shifted, hshift, hprepare⟩ := bind_eq_ok.mp hprepare
  obtain ⟨filed, hfile, hprepare⟩ := bind_eq_ok.mp hprepare
  obtain ⟨documented, hdocument, hchapter⟩ := bind_eq_ok.mp hprepare
  obtain ⟨-, -, rfl⟩ := Db.insertChapter_eq_ok.mp hchapter
  have hnext : next.documents = documented.documents :=
    congrArg (fun tables ↦ tables.2.1) (filedTables_of_writeParagraphs hparagraphs)
  have hfiled : filed.documents = db.documents := by
    obtain ⟨-, hshift⟩ := raiseIf_bind_eq_ok.mp hshift
    cases hshift
    rw [documents_of_writeFile hfile]
    rfl
  rw [hnext, lookup_writeDocument hdocument, hfiled]

/-- A document whose hierarchy was written is owned by the file of the plan, which is live. -/
theorem filed_of_writeHierarchy {ids : PublicationIds} {paragraphs : List PlannedParagraph}
    {db next : Db} (hwrite : writeHierarchy host ids plan (resolvePrimarySource host plan db)
      paragraphs db = .ok next) :
    ∃ document file,
      lookup (fun row : DocumentRow ↦ row.id) plan.documentId next.documents = some document ∧
      document.ownerId = some plan.fileId ∧ document.blockMeta = plan.docMeta ∧
      lookup (fun row : FileRow ↦ row.id) plan.fileId next.files = some file ∧
      file.isLive = true ∧ file.contentSha256 = plan.contentSha256 ∧
      file.bodySha256 = plan.bodySha256 ∧
      file.primarySourceId = resolvePrimarySource host plan db := by
  obtain ⟨prepared, hprepare, hparagraphs⟩ := bind_eq_ok.mp hwrite
  have htables := filedTables_of_writeParagraphs hparagraphs
  obtain ⟨shifted, hshift, hprepare⟩ := bind_eq_ok.mp hprepare
  obtain ⟨filed, hfile, hprepare⟩ := bind_eq_ok.mp hprepare
  obtain ⟨documented, hdocument, hchapter⟩ := bind_eq_ok.mp hprepare
  obtain ⟨-, -, rfl⟩ := Db.insertChapter_eq_ok.mp hchapter
  have hshifted : shifted.files = db.files := by
    obtain ⟨-, hshift⟩ := raiseIf_bind_eq_ok.mp hshift
    cases hshift
    rfl
  have hkept : ∀ file, lookup (fun row : FileRow ↦ row.id) plan.fileId
      (retirePreviousFiles ids.now plan.documentId shifted).files = some file →
      file.primarySourceId = resolvePrimarySource host plan db := by
    intro file hfile
    obtain ⟨old, hold, hsame⟩ := lookup_retirePreviousFiles hfile
    rw [hsame, resolvePrimarySource, ← hshifted, hold]
  obtain ⟨file, hlookup, hwritten⟩ := lookup_file_of_writeFile hkept hfile
  have hnextFiles : next.files = filed.files :=
    (congrArg Prod.fst htables).trans (files_of_writeDocument hdocument)
  refine ⟨_, file, (lookup_document_of_writeHierarchy hwrite _).trans (if_pos rfl), rfl, rfl,
    hnextFiles ▸ hlookup, hwritten⟩

/-- The live file of a document whose hierarchy was written is the file of the plan. -/
theorem liveFile_of_writeHierarchy {ids : PublicationIds} {paragraphs : List PlannedParagraph}
    {db next : Db} (hwrite : writeHierarchy host ids plan (resolvePrimarySource host plan db)
      paragraphs db = .ok next) :
    ∃ file, liveFile next plan.documentId = some file ∧
      file.contentSha256 = plan.contentSha256 ∧
      file.primarySourceId = resolvePrimarySource host plan db := by
  obtain ⟨document, file, hdocument, howner, -, hlookup, hlive, hcontent, -, hsource⟩ :=
    filed_of_writeHierarchy hwrite
  refine ⟨file, ?_, hcontent, hsource⟩
  simp [liveFile, hdocument, howner, hlookup, hlive]

/-! ### Publications and rechunkings -/

/-- A recorded publication keeps the originals of the runs. -/
theorem runs_of_recordVerdict {hierarchy : Db} {reconstructed : Text}
    (hfits : OriginalFits host plan store)
    (hbefore : ∀ run ∈ store.processingRuns, run.documentId = some documentId →
      store.NamesOriginal run.primarySourceId plan.contentSha256)
    (hruns : hierarchy.processingRuns = store.processingRuns)
    (hrecord : recordVerdict host ids.toPublicationIds plan
      (resolvePrimarySource host plan store.toDb) store.toDb hierarchy reconstructed =
        .ok after.toDb)
    (hsources : after.primarySources =
      (store.resolvePrimarySource host plan).1.primarySources) :
    ∀ run ∈ after.processingRuns, run.documentId = some documentId →
      after.NamesOriginal run.primarySourceId plan.contentSha256 := by
  obtain ⟨produced, hafter, -⟩ := recordVerdict_eq_ok hruns hrecord
  intro run hmem hdocument
  rw [hafter, List.mem_append, List.mem_singleton] at hmem
  rcases hmem with hold | rfl
  · exact (hbefore run hold hdocument).of_primarySources (Or.inr hsources)
  · exact hfits.namesOriginal hsources

/-- A publication with the digest of the original keeps the provenance, however it ends. -/
theorem Provenance.publishIn (hbefore : Provenance documentId digest store)
    (hdocument : request.documentId = documentId) (hdigest : request.contentSha256 = digest)
    (hfits : OriginalFits host (mapPlan host request) store)
    (faults : ℕ → Option (Fault Failure)) :
    Provenance documentId digest
      (publishIn host ids request paragraphChunks sentenceChunks faults store).2 := by
  subst hdocument hdigest
  obtain ⟨commits, houtcome⟩ :=
    publishIn_outcome host ids request paragraphChunks sentenceChunks faults store
  obtain ⟨file, hfile, hcontent, horiginal⟩ := hbefore.file
  cases houtcome with
  | failed hdb hsources =>
    constructor
    · exact ⟨file, by rw [hdb, hfile], hcontent, horiginal.of_primarySources hsources⟩
    · rw [hdb]
      exact fun run hmem hrun ↦ (hbefore.runs run hmem hrun).of_primarySources hsources
  | recorded hplanned hwrite hreconstructed hrecord hsources =>
    have hruns := processingRuns_of_writeHierarchy hwrite
    refine ⟨?_, runs_of_recordVerdict hfits hbefore.runs hruns hrecord hsources⟩
    obtain ⟨produced, -, hverdict⟩ := recordVerdict_eq_ok hruns hrecord
    rcases hverdict with ⟨-, -, hfiles, hdocuments⟩ | ⟨-, -, hsame⟩
    · obtain ⟨written, hlive, hcontent, hsource⟩ := liveFile_of_writeHierarchy hwrite
      refine ⟨written, ?_, hcontent, hsource ▸ hfits.namesOriginal hsources⟩
      rw [liveFile, hfiles, hdocuments]
      exact hlive
    · refine ⟨file, ?_, hcontent, horiginal.of_primarySources (Or.inr hsources)⟩
      rw [hsame]
      exact hfile

/-- A publication that is reported leaves the provenance of what it was given. -/
theorem provenance_of_isPublished (hnew : ∀ run ∈ store.processingRuns,
      run.documentId ≠ some request.documentId)
    (hfits : OriginalFits host (mapPlan host request) store)
    {faults : ℕ → Option (Fault Failure)} (hpublished : isPublished
      (publishIn host ids request paragraphChunks sentenceChunks faults store).1 = true) :
    Provenance request.documentId request.contentSha256
      (publishIn host ids request paragraphChunks sentenceChunks faults store).2 := by
  obtain ⟨paragraphs, hierarchy, reconstructed, hwrite, -, hrecord, hsources, hmatch⟩ :=
    matching_of_isPublished hpublished
  have hruns := processingRuns_of_writeHierarchy hwrite
  refine ⟨?_, runs_of_recordVerdict hfits
    (fun run hmem hrun ↦ absurd hrun (hnew run hmem)) hruns hrecord hsources⟩
  obtain ⟨produced, -, ⟨-, -, hfiles, hdocuments⟩ | ⟨hnot, -⟩⟩ := recordVerdict_eq_ok hruns hrecord
  · obtain ⟨written, hlive, hcontent, hsource⟩ := liveFile_of_writeHierarchy hwrite
    refine ⟨written, ?_, hcontent, hsource ▸ hfits.namesOriginal hsources⟩
    rw [liveFile, hfiles, hdocuments]
    exact hlive
  · exact absurd hmatch hnot

/-- A rechunking takes the digest of the original from the document: the source hash of the stored
document is that digest, and nothing else stands under the UUIDs that are derived from it. -/
structure SourceKept (host : Host) (documentId : Uuid) (digest : Text) (store : EvidenceDb)
    (call : RechunkCall) : Prop where
  sourceHash : ∀ document ∈ store.documents, document.id = documentId →
    nonempty document.sourceHash = some digest
  fits : ∀ request, rechunkRequest host documentId call store.toDb = .ok request →
    OriginalFits host (mapPlan host request) store

/-- A rechunking under the condition keeps the provenance. -/
theorem Provenance.rechunkExisting (hbefore : Provenance documentId digest store)
    {call : RechunkCall} (hkept : SourceKept host documentId digest store call) :
    Provenance documentId digest (rechunkExisting host documentId call store) := by
  unfold DocStore.rechunkExisting
  split
  next => exact hbefore
  next request hrequest =>
    obtain ⟨hdocument, -, document, hmem, hid, -, -, hdigest⟩ := rechunkRequest_eq_ok hrequest
    rw [hkept.sourceHash document hmem hid, Option.getD_some] at hdigest
    exact hbefore.publishIn hdocument hdigest (hkept.fits request hrequest) _

/-- After the first ingestion of a document and any number of rechunkings under the condition, the
live file of the document carries the digest of the ingested bytes, and so do the originals of the
file and of every run of the document. -/
theorem provenance_of_rechunks (hnew : ∀ run ∈ store.processingRuns,
      run.documentId ≠ some request.documentId)
    (hfits : OriginalFits host (mapPlan host request) store)
    {faults : ℕ → Option (Fault Failure)} (hpublished : isPublished
      (publishIn host ids request paragraphChunks sentenceChunks faults store).1 = true)
    {final : EvidenceDb} (hrun : Steps (rechunkStep host request.documentId)
      (SourceKept host request.documentId request.contentSha256)
      (publishIn host ids request paragraphChunks sentenceChunks faults store).2 final) :
    Provenance request.documentId request.contentSha256 final := by
  refine hrun.invariant (provenance_of_isPublished hnew hfits hpublished) ?_
  rintro state call next hstate hkept ⟨⟩
  exact hstate.rechunkExisting hkept

end Publication

/-- A text that is ingested as it is stored keeps its provenance. -/
theorem exists_rechunk_with_provenance : isPublished plainFirst.1 = true ∧
    Provenance plainRequest.documentId plainRequest.contentSha256
      (rechunkExisting sampleHost plainRequest.documentId sampleRechunk plainFirst.2) := by
  have hpublished : isPublished plainFirst.1 = true := by decide +kernel
  have hsource : ∀ document ∈ plainFirst.2.documents, document.id = plainRequest.documentId →
      nonempty document.sourceHash = some plainRequest.contentSha256 := by decide +kernel
  have hfits : OriginalFits sampleHost (mapPlan sampleHost plainRechunked) plainFirst.2 :=
    ⟨by decide +kernel, by decide +kernel⟩
  have hkept : SourceKept sampleHost plainRequest.documentId plainRequest.contentSha256
      plainFirst.2 sampleRechunk := by
    refine ⟨hsource, fun rechunked hrechunked ↦ ?_⟩
    have hsame : plainRechunked = rechunked := by
      rw [plainRechunked, hrechunked, toOption_ok, Option.getD_some]
    exact hsame ▸ hfits
  have hempty : OriginalFits sampleHost (mapPlan sampleHost plainRequest) {} :=
    ⟨by decide +kernel, by decide +kernel⟩
  exact ⟨hpublished, provenance_of_rechunks (by simp) hempty hpublished
    (Steps.single sampleRechunk hkept rfl)⟩

/-- Bytes that are not the normalized text lose their digest when the document is rechunked. -/
theorem exists_rechunk_without_provenance :
    isPublished sampleFirst.1 = true ∧
      ¬Provenance sampleRequest.documentId sampleRequest.contentSha256
        (rechunkExisting sampleHost sampleRequest.documentId sampleRechunk sampleFirst.2) := by
  refine ⟨by decide +kernel, fun hprovenance ↦ ?_⟩
  obtain ⟨file, hfile, hcontent, -⟩ := hprovenance.file
  have hdigest : (liveFile (rechunkExisting sampleHost sampleRequest.documentId sampleRechunk
      sampleFirst.2).toDb sampleRequest.documentId).map FileRow.contentSha256 =
        some sampleRequest.contentSha256 := by
    rw [hfile, Option.map_some, hcontent]
  exact absurd hdigest (by decide +kernel)

end DocStore
