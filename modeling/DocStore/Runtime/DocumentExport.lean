import DocStore.Foundation.SideEffects
import DocStore.Ingestion.Rechunk

/-!
# Export of documents

`export_document` reads the paragraphs of a document, writes them to a file and records the file
with its original, all while one transaction is open. The file is truncated and written in the
middle of it, and nothing takes that back when a later statement or the commit fails. A call that
raises has changed nothing exactly when it had not opened the file yet or the file held already what
it has written, and no commit took effect whose success was lost (`unchanged_iff_failsCleanly`).

What goes wrong at the file system comes with the disk, what goes wrong at the database with the
connection. The columns of a file and of an original that hold constants or lengths are left out, and
so are directories.
-/

set_option autoImplicit false
set_option relaxedAutoImplicit false

namespace DocStore

open Foundation

/-! ### The surroundings -/

/-- What `export_document` takes from its surroundings. -/
structure ExportHost extends Host where
  /-- `UUID(text)`. -/
  parseUuid : Text → Option Uuid
  /-- `hashlib.sha256(content).hexdigest()`. -/
  digest : List UInt8 → Text

/-- What a call raises. -/
inductive ExportFailure where
  | runtime (message : String)
  | badUuid (value : Text)
  | fileExists (path : Text)
  | lookup (documentId : Text)
  | value (message : String)
  | os (message : String)
  | database (failure : Failure)

instance : Inhabited ExportFailure := ⟨.database default⟩

/-- The file at a path, if there is one, and what goes wrong when it is looked for, when its parent is
made, when it is opened, after some bytes were written, and when it is read. -/
structure Disk where
  content : Option (List UInt8)
  statFault : Option ExportFailure := none
  parentFault : Option ExportFailure := none
  openFault : Option ExportFailure := none
  writeFault : Option (ℕ × ExportFailure) := none
  readFault : Option ExportFailure := none

/-- An action that fails with a fault, or goes on. -/
def unlessFault {α : Type} (fault : Option ExportFailure) (value : α) : Except ExportFailure α :=
  match fault with
  | some failure => .error failure
  | none => .ok value

/-- `output_path.exists()`. -/
def Disk.exists (disk : Disk) : Except ExportFailure Bool × Disk :=
  (unlessFault disk.statFault disk.content.isSome, disk)

/-- `output_path.parent.mkdir(parents=True, exist_ok=True)`. -/
def Disk.makeParent (disk : Disk) : Except ExportFailure Unit × Disk :=
  (unlessFault disk.parentFault (), disk)

/-- The bytes that have reached the file when a text was written or its writing failed. -/
def Disk.writtenBytes (disk : Disk) (body : Text) : List UInt8 :=
  match disk.writeFault with
  | some (written, _) => (encodeUtf8 body).take written
  | none => encodeUtf8 body

/-- `output_path.write_text(body, encoding="utf-8")`: opening the file empties it. -/
def Disk.writeText (body : Text) (disk : Disk) : Except ExportFailure Unit × Disk :=
  match disk.openFault with
  | some failure => (.error failure, disk)
  | none => (unlessFault (disk.writeFault.map Prod.snd) (),
      { disk with content := some (disk.writtenBytes body) })

/-- `output_path.read_bytes()`. -/
def Disk.readBytes (disk : Disk) : Except ExportFailure (List UInt8) × Disk :=
  (unlessFault disk.readFault (disk.content.getD []), disk)

/-- The tables with the titles of documents and with `files.updated_at`. -/
structure ExportDb extends EvidenceDb where
  documentTitle : Uuid → Option Text := fun _ ↦ none
  fileTimes : List (Uuid × Instant) := []

/-! ### The call -/

/-- A call of `export_document`, with `uuid4()` and `now()`. The path is expanded. -/
structure ExportCall where
  documentId : Text
  path : Text
  fileId : Option Text := none
  overwrite : Bool := false
  newFileId : Uuid
  now : Instant

/-- What a call returns. -/
structure ExportReply where
  primarySourceId : Uuid
  documentId : Uuid
  fileId : Uuid
  path : Text
  byteLength : ℕ
  charCount : ℕ
  bodySha256 : Text

/-- `UUID(text)`, which raises. -/
def ExportHost.uuid (host : ExportHost) (value : Text) : Except ExportFailure Uuid :=
  match host.parseUuid value with
  | some id => .ok id
  | none => .error (.badUuid value)

/-- The UUIDs of the document and of the file. -/
def ExportCall.uuids (host : ExportHost) (call : ExportCall) : Except ExportFailure (Uuid × Uuid) := do
  let documentId ← host.uuid call.documentId
  let fileId ← match nonempty call.fileId with
    | some value => host.uuid value
    | none => .ok call.newFileId
  return (documentId, fileId)

/-- The title of a document that is not deleted. -/
def exportedTitle (store : ExportDb) (documentId : Uuid) : Option (Option Text) :=
  (store.documents.find? fun row ↦ row.id = documentId && row.deletedAt.isNone).map fun row ↦
    store.documentTitle row.id

/-- The text of a document, as its paragraphs make it. -/
def exportedBody (db : Db) (documentId : Uuid) : Text :=
  joinTexts (lit "\n\n") ((storedParagraphs db documentId).map fun row ↦ row.text)

/-- The statements in front of the file: the title and the text of the document. -/
def readDocument (call : ExportCall) (documentId : Uuid) :
    Script ExportDb ExportFailure (Option Text × Text) := do
  let found ← Script.query fun store ↦ exportedTitle store documentId
  let title ← Script.lift (match found with
    | some title => .ok title
    | none => .error (.lookup call.documentId))
  let body ← Script.query fun store ↦ exportedBody store.toDb documentId
  Script.lift (raiseIf body.isEmpty (.value "document has no exportable text"))
  return (title, body)

/-- A file that was written for a document. -/
structure ExportedFile where
  id : Uuid
  documentId : Uuid
  title : Option Text
  path : Text
  body : Text
  content : List UInt8

section Recording

variable (host : ExportHost) (file : ExportedFile)

/-- The row of a file. -/
def exportedFileRow (primarySourceId : Uuid) : FileRow where
  id := file.id
  ownerId := some file.documentId
  primarySourceId := primarySourceId
  path := file.path
  name := posixName file.path
  charCount := file.body.length
  contentSha256 := host.digest file.content
  bodySha256 := host.hexdigest file.body
  blockMeta := [("exported_from_document_id", .str (uuidText file.documentId)),
    ("exported_title", .ofOption file.title), ("checksum_algorithm", .str (lit "sha256")),
    ("content_sha256", .str (host.digest file.content)),
    ("body_sha256", .str (host.hexdigest file.body))]

/-- The row of the original of a file. -/
def exportedSourceRow : PrimarySource where
  id := host.stableUuid4 (lit "doc-store:primary-source:" ++ uuidText file.id ++ lit ":" ++
    host.digest file.content)
  sourceLocator := lit "file://" ++ file.path
  originalSha256 := host.digest file.content

/-- `INSERT INTO primary_sources … ON CONFLICT (id) DO NOTHING`. -/
def insertSource (row : PrimarySource) (store : ExportDb) : ExportDb :=
  { store with primarySources := upsert PrimarySource.id row id store.primarySources }

/-- `INSERT INTO files … ON CONFLICT (id) DO UPDATE`, which keeps the original of a file. -/
def upsertFile (row : FileRow) (now : Instant) (store : ExportDb) :
    Except ExportFailure ExportDb := do
  let fileTimes := upsert Prod.fst (row.id, now) (fun _ ↦ (row.id, now)) store.fileTimes
  if hasKey (fun row : FileRow ↦ row.id) row.id store.files then
    return { store with
      files := updateWhere (fun old ↦ old.id = row.id)
        (fun old ↦ { row with primarySourceId := old.primarySourceId }) store.files
      fileTimes }
  else do
    let db ← (store.toDb.register .files row.id).mapError ExportFailure.database
    raiseIf (store.files.any fun old ↦ old.primarySourceId = row.primarySourceId)
      (.database (.integrity "uq_files_primary_source_id"))
    return { store with
      toDb := { db with files := db.files ++ [row] }
      fileTimes }

/-- The last statement: the row of the file. -/
def recordRow (now : Instant) (primarySourceId : Uuid) : Script ExportDb ExportFailure Uuid := do
  Script.statement fun store ↦
    (upsertFile (exportedFileRow host file primarySourceId) now store).map fun next ↦ (next, ())
  return primarySourceId

/-- The statements behind the file: `_resolve_primary_source`, and the row of the file. -/
def recordFile (now : Instant) : Script ExportDb ExportFailure Uuid := do
  let existing ← Script.query fun store ↦
    (lookup (fun row : FileRow ↦ row.id) file.id store.files).map fun row ↦ row.primarySourceId
  match existing with
  | some primarySourceId => recordRow host file now primarySourceId
  | none => do
    Script.statement fun store ↦ .ok (insertSource (exportedSourceRow host file) store, ())
    recordRow host file now (exportedSourceRow host file).id

end Recording

/-- The transaction from the opening of the file on: the text is written, read again and recorded. -/
def writeExport (host : ExportHost) (call : ExportCall) (documentId fileId : Uuid)
    (title : Option Text) (body : Text) : Job Disk ExportDb ExportFailure ExportReply := do
  Job.beside (Disk.writeText body)
  let content ← Job.beside Disk.readBytes
  let primarySourceId ← Job.database (recordFile host
    { id := fileId, documentId, title, path := call.path, body, content } call.now)
  return { primarySourceId
           documentId
           fileId
           path := call.path
           byteLength := content.length
           charCount := body.length
           bodySha256 := host.hexdigest body }

/-- The transaction of `export_document`. -/
def exportBody (host : ExportHost) (call : ExportCall) (documentId fileId : Uuid) :
    Job Disk ExportDb ExportFailure ExportReply := do
  let document ← Job.database (readDocument call documentId)
  Job.beside Disk.makeParent
  writeExport host call documentId fileId document.1 document.2

/-- `DocumentExportService.export_document`. -/
def exportDocument (host : ExportHost) (databaseUrl : Option Text) (call : ExportCall) :
    Job Disk ExportDb ExportFailure ExportReply := do
  Job.lift (raiseIf (nonempty databaseUrl).isNone (.runtime "database URL is not configured"))
  let uuids ← Job.lift (call.uuids host)
  let found ← Job.beside Disk.exists
  Job.lift (raiseIf (found && !call.overwrite) (.fileExists call.path))
  Job.transaction (exportBody host call uuids.1 uuids.2)

/-! ### The statements -/

section Statements

variable {host : ExportHost} {call : ExportCall} {documentId : Uuid} {file : ExportedFile}
  {now : Instant} {connection after : Connection ExportDb ExportFailure}

/-- A document is read when it is there with some text and nothing goes wrong. -/
theorem readDocument_eq_ok (hopen : connection.aborted = false) {title : Option Text}
    {body : Text} : readDocument call documentId connection = (.ok (title, body), after) ↔
      (connection.faults 0 = none ∧ connection.faults 1 = none) ∧
        exportedTitle connection.working documentId = some title ∧
        body = exportedBody connection.working.toDb documentId ∧ body ≠ [] ∧
        after = connection.later.later := by
  have hlater : connection.later.aborted = false := hopen
  rw [readDocument, Script.bind_eq_ok]
  simp only [Script.query_eq_ok hopen, Script.bind_eq_ok, Script.lift_eq_ok]
  constructor
  · rintro ⟨found, _, ⟨hfirst, rfl, rfl⟩, title', _, ⟨htitle, rfl⟩, body', _, hbody, hrest⟩
    obtain ⟨hsecond, rfl, rfl⟩ := (Script.query_eq_ok hlater).mp hbody
    obtain ⟨_, _, ⟨hnonempty, rfl⟩, hresult⟩ := hrest
    obtain ⟨hpair, rfl⟩ := Script.pure_eq_ok.mp hresult
    obtain ⟨rfl, rfl⟩ := Prod.mk.inj hpair
    refine ⟨⟨hfirst, hsecond⟩, ?_, rfl, ?_, rfl⟩
    · cases hexported : exportedTitle connection.working documentId with
      | none =>
        rw [hexported] at htitle
        cases htitle
      | some found =>
        rw [hexported] at htitle
        exact congrArg some (Except.ok.inj htitle)
    · exact List.isEmpty_eq_false_iff.mp (raiseIf_eq_ok.mp hnonempty)
  · rintro ⟨⟨hfirst, hsecond⟩, htitle, rfl, hnonempty, rfl⟩
    refine ⟨_, _, ⟨hfirst, rfl, rfl⟩, title, connection.later, ⟨by rw [htitle], rfl⟩, _, _,
      (Script.query_eq_ok hlater).mpr ⟨hsecond, rfl, rfl⟩, (), _, ⟨?_, rfl⟩, rfl⟩
    exact raiseIf_eq_ok.mpr (List.isEmpty_eq_false_iff.mpr hnonempty)

theorem sound_readDocument (call : ExportCall) (documentId : Uuid) :
    ∃ effect, (readDocument call documentId).Sound effect :=
  ⟨_, (Script.sound_query _).bind fun _ ↦ (Script.sound_lift _).bind fun _ ↦
    (Script.sound_query _).bind fun _ ↦ (Script.sound_lift _).bind fun _ ↦ Script.sound_pure _⟩

/-- A property of the first two statements, one by one. -/
theorem forall_lt_two {holds : ℕ → Prop} : (∀ index < 2, holds index) ↔ holds 0 ∧ holds 1 := by
  rw [Nat.forall_lt_succ_right, Nat.forall_lt_succ_right]
  simp

/-- A property of the first three statements, one by one. -/
theorem forall_lt_three {holds : ℕ → Prop} :
    (∀ index < 3, holds index) ↔ holds 0 ∧ holds 1 ∧ holds 2 := by
  rw [Nat.forall_lt_succ_right, forall_lt_two, and_assoc]

/-- The effect of the statements behind the file. -/
def recordedFile (host : ExportHost) (file : ExportedFile) (now : Instant) (store : ExportDb) :
    Except ExportFailure ExportDb :=
  match lookup (fun row : FileRow ↦ row.id) file.id store.files with
  | some row => upsertFile (exportedFileRow host file row.primarySourceId) now store
  | none => upsertFile (exportedFileRow host file (exportedSourceRow host file).id) now
      (insertSource (exportedSourceRow host file) store)

/-- How many statements there are behind the file. -/
def recordingStatements (store : ExportDb) (fileId : Uuid) : ℕ :=
  if (lookup (fun row : FileRow ↦ row.id) fileId store.files).isSome then 2 else 3

theorem recordRow_eq_ok (hopen : connection.aborted = false) {primarySourceId : Uuid} :
    (∃ result, recordRow host file now primarySourceId connection = (.ok result, after)) ↔
      connection.faults 0 = none ∧ ∃ next,
        upsertFile (exportedFileRow host file primarySourceId) now connection.working = .ok next ∧
          after = { connection.later with working := next } := by
  simp only [recordRow, Script.bind_eq_ok, Script.statement_eq_ok hopen, Script.pure_eq_ok]
  cases upsertFile (exportedFileRow host file primarySourceId) now connection.working with
  | error failure => simp [Except.map]
  | ok next => simp [Except.map]

/-- The statements behind the file succeed when their effect does and nothing goes wrong. -/
theorem recordFile_eq_ok (hopen : connection.aborted = false) :
    (∃ result, recordFile host file now connection = (.ok result, after)) ↔
      (∀ index < recordingStatements connection.working file.id,
        connection.faults index = none) ∧
        ∃ next, recordedFile host file now connection.working = .ok next ∧
          after = { connection.skip (recordingStatements connection.working file.id) with
            working := next } := by
  have hlater : connection.later.aborted = false := hopen
  simp only [recordFile, recordingStatements, recordedFile, Script.bind_eq_ok,
    Script.query_eq_ok hopen]
  cases lookup (fun row : FileRow ↦ row.id) file.id connection.working.files with
  | some row =>
    have hfaults : (∀ index < 2, connection.faults index = none) ↔
        connection.faults 0 = none ∧ connection.later.faults 0 = none := forall_lt_two
    rw [Option.isSome_some, if_pos rfl, hfaults, and_assoc]
    constructor
    · rintro ⟨result, _, _, ⟨hfirst, rfl, rfl⟩, hrecord⟩
      exact ⟨hfirst, (recordRow_eq_ok hlater).mp ⟨result, hrecord⟩⟩
    · rintro ⟨hfirst, hrecord⟩
      obtain ⟨result, hresult⟩ := (recordRow_eq_ok hlater).mpr hrecord
      exact ⟨result, _, _, ⟨hfirst, rfl, rfl⟩, hresult⟩
  | none =>
    have hfaults : (∀ index < 3, connection.faults index = none) ↔
        connection.faults 0 = none ∧ connection.later.faults 0 = none ∧
          connection.later.later.faults 0 = none := forall_lt_three
    rw [Option.isSome_none, if_neg Bool.false_ne_true, hfaults, and_assoc, and_assoc]
    set inserted : Connection ExportDb ExportFailure :=
      { connection.later.later with
        working := insertSource (exportedSourceRow host file) connection.working } with hinserted
    have hopened : inserted.aborted = false := hopen
    constructor
    · rintro ⟨result, _, _, ⟨hfirst, rfl, rfl⟩, hrest⟩
      obtain ⟨_, _, hsource, hrecord⟩ := Script.bind_eq_ok.mp hrest
      obtain ⟨hsecond, next, heffect, rfl⟩ := (Script.statement_eq_ok hlater).mp hsource
      cases heffect
      exact ⟨hfirst, hsecond, (recordRow_eq_ok hopened).mp ⟨result, hrecord⟩⟩
    · rintro ⟨hfirst, hsecond, hrecord⟩
      obtain ⟨result, hresult⟩ := (recordRow_eq_ok hopened).mpr hrecord
      refine ⟨result, _, _, ⟨hfirst, rfl, rfl⟩, Script.bind_eq_ok.mpr ⟨(), inserted, ?_, hresult⟩⟩
      exact (Script.statement_eq_ok hlater).mpr ⟨hsecond, _, rfl, rfl⟩

theorem sound_recordRow (host : ExportHost) (file : ExportedFile) (now : Instant)
    (primarySourceId : Uuid) :
    (recordRow host file now primarySourceId).Sound fun _ _ _ ↦ True :=
  ((Script.sound_statement _).bind fun _ ↦ Script.sound_pure _).mono fun _ _ _ _ ↦ trivial

theorem sound_recordFile (host : ExportHost) (file : ExportedFile) (now : Instant) :
    (recordFile host file now).Sound fun _ _ _ ↦ True := by
  refine ((Script.sound_query _).bind fun existing ↦
    (?_ : Script.Sound _ fun _ _ _ ↦ True)).mono fun _ _ _ _ ↦ trivial
  cases existing with
  | some primarySourceId => exact sound_recordRow host file now primarySourceId
  | none =>
    exact ((Script.sound_statement _).bind fun _ ↦ sound_recordRow host file now _).mono
      fun _ _ _ _ ↦ trivial

end Statements

/-! ### The transaction -/

section Transaction

variable {host : ExportHost} {call : ExportCall} {documentId fileId : Uuid} {title : Option Text}
  {body : Text} {world : World Disk ExportDb ExportFailure}

/-- The transaction opens the file: `BEGIN` and both reading statements go well, the document is
there with some text, and the file can be opened. -/
structure OpensFile (world : World Disk ExportDb ExportFailure) (documentId : Uuid)
    (title : Option Text) (body : Text) : Prop where
  statements : ∀ index < 3, world.connection.faults index = none
  document : exportedTitle world.connection.committed documentId = some title
  text : body = exportedBody world.connection.committed.toDb documentId
  nonempty : body ≠ []
  parent : world.outside.parentFault = none
  file : world.outside.openFault = none

/-- The file of a call, fully written. -/
def exportedFile (call : ExportCall) (documentId fileId : Uuid) (title : Option Text)
    (body : Text) : ExportedFile where
  id := fileId
  documentId := documentId
  title := title
  path := call.path
  body := body
  content := encodeUtf8 body

/-- The rest of the transaction goes well up to the commit, with some effect on the tables. -/
structure RecordsFile (host : ExportHost) (call : ExportCall)
    (world : World Disk ExportDb ExportFailure) (file : ExportedFile) (next : ExportDb) : Prop where
  written : world.outside.writeFault = none
  read : world.outside.readFault = none
  statements : ∀ index < recordingStatements world.connection.committed file.id,
    world.connection.faults (index + 3) = none
  recorded : recordedFile host file call.now world.connection.committed = .ok next

/-- Where the commit stands among the statements. -/
def commitIndex (world : World Disk ExportDb ExportFailure) (fileId : Uuid) : ℕ :=
  recordingStatements world.connection.committed fileId + 3

/-- A transaction that does not open the file raises and has done nothing. -/
theorem exportBody_of_not_opensFile (host : ExportHost) (call : ExportCall) (fileId : Uuid)
    (hbegin : world.connection.faults 0 = none)
    (hnot : ∀ title body, ¬OpensFile world documentId title body) :
    ∃ failure after, exportBody host call documentId fileId (Job.begun world) =
        (.error failure, after) ∧ after.outside = world.outside ∧
      after.connection.committed = world.connection.committed := by
  obtain ⟨effect, hsound⟩ := sound_readDocument call documentId
  rw [exportBody]
  rcases Job.database_cases hsound (Job.begun world) with
    ⟨failure, connection, -, hread, hcommitted⟩ | ⟨⟨title, body⟩, connection, hread, hjob, hcommitted⟩
  · exact ⟨failure, _, Job.bind_of_error hread, rfl, hcommitted⟩
  · have hopen : (Job.begun world).connection.aborted = false := rfl
    obtain ⟨⟨hfirst, hsecond⟩, htitle, hbody, hnonempty, -⟩ := (readDocument_eq_ok hopen).mp hread
    have hstatements : ∀ index < 3, world.connection.faults index = none :=
      forall_lt_three.mpr ⟨hbegin, hfirst, hsecond⟩
    cases hparent : world.outside.parentFault with
    | some failure =>
      have hmkdir : world.outside.makeParent = (.error failure, world.outside) := by
        rw [Disk.makeParent, hparent, unlessFault]
      exact ⟨failure, _, Job.bind_of_ok hjob
        (Job.bind_of_error (Job.beside_of_eq connection hmkdir)), rfl, hcommitted⟩
    | none =>
      have hmkdir : world.outside.makeParent = (.ok (), world.outside) := by
        rw [Disk.makeParent, hparent, unlessFault]
      cases hfile : world.outside.openFault with
      | some failure =>
        have hwrite : world.outside.writeText body = (.error failure, world.outside) := by
          simp only [Disk.writeText, hfile]
        exact ⟨failure, _, Job.bind_of_ok hjob
          (Job.bind_of_ok (Job.beside_of_eq connection hmkdir)
            (Job.bind_of_error (Job.beside_of_eq connection hwrite))), rfl, hcommitted⟩
      | none =>
        exact absurd ⟨hstatements, htitle, hbody, hnonempty, hparent, hfile⟩ (hnot title body)

/-- The file that was opened holds what was written, and nothing is committed. -/
structure LeavesWritten (world : World Disk ExportDb ExportFailure) (body : Text)
    (after : World Disk ExportDb ExportFailure) : Prop where
  content : after.outside.content = some (world.outside.writtenBytes body)
  committed : after.connection.committed = world.connection.committed

/-- The transaction stands in front of its commit with some tables. -/
structure ReadyToCommit (world : World Disk ExportDb ExportFailure) (fileId : Uuid) (next : ExportDb)
    (after : World Disk ExportDb ExportFailure) : Prop where
  working : after.connection.working = next
  aborted : after.connection.aborted = false
  faults : after.connection.faults 0 = world.connection.faults (commitIndex world fileId)

/-- What was opened is written in part or in whole, and the transaction comes to its commit when
nothing else goes wrong. -/
theorem writeExport_cases (host : ExportHost) (call : ExportCall) (documentId fileId : Uuid)
    (title : Option Text) (body : Text) (hfile : world.outside.openFault = none) :
    ∃ result after, writeExport host call documentId fileId title body
        ⟨world.outside, (Job.begun world).connection.later.later⟩ = (result, after) ∧
      LeavesWritten world body after ∧
      (((∃ failure, result = .error failure) ∧ ∀ next,
          ¬RecordsFile host call world (exportedFile call documentId fileId title body) next) ∨
        (∃ reply, result = .ok reply) ∧ ∃ next,
          RecordsFile host call world (exportedFile call documentId fileId title body) next ∧
            ReadyToCommit world fileId next after) := by
  have hwrite : world.outside.writeText body =
      (unlessFault (world.outside.writeFault.map Prod.snd) (),
        { world.outside with content := some (world.outside.writtenBytes body) }) := by
    simp only [Disk.writeText, hfile]
  cases hfault : world.outside.writeFault with
  | some fault =>
    rw [hfault, Option.map_some, unlessFault] at hwrite
    refine ⟨_, _, Job.bind_of_error (Job.beside_of_eq _ hwrite), ⟨rfl, rfl⟩,
      .inl ⟨⟨_, rfl⟩, fun next hrecords ↦ ?_⟩⟩
    exact Option.some_ne_none fault (hfault.symm.trans hrecords.written)
  | none =>
    rw [hfault, Option.map_none, unlessFault] at hwrite
    have hbytes : world.outside.writtenBytes body = encodeUtf8 body := by
      simp only [Disk.writtenBytes, hfault]
    set opened : Disk :=
      { world.outside with content := some (world.outside.writtenBytes body) } with hopened
    have hread : opened.readBytes = (unlessFault world.outside.readFault (encodeUtf8 body), opened) := by
      rw [Disk.readBytes, hopened, Option.getD_some, hbytes]
    cases hagain : world.outside.readFault with
    | some failure =>
      rw [hagain, unlessFault] at hread
      refine ⟨_, _, Job.bind_of_ok (Job.beside_of_eq _ hwrite)
        (Job.bind_of_error (Job.beside_of_eq _ hread)), ⟨rfl, rfl⟩,
          .inl ⟨⟨failure, rfl⟩, fun next hrecords ↦ ?_⟩⟩
      exact Option.some_ne_none failure (hagain.symm.trans hrecords.read)
    | none =>
      rw [hagain, unlessFault] at hread
      set file := exportedFile call documentId fileId title body with hfileDef
      set connection := (Job.begun world).connection.later.later with hconnection
      have hopen : connection.aborted = false := rfl
      rcases Job.database_cases (sound_recordFile host file call.now) ⟨opened, connection⟩ with
        ⟨failure, after, hscript, hjob, hcommitted⟩ | ⟨value, after, hscript, hjob, hcommitted⟩
      · refine ⟨_, _, Job.bind_of_ok (Job.beside_of_eq _ hwrite)
          (Job.bind_of_ok (Job.beside_of_eq _ hread) (Job.bind_of_error hjob)), ⟨rfl, hcommitted⟩,
            .inl ⟨⟨failure, rfl⟩, fun next hrecords ↦ ?_⟩⟩
        obtain ⟨value, hvalue⟩ := (recordFile_eq_ok hopen).mpr
          ⟨hrecords.statements, next, hrecords.recorded, rfl⟩
        rw [hscript] at hvalue
        cases hvalue
      · obtain ⟨hstatements, next, hrecorded, rfl⟩ := (recordFile_eq_ok hopen).mp ⟨value, hscript⟩
        refine ⟨_, _, Job.bind_of_ok (Job.beside_of_eq _ hwrite)
          (Job.bind_of_ok (Job.beside_of_eq _ hread) (Job.bind_of_ok hjob rfl)), ⟨rfl, hcommitted⟩,
            .inr ⟨⟨_, rfl⟩, next, ⟨hfault, hagain, hstatements, hrecorded⟩, rfl, rfl, ?_⟩⟩
        show connection.faults (0 + _) = _
        rw [Nat.zero_add]
        rfl

/-- A transaction that opens the file reads the document before. -/
theorem exportBody_of_opensFile (host : ExportHost) (call : ExportCall) (fileId : Uuid)
    (hopens : OpensFile world documentId title body) :
    exportBody host call documentId fileId (Job.begun world) =
      writeExport host call documentId fileId title body
        ⟨world.outside, (Job.begun world).connection.later.later⟩ := by
  have hread : readDocument call documentId (Job.begun world).connection =
      (.ok (title, body), (Job.begun world).connection.later.later) :=
    (readDocument_eq_ok rfl).mpr ⟨⟨hopens.statements 1 (by omega), hopens.statements 2 (by omega)⟩,
      hopens.document, hopens.text, hopens.nonempty, rfl⟩
  have hmkdir : world.outside.makeParent = (.ok (), world.outside) := by
    rw [Disk.makeParent, hopens.parent, unlessFault]
  exact Job.bind_of_ok (Job.database_of_ok hread) (Job.bind_of_ok (Job.beside_of_eq _ hmkdir) rfl)

end Transaction

/-! ### The rows of the file -/

/-- The rows of the files and of their originals are the same. -/
structure SameRows (store next : ExportDb) : Prop where
  files : next.files = store.files
  primarySources : next.primarySources = store.primarySources
  fileTimes : next.fileTimes = store.fileTimes

/-- The row of the file is there and is what the call writes. -/
structure AlreadyRecorded (host : ExportHost) (file : ExportedFile) (now : Instant)
    (store : ExportDb) : Prop where
  present : hasKey (fun row : FileRow ↦ row.id) file.id store.files = true
  row : ∀ row ∈ store.files, row.id = file.id → exportedFileRow host file row.primarySourceId = row
  timed : hasKey Prod.fst file.id store.fileTimes = true
  time : ∀ entry ∈ store.fileTimes, entry.1 = file.id → (file.id, now) = entry

/-- An upsert of a row that is there changes nothing when both tables have what it writes. -/
theorem sameRows_upsertFile_iff {row : FileRow} {now : Instant} {store next : ExportDb}
    (hpresent : hasKey (fun row : FileRow ↦ row.id) row.id store.files = true)
    (hnext : upsertFile row now store = .ok next) : SameRows store next ↔
      (∀ old ∈ store.files, old.id = row.id →
        { row with primarySourceId := old.primarySourceId } = old) ∧
        hasKey Prod.fst row.id store.fileTimes = true ∧
          ∀ entry ∈ store.fileTimes, entry.1 = row.id → (row.id, now) = entry := by
  rw [upsertFile, if_pos hpresent] at hnext
  obtain rfl := Except.ok.inj hnext
  constructor
  · rintro ⟨hfiles, -, htimes⟩
    exact ⟨fun old hold hid ↦ updateWhere_eq_self.mp hfiles old hold (decide_eq_true hid),
      upsert_eq_self.mp htimes⟩
  · rintro ⟨hfiles, htimes⟩
    exact ⟨updateWhere_eq_self.mpr fun old hold hid ↦ hfiles old hold (of_decide_eq_true hid), rfl,
      upsert_eq_self.mpr htimes⟩

/-- An upsert of a row that is not there adds it. -/
theorem files_upsertFile_of_not_hasKey {row : FileRow} {now : Instant} {store next : ExportDb}
    (habsent : hasKey (fun row : FileRow ↦ row.id) row.id store.files = false)
    (hnext : upsertFile row now store = .ok next) : next.files = store.files ++ [row] := by
  rw [upsertFile, if_neg (Bool.eq_false_iff.mp habsent)] at hnext
  simp only [bind_eq_ok] at hnext
  obtain ⟨db, hdb, _, -, hrow⟩ := hnext
  obtain rfl := Except.ok.inj hrow
  cases hregister : store.toDb.register .files row.id with
  | error failure =>
    rw [hregister] at hdb
    cases hdb
  | ok registered =>
    rw [hregister] at hdb
    obtain rfl := Except.ok.inj hdb
    obtain ⟨-, rfl⟩ := Db.register_eq_ok.mp hregister
    rfl

/-- The statements behind the file change no row exactly when they find what they write. -/
theorem sameRows_recordedFile_iff {host : ExportHost} {file : ExportedFile} {now : Instant}
    {store next : ExportDb} (hnext : recordedFile host file now store = .ok next) :
    SameRows store next ↔ AlreadyRecorded host file now store := by
  unfold recordedFile at hnext
  split at hnext
  next row hrow =>
    obtain ⟨hmem, hid⟩ := mem_of_lookup hrow
    have hpresent : hasKey (fun row : FileRow ↦ row.id) file.id store.files = true :=
      hasKey_eq_true.mpr ⟨row, hmem, hid⟩
    rw [sameRows_upsertFile_iff hpresent hnext]
    constructor
    · rintro ⟨hfiles, htimed, htimes⟩
      exact ⟨hpresent, hfiles, htimed, htimes⟩
    · rintro ⟨-, hfiles, htimed, htimes⟩
      exact ⟨hfiles, htimed, htimes⟩
  next hnone =>
    have habsent : hasKey (fun row : FileRow ↦ row.id) file.id store.files = false :=
      hasKey_eq_false.mpr (lookup_eq_none.mp hnone)
    have hfiles := files_upsertFile_of_not_hasKey habsent hnext
    constructor
    · intro hsame
      exact absurd (hfiles.symm.trans hsame.files) (by simp [insertSource])
    · intro hrecorded
      exact absurd (habsent.symm.trans hrecorded.present) Bool.false_ne_true

/-! ### Failed exports -/

section Failures

variable {host : ExportHost} {databaseUrl : Option Text} {call : ExportCall}
  {documentId fileId : Uuid} {title : Option Text} {body : Text} {failure : ExportFailure}
  {world after : World Disk ExportDb ExportFailure}

/-- A call changed nothing: the file holds what it held, and the rows of the files and of their
originals are the ones that were there. -/
structure Unchanged (world after : World Disk ExportDb ExportFailure) : Prop where
  content : after.outside.content = world.outside.content
  rows : SameRows world.connection.committed after.connection.committed

/-- A call passes the checks in front of its transaction. -/
structure BeginsExport (host : ExportHost) (databaseUrl : Option Text) (call : ExportCall)
    (world : World Disk ExportDb ExportFailure) (documentId fileId : Uuid) : Prop where
  configured : (nonempty databaseUrl).isNone = false
  uuids : call.uuids host = .ok (documentId, fileId)
  stat : world.outside.statFault = none
  overwrite : (world.outside.content.isSome && !call.overwrite) = false

/-- Everything goes well up to the commit, which takes effect without saying so. -/
def LosesCommit (host : ExportHost) (call : ExportCall) (world : World Disk ExportDb ExportFailure)
    (file : ExportedFile) : Prop :=
  (∃ next, RecordsFile host call world file next) ∧
    ∃ failure, world.connection.faults (commitIndex world file.id) = some (.after failure)

/-- A call has nothing to take back when it raises: once it opens the file, the file held already what
is written to it, and a commit whose success is lost changes no row. -/
def FailsCleanly (host : ExportHost) (databaseUrl : Option Text) (call : ExportCall)
    (world : World Disk ExportDb ExportFailure) : Prop :=
  ∀ documentId fileId title body, BeginsExport host databaseUrl call world documentId fileId →
    OpensFile world documentId title body →
      world.outside.content = some (world.outside.writtenBytes body) ∧
        (LosesCommit host call world (exportedFile call documentId fileId title body) →
          AlreadyRecorded host (exportedFile call documentId fileId title body) call.now
            world.connection.committed)

theorem SameRows.refl (store : ExportDb) : SameRows store store := ⟨rfl, rfl, rfl⟩

/-- A call raises in front of its transaction or begins it. -/
theorem exportDocument_cases (host : ExportHost) (databaseUrl : Option Text) (call : ExportCall)
    (world : World Disk ExportDb ExportFailure) :
    ((∀ documentId fileId, ¬BeginsExport host databaseUrl call world documentId fileId) ∧
      (exportDocument host databaseUrl call world).2 = world) ∨
    ∃ documentId fileId, BeginsExport host databaseUrl call world documentId fileId ∧
      exportDocument host databaseUrl call world =
        Job.transaction (exportBody host call documentId fileId) world := by
  cases hconfigured : (nonempty databaseUrl).isNone with
  | true =>
    have hraised : exportDocument host databaseUrl call world = (.error _, world) :=
      Job.bind_of_error (Job.lift_of_eq (if_pos hconfigured))
    refine .inl ⟨fun documentId fileId hbegins ↦ ?_, congrArg Prod.snd hraised⟩
    exact Bool.false_ne_true (hbegins.configured.symm.trans hconfigured)
  | false =>
    have hfirst : raiseIf (nonempty databaseUrl).isNone
        (ExportFailure.runtime "database URL is not configured") = .ok () :=
      raiseIf_eq_ok.mpr hconfigured
    cases huuids : call.uuids host with
    | error failure =>
      have hraised : exportDocument host databaseUrl call world = (.error failure, world) :=
        Job.bind_of_ok (Job.lift_of_eq hfirst) (Job.bind_of_error (Job.lift_of_eq huuids))
      refine .inl ⟨fun documentId fileId hbegins ↦ ?_, congrArg Prod.snd hraised⟩
      cases huuids.symm.trans hbegins.uuids
    | ok uuids =>
      cases hstat : world.outside.statFault with
      | some failure =>
        have hexists : world.outside.exists = (.error failure, world.outside) := by
          rw [Disk.exists, hstat, unlessFault]
        have hraised : exportDocument host databaseUrl call world = (.error failure, world) :=
          Job.bind_of_ok (Job.lift_of_eq hfirst) (Job.bind_of_ok (Job.lift_of_eq huuids)
            (Job.bind_of_error (Job.beside_of_eq world.connection hexists)))
        refine .inl ⟨fun documentId fileId hbegins ↦ ?_, congrArg Prod.snd hraised⟩
        cases hstat.symm.trans hbegins.stat
      | none =>
        have hexists : world.outside.exists = (.ok world.outside.content.isSome, world.outside) := by
          rw [Disk.exists, hstat, unlessFault]
        cases hfound : world.outside.content.isSome && !call.overwrite with
        | true =>
          have hraised : exportDocument host databaseUrl call world = (.error _, world) :=
            Job.bind_of_ok (Job.lift_of_eq hfirst) (Job.bind_of_ok (Job.lift_of_eq huuids)
              (Job.bind_of_ok (Job.beside_of_eq world.connection hexists)
                (Job.bind_of_error (Job.lift_of_eq (if_pos hfound)))))
          refine .inl ⟨fun documentId fileId hbegins ↦ ?_, congrArg Prod.snd hraised⟩
          exact Bool.false_ne_true (hbegins.overwrite.symm.trans hfound)
        | false =>
          refine .inr ⟨uuids.1, uuids.2, ⟨hconfigured, huuids, hstat, hfound⟩, ?_⟩
          exact Job.bind_of_ok (Job.lift_of_eq hfirst) (Job.bind_of_ok (Job.lift_of_eq huuids)
            (Job.bind_of_ok (Job.beside_of_eq world.connection hexists)
              (Job.bind_of_ok (Job.lift_of_eq (if_neg (Bool.eq_false_iff.mp hfound))) rfl)))

theorem OpensFile.unique {title' : Option Text} {body' : Text}
    (hopens : OpensFile world documentId title body)
    (hopens' : OpensFile world documentId title' body') : title' = title ∧ body' = body :=
  ⟨Option.some.inj (hopens'.document.symm.trans hopens.document),
    hopens'.text.trans hopens.text.symm⟩

/-- What it takes to fail cleanly once the file is opened. -/
theorem failsCleanly_iff_of_opensFile
    (hbegins : BeginsExport host databaseUrl call world documentId fileId)
    (hopens : OpensFile world documentId title body) :
    FailsCleanly host databaseUrl call world ↔
      world.outside.content = some (world.outside.writtenBytes body) ∧
        (LosesCommit host call world (exportedFile call documentId fileId title body) →
          AlreadyRecorded host (exportedFile call documentId fileId title body) call.now
            world.connection.committed) := by
  constructor
  · exact fun hclean ↦ hclean documentId fileId title body hbegins hopens
  · intro hclean documentId' fileId' title' body' hbegins' hopens'
    obtain ⟨rfl, rfl⟩ := Prod.mk.inj (Except.ok.inj (hbegins'.uuids.symm.trans hbegins.uuids))
    obtain ⟨rfl, rfl⟩ := hopens.unique hopens'
    exact hclean

/-- A call that has not opened the file fails cleanly. -/
theorem failsCleanly_of_not_opensFile
    (hbegins : BeginsExport host databaseUrl call world documentId fileId)
    (hnot : ∀ title body, ¬OpensFile world documentId title body) :
    FailsCleanly host databaseUrl call world := by
  intro documentId' fileId' title' body' hbegins' hopens'
  obtain ⟨rfl, rfl⟩ := Prod.mk.inj (Except.ok.inj (hbegins'.uuids.symm.trans hbegins.uuids))
  exact absurd hopens' (hnot title' body')

/-- A transaction that does not open the file changes nothing. -/
theorem unchanged_transaction_of_not_opensFile
    (hnot : ∀ title body, ¬OpensFile world documentId title body) :
    Unchanged world (Job.transaction (exportBody host call documentId fileId) world).2 := by
  cases hbegin : world.connection.faults 0 with
  | some fault =>
    rw [Job.transaction, hbegin]
    exact ⟨rfl, .refl _⟩
  | none =>
    obtain ⟨failure, after, hbody, houtside, hcommitted⟩ :=
      exportBody_of_not_opensFile host call fileId hbegin hnot
    rw [Job.transaction, hbegin, hbody]
    exact ⟨congrArg Disk.content houtside, hcommitted ▸ .refl _⟩

/-- What a transaction that opens the file and raises leaves. -/
theorem unchanged_transaction_iff (hopens : OpensFile world documentId title body)
    (hraises : (Job.transaction (exportBody host call documentId fileId) world).1 =
      .error failure) :
    Unchanged world (Job.transaction (exportBody host call documentId fileId) world).2 ↔
      world.outside.content = some (world.outside.writtenBytes body) ∧
        (LosesCommit host call world (exportedFile call documentId fileId title body) →
          AlreadyRecorded host (exportedFile call documentId fileId title body) call.now
            world.connection.committed) := by
  obtain ⟨result, after, hwrite, hleaves, hends⟩ := writeExport_cases host call documentId fileId title
    body hopens.file
  have hbody := (exportBody_of_opensFile host call fileId hopens).trans hwrite
  have hcontent : after.outside.content = world.outside.content ↔
      world.outside.content = some (world.outside.writtenBytes body) := by
    rw [hleaves.content, eq_comm]
  have hending := Job.ending_transaction (exportBody host call documentId fileId) world
  generalize Job.transaction (exportBody host call documentId fileId) world = ended
    at hraises hending ⊢
  cases hending with
  | refused fault hbegin => cases hbegin.symm.trans (hopens.statements 0 (by omega))
  | raised hbegin failure after' hbody' =>
    obtain ⟨rfl, rfl⟩ := Prod.mk.inj (hbody.symm.trans hbody')
    rcases hends with ⟨-, hnot⟩ | ⟨⟨reply, hreply⟩, -⟩
    · rw [and_iff_left fun hloses ↦ absurd hloses.1.choose_spec (hnot _), ← hcontent]
      exact ⟨fun hsame ↦ hsame.content, fun hsame ↦ ⟨hsame, hleaves.committed ▸ .refl _⟩⟩
    · cases hreply
  | withdrawn hbegin reply after' hbody' failure hcommit =>
    obtain ⟨rfl, rfl⟩ := Prod.mk.inj (hbody.symm.trans hbody')
    rcases hends with ⟨⟨failure, hfailure⟩, -⟩ | ⟨-, next, -, hready⟩
    · cases hfailure
    · have hreported : ¬LosesCommit host call world
          (exportedFile call documentId fileId title body) := by
        rintro ⟨-, lost, hlost⟩
        cases hcommit.symm.trans (hready.faults.trans hlost)
      rw [and_iff_left fun hloses ↦ absurd hloses hreported, ← hcontent]
      exact ⟨fun hsame ↦ hsame.content, fun hsame ↦ ⟨hsame, hleaves.committed ▸ .refl _⟩⟩
  | unreported hbegin reply after' hbody' failure hcommit =>
    obtain ⟨rfl, rfl⟩ := Prod.mk.inj (hbody.symm.trans hbody')
    rcases hends with ⟨⟨failure, hfailure⟩, -⟩ | ⟨-, next, hrecords, hready⟩
    · cases hfailure
    · have hloses : LosesCommit host call world
          (exportedFile call documentId fileId title body) :=
        ⟨⟨next, hrecords⟩, failure, hready.faults.symm.trans hcommit⟩
      have hopen : after.connection.later.aborted = false := hready.aborted
      have hcommitted : after.connection.later.commit.committed = next := by
        rw [Connection.commit, if_neg (Bool.eq_false_iff.mp hopen)]
        exact hready.working
      rw [forall_prop_of_true hloses, ← hcontent, ← sameRows_recordedFile_iff hrecords.recorded]
      constructor
      · intro hsame
        exact ⟨hsame.content, hcommitted ▸ hsame.rows⟩
      · rintro ⟨hsame, hrows⟩
        exact ⟨hsame, hcommitted.symm ▸ hrows⟩
  | committed hbegin reply after' hbody' hcommit => cases hraises

/-- **A call that raises has changed nothing exactly when it fails cleanly.** -/
theorem unchanged_iff_failsCleanly
    (hraises : (exportDocument host databaseUrl call world).1 = .error failure) :
    Unchanged world (exportDocument host databaseUrl call world).2 ↔
      FailsCleanly host databaseUrl call world := by
  rcases exportDocument_cases host databaseUrl call world with
    ⟨hnot, hsame⟩ | ⟨documentId, fileId, hbegins, htransaction⟩
  · rw [hsame]
    exact iff_of_true ⟨rfl, .refl _⟩ fun documentId fileId _ _ hbegins ↦
      absurd hbegins (hnot documentId fileId)
  · rw [htransaction] at hraises ⊢
    by_cases hopens : ∃ title body, OpensFile world documentId title body
    · obtain ⟨title, body, hopens⟩ := hopens
      rw [failsCleanly_iff_of_opensFile hbegins hopens]
      exact unchanged_transaction_iff hopens hraises
    · have hnot : ∀ title body, ¬OpensFile world documentId title body := fun title body hopened ↦
        hopens ⟨title, body, hopened⟩
      exact iff_of_true (unchanged_transaction_of_not_opensFile hnot)
        (failsCleanly_of_not_opensFile hbegins hnot)

end Failures

/-! ### A file in the way -/

section Sample

def sampleExportHost : ExportHost where
  toHost := sampleHost
  parseUuid value := [sampleUuid 1].find? fun id ↦ uuidText id = value
  digest content := sampleHost.hexdigest (content.map fun byte ↦ Char.ofNat byte.toNat)

/-- An export of the small document over a file. -/
def sampleExport : ExportCall where
  documentId := uuidText (sampleUuid 1)
  path := lit "/srv/a.txt"
  overwrite := true
  newFileId := sampleUuid 70
  now := 11

/-- A file with a text, and the store with the small document, whose connection refuses a statement. -/
def exportWorld (content : Text) (refused : ℕ) : World Disk ExportDb ExportFailure where
  outside := { content := some (encodeUtf8 content) }
  connection :=
    { committed := { toEvidenceDb := sampleFirst.2 }
      working := { toEvidenceDb := sampleFirst.2 }
      faults index := if index = refused then some (.before default) else none }

/-- The statement behind the export, when its commit is refused over a file with the same text. -/
theorem unchanged_of_refusedCommit :
    ∃ failure, (exportDocument sampleExportHost (some (lit "postgresql://")) sampleExport
        (exportWorld sampleStoredText 6)).1 = .error failure ∧
      (Unchanged (exportWorld sampleStoredText 6) (exportDocument sampleExportHost
          (some (lit "postgresql://")) sampleExport (exportWorld sampleStoredText 6)).2 ↔
        FailsCleanly sampleExportHost (some (lit "postgresql://")) sampleExport
          (exportWorld sampleStoredText 6)) := by
  obtain ⟨failure, hraises⟩ := exists_of_not_succeeds (show succeeds (exportDocument sampleExportHost
    (some (lit "postgresql://")) sampleExport (exportWorld sampleStoredText 6)).1 = false by
      decide +kernel)
  exact ⟨failure, hraises, unchanged_iff_failsCleanly hraises⟩

/-- A call whose commit is refused has replaced the file that was there. -/
theorem overwritten_by_refusedCommit :
    (∃ failure, (exportDocument sampleExportHost (some (lit "postgresql://")) sampleExport
        (exportWorld (lit "old") 6)).1 = .error failure) ∧
      ¬Unchanged (exportWorld (lit "old") 6) (exportDocument sampleExportHost
        (some (lit "postgresql://")) sampleExport (exportWorld (lit "old") 6)).2 := by
  refine ⟨exists_of_not_succeeds (by decide +kernel), fun hsame ↦ ?_⟩
  exact absurd hsame.content (by decide +kernel)

end Sample

end DocStore
