import DocStore.Domain.Metadata

/-!
# Runs that are closed

A processing run is audit evidence. A trigger compares the old and the new version of an updated
run column by column: the audit columns never change, and once the run is terminal nothing changes
but that its references to a document, a chapter and a chunk are released. `runKept_of_updates`
follows this through every sequence of updates.

Columns are compared by their values, for which `cell` reads a record by a column as the generated
trigger does.
-/

set_option autoImplicit false
set_option relaxedAutoImplicit false

namespace DocStore

/-! ### Records and their columns -/

/-- A row of `processing_runs` with all its columns. -/
structure RunRecord where
  runId : Uuid
  primarySourceId : Uuid
  runKind : Text
  comparisonScope : Text
  actor : Text
  status : Text
  configurationHash : Text
  normalizationProfileId : Text
  normalizationProfileVersion : Text
  normalizationParameters : Json
  sourceEncoding : Option Text
  reconstructedEncoding : Option Text
  checksumAlgorithm : Text
  sourceSha256 : Option Text
  reconstructionSha256 : Option Text
  integrityOutcome : Option Text
  firstDifferenceOffset : Option ℤ
  mismatchSpanId : Option Uuid
  diagnosticAuthorization : Option Text
  redactionPolicy : Option Text
  documentId : Option Uuid
  chapterId : Option Uuid
  chunkId : Option Uuid
  operationId : Option Uuid
  processingTraceId : Option Uuid
  startedAt : Option Instant
  completedAt : Option Instant
  createdAt : Instant

/-- The columns of `processing_runs`. -/
inductive RunColumn where
  | runId | primarySourceId | runKind | comparisonScope | actor | status | configurationHash
  | normalizationProfileId | normalizationProfileVersion | normalizationParameters
  | sourceEncoding | reconstructedEncoding | checksumAlgorithm | sourceSha256
  | reconstructionSha256 | integrityOutcome | firstDifferenceOffset | mismatchSpanId
  | diagnosticAuthorization | redactionPolicy | documentId | chapterId | chunkId | operationId
  | processingTraceId | startedAt | completedAt | createdAt
deriving DecidableEq, Repr

/-- The name of a column. -/
def RunColumn.name : RunColumn → String
  | runId => "run_id"
  | primarySourceId => "primary_source_id"
  | runKind => "run_kind"
  | comparisonScope => "comparison_scope"
  | actor => "actor"
  | status => "status"
  | configurationHash => "configuration_hash"
  | normalizationProfileId => "normalization_profile_id"
  | normalizationProfileVersion => "normalization_profile_version"
  | normalizationParameters => "normalization_parameters"
  | sourceEncoding => "source_encoding"
  | reconstructedEncoding => "reconstructed_encoding"
  | checksumAlgorithm => "checksum_algorithm"
  | sourceSha256 => "source_sha256"
  | reconstructionSha256 => "reconstruction_sha256"
  | integrityOutcome => "integrity_outcome"
  | firstDifferenceOffset => "first_difference_offset"
  | mismatchSpanId => "mismatch_span_id"
  | diagnosticAuthorization => "diagnostic_authorization"
  | redactionPolicy => "redaction_policy"
  | documentId => "document_id"
  | chapterId => "chapter_id"
  | chunkId => "chunk_id"
  | operationId => "operation_id"
  | processingTraceId => "processing_trace_id"
  | startedAt => "started_at"
  | completedAt => "completed_at"
  | createdAt => "created_at"

/-- The value of a column. -/
inductive Cell where
  | null
  | uuid (value : Uuid)
  | text (value : Text)
  | json (value : Json)
  | integer (value : ℤ)
  | instant (value : Instant)
deriving DecidableEq

/-- The value of a nullable column. -/
def Cell.nullable {α : Type} (make : α → Cell) (value : Option α) : Cell :=
  (value.map make).getD .null

/-- `NEW.column` and `OLD.column`. -/
def RunRecord.cell (run : RunRecord) : RunColumn → Cell
  | .runId => .uuid run.runId
  | .primarySourceId => .uuid run.primarySourceId
  | .runKind => .text run.runKind
  | .comparisonScope => .text run.comparisonScope
  | .actor => .text run.actor
  | .status => .text run.status
  | .configurationHash => .text run.configurationHash
  | .normalizationProfileId => .text run.normalizationProfileId
  | .normalizationProfileVersion => .text run.normalizationProfileVersion
  | .normalizationParameters => .json run.normalizationParameters
  | .sourceEncoding => .nullable .text run.sourceEncoding
  | .reconstructedEncoding => .nullable .text run.reconstructedEncoding
  | .checksumAlgorithm => .text run.checksumAlgorithm
  | .sourceSha256 => .nullable .text run.sourceSha256
  | .reconstructionSha256 => .nullable .text run.reconstructionSha256
  | .integrityOutcome => .nullable .text run.integrityOutcome
  | .firstDifferenceOffset => .nullable .integer run.firstDifferenceOffset
  | .mismatchSpanId => .nullable .uuid run.mismatchSpanId
  | .diagnosticAuthorization => .nullable .text run.diagnosticAuthorization
  | .redactionPolicy => .nullable .text run.redactionPolicy
  | .documentId => .nullable .uuid run.documentId
  | .chapterId => .nullable .uuid run.chapterId
  | .chunkId => .nullable .uuid run.chunkId
  | .operationId => .nullable .uuid run.operationId
  | .processingTraceId => .nullable .uuid run.processingTraceId
  | .startedAt => .nullable .instant run.startedAt
  | .completedAt => .nullable .instant run.completedAt
  | .createdAt => .instant run.createdAt

/-- `RUN_SCOPE_REFERENCE_COLUMNS`. -/
def runScopeReferenceColumns : List RunColumn := [.documentId, .chapterId, .chunkId]

/-- `TERMINAL_RUN_STATUSES`. -/
def terminalRunStatuses : List Text := [lit "succeeded", lit "failed", lit "aborted"]

/-- `RUN_AUDIT_COLUMNS`. -/
def runAuditColumns : List RunColumn :=
  [.runId, .primarySourceId, .runKind, .comparisonScope, .actor, .configurationHash,
    .normalizationProfileId, .normalizationProfileVersion, .normalizationParameters, .createdAt]

/-- `_run_row_columns`: the columns in the order of their declaration. -/
def runRowColumns : List RunColumn :=
  [.runId, .primarySourceId, .runKind, .comparisonScope, .actor, .status, .configurationHash,
    .normalizationProfileId, .normalizationProfileVersion, .normalizationParameters,
    .sourceEncoding, .reconstructedEncoding, .checksumAlgorithm, .sourceSha256,
    .reconstructionSha256, .integrityOutcome, .firstDifferenceOffset, .mismatchSpanId,
    .diagnosticAuthorization, .redactionPolicy, .documentId, .chapterId, .chunkId, .operationId,
    .processingTraceId, .startedAt, .completedAt, .createdAt]

/-! ### The trigger -/

/-- `_distinct_from_ladder`: the first of some columns that an update touches. -/
def distinctFromLadder (columns : List RunColumn) (old new : RunRecord) : Option RunColumn :=
  columns.find? fun column ↦ new.cell column ≠ old.cell column

/-- `_released_only_condition`: each reference is untouched or moves from a value to NULL. -/
def releasedOnly (old new : RunRecord) : Bool :=
  runScopeReferenceColumns.all fun column ↦
    new.cell column = old.cell column || (old.cell column ≠ .null && new.cell column = .null)

/-- The columns that are no references. -/
def nonReferenceColumns : List RunColumn :=
  runRowColumns.filter fun column ↦ !runScopeReferenceColumns.contains column

/-- A `restrict_violation` with its message and hint. -/
structure RestrictViolation where
  message : Text
  hint : Text
deriving DecidableEq

/-- `doc_store_processing_runs_immutable`, which runs before a run is updated. -/
def processingRunsImmutable (old new : RunRecord) : Except RestrictViolation RunRecord :=
  let releasingScopeOnly :=
    releasedOnly old new && (distinctFromLadder nonReferenceColumns old new).isNone
  if terminalRunStatuses.contains old.status && !releasingScopeOnly then
    .error {
      message := lit "processing_runs is immutable once terminal: run " ++ uuidText old.runId ++
        lit " already reported status " ++ old.status
      hint := lit "Record a new ProcessingRun rather than rewriting a completed one; a run is the " ++
        lit "audit evidence for what it produced. Releasing document_id, chapter_id or chunk_id to " ++
        lit "NULL is permitted, because the foreign keys declare it." }
  else
    match distinctFromLadder runAuditColumns old new with
    | some offendingColumn =>
      .error {
        message := lit "processing_runs audit identity is immutable: run " ++ uuidText old.runId ++
          lit " cannot change column " ++ lit offendingColumn.name
        hint := lit "What a run consumed, the deterministic configuration it applied, the actor it " ++
          lit "ran for and when it was recorded are fixed when the run is created." }
    | none => .ok new

/-! ### Updates -/

/-- An `UPDATE` of `processing_runs`: the new version of each run that it matches. `admits` says
which tables the other constraints of the schema let through. -/
structure RunUpdate where
  newVersion : RunRecord → Option RunRecord
  admits : List RunRecord → Bool

/-- The version of a run behind an update, which the trigger has let through. -/
def RunUpdate.version (update : RunUpdate) (run : RunRecord) : Except RestrictViolation RunRecord :=
  match update.newVersion run with
  | none => .ok run
  | some new => processingRunsImmutable run new

/-- The table behind an update. A statement that is refused leaves it as it is. -/
def updateRuns (runs : List RunRecord) (update : RunUpdate) : List RunRecord :=
  match runs.mapM update.version with
  | .error _ => runs
  | .ok updated => if update.admits updated then updated else runs

/-! ### What updates keep -/

/-- What an update leaves of a run: its audit columns and, when it is terminal, all columns but the
references, of which each is as it was or is released. -/
structure RunKept (old new : RunRecord) : Prop where
  audit : ∀ column ∈ runAuditColumns, new.cell column = old.cell column
  closed : old.status ∈ terminalRunStatuses → ∀ column, column ∉ runScopeReferenceColumns →
    new.cell column = old.cell column
  released : old.status ∈ terminalRunStatuses → ∀ column ∈ runScopeReferenceColumns,
    new.cell column = old.cell column ∨ old.cell column ≠ .null ∧ new.cell column = .null

theorem RunKept.refl (run : RunRecord) : RunKept run run :=
  ⟨fun _ _ ↦ rfl, fun _ _ _ ↦ rfl, fun _ _ _ ↦ .inl rfl⟩

/-- A terminal run stays terminal. -/
theorem RunKept.status_eq {old new : RunRecord} (hkept : RunKept old new)
    (hterminal : old.status ∈ terminalRunStatuses) : new.status = old.status := by
  have hcell := hkept.closed hterminal .status (by decide)
  exact Cell.text.inj hcell

theorem RunKept.trans {first second third : RunRecord} (hfirst : RunKept first second)
    (hsecond : RunKept second third) : RunKept first third where
  audit column hmem := (hsecond.audit column hmem).trans (hfirst.audit column hmem)
  closed hterminal column hmem :=
    (hsecond.closed ((hfirst.status_eq hterminal).symm ▸ hterminal) column hmem).trans
      (hfirst.closed hterminal column hmem)
  released hterminal column hmem := by
    have hbefore := hfirst.released hterminal column hmem
    have hbehind := hsecond.released ((hfirst.status_eq hterminal).symm ▸ hterminal) column hmem
    rcases hbefore with hsame | ⟨hvalue, hnull⟩
    · exact hsame ▸ hbehind
    · rcases hbehind with hsame | ⟨hnotNull, -⟩
      · exact .inr ⟨hvalue, hsame.trans hnull⟩
      · exact absurd hnull hnotNull

theorem mem_runRowColumns (column : RunColumn) : column ∈ runRowColumns := by
  cases column <;> decide

theorem distinctFromLadder_eq_none {columns : List RunColumn} {old new : RunRecord} :
    distinctFromLadder columns old new = none ↔
      ∀ column ∈ columns, new.cell column = old.cell column := by
  simp [distinctFromLadder]

theorem releasedOnly_eq_true {old new : RunRecord} : releasedOnly old new = true ↔
    ∀ column ∈ runScopeReferenceColumns, new.cell column = old.cell column ∨
      old.cell column ≠ .null ∧ new.cell column = .null := by
  simp [releasedOnly]

theorem nonReferenceColumns_untouched {old new : RunRecord} :
    (distinctFromLadder nonReferenceColumns old new).isNone = true ↔
      ∀ column, column ∉ runScopeReferenceColumns → new.cell column = old.cell column := by
  rw [Option.isNone_iff_eq_none, distinctFromLadder_eq_none]
  simp [nonReferenceColumns, mem_runRowColumns]

/-- The trigger lets an update through exactly when it keeps the run. -/
theorem processingRunsImmutable_eq_ok {old new result : RunRecord} :
    processingRunsImmutable old new = .ok result ↔ result = new ∧ RunKept old new := by
  have hopen : (terminalRunStatuses.contains old.status && !(releasedOnly old new &&
      (distinctFromLadder nonReferenceColumns old new).isNone)) = false ↔
        (old.status ∈ terminalRunStatuses → releasedOnly old new = true ∧
          (distinctFromLadder nonReferenceColumns old new).isNone = true) := by
    simp [Bool.and_eq_false_imp]
  rw [releasedOnly_eq_true, nonReferenceColumns_untouched] at hopen
  unfold processingRunsImmutable
  dsimp only
  constructor
  · intro hresult
    split at hresult
    next => cases hresult
    next haccepted =>
      have hreleases := hopen.mp (Bool.not_eq_true _ ▸ haccepted)
      split at hresult
      next => cases hresult
      next haudit =>
        cases hresult
        exact ⟨rfl, distinctFromLadder_eq_none.mp haudit, fun hterminal ↦ (hreleases hterminal).2,
          fun hterminal ↦ (hreleases hterminal).1⟩
  · rintro ⟨rfl, hkept⟩
    have haccepted := hopen.mpr fun hterminal ↦
      ⟨hkept.released hterminal, hkept.closed hterminal⟩
    rw [haccepted, if_neg Bool.false_ne_true, distinctFromLadder_eq_none.mpr hkept.audit]

theorem runKept_of_version {update : RunUpdate} {run new : RunRecord}
    (hversion : update.version run = .ok new) : RunKept run new := by
  unfold RunUpdate.version at hversion
  split at hversion
  next =>
    cases hversion
    exact RunKept.refl run
  next =>
    obtain ⟨rfl, hkept⟩ := processingRunsImmutable_eq_ok.mp hversion
    exact hkept

theorem forall₂_runKept_refl (runs : List RunRecord) : List.Forall₂ RunKept runs runs :=
  List.forall₂_same.mpr fun run _ ↦ RunKept.refl run

theorem forall₂_runKept_trans {first second third : List RunRecord}
    (hfirst : List.Forall₂ RunKept first second) (hsecond : List.Forall₂ RunKept second third) :
    List.Forall₂ RunKept first third := by
  induction hfirst generalizing third with
  | nil => exact hsecond
  | cons hrun _ ih =>
    cases hsecond with
    | cons hrun' hrest => exact .cons (hrun.trans hrun') (ih hrest)

/-- What one update keeps of every run. -/
theorem runKept_of_update (runs : List RunRecord) (update : RunUpdate) :
    List.Forall₂ RunKept runs (updateRuns runs update) := by
  unfold updateRuns
  split
  next => exact forall₂_runKept_refl runs
  next updated hupdated =>
    split
    · exact (mapM_eq_ok.mp hupdated).imp fun run new hversion ↦ runKept_of_version hversion
    · exact forall₂_runKept_refl runs

/-- What updates keep of every run. -/
theorem runKept_of_foldl (runs : List RunRecord) (updates : List RunUpdate) :
    List.Forall₂ RunKept runs (updates.foldl updateRuns runs) := by
  induction updates generalizing runs with
  | nil => exact forall₂_runKept_refl runs
  | cons update updates ih =>
    exact forall₂_runKept_trans (runKept_of_update runs update) (ih (updateRuns runs update))

/-- **A terminal run only ever releases references.** Whatever updates are sent to a table of runs,
accepted or refused, at every later point each run has the audit columns that it had at an earlier
one, and if it was terminal there it has lost references at most. -/
theorem runKept_of_updates (runs : List RunRecord) (earlier later : List RunUpdate) :
    List.Forall₂ RunKept (earlier.foldl updateRuns runs)
      ((earlier ++ later).foldl updateRuns runs) := by
  rw [List.foldl_append]
  exact runKept_of_foldl _ later

end DocStore
