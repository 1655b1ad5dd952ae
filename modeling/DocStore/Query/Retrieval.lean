import DocStore.Ingestion.ChapterOrder
import DocStore.Temporal.Resolution

/-!
# Retrieval of documents

A retrieval command resolves the times of its request, calls a boundary and reduces what it returns
to the version visible at these times. The times reach a boundary only when its signature declares
them, and only a result that consists of assertions is reduced. The installed boundary declares no
times and returns the row of the document, so its replies state times that nothing has looked at
(`execute_of_plain`). `honoursTimes_iff` says at which times they are right nevertheless: those at
which the assertions of the document resolve to what was published last.
-/

set_option autoImplicit false
set_option relaxedAutoImplicit false

namespace DocStore

open Foundation

/-! ### The command -/

/-- What a boundary raises. -/
inductive BoundaryError where
  | invalidVersion (sourceVersion : ℕ)
  | lookup (identifier : Uuid)
deriving DecidableEq, Repr

/-- What a boundary returns: a plain result, or assertions that are still to be resolved. -/
inductive BoundaryResult (ν : Type) where
  | plain (value : ν)
  | assertion (row : Assertion)
  | assertions (rows : List Assertion)

/-- A boundary method: the times that its signature declares, and what it does. -/
structure Boundary (ν : Type) where
  declaresActDate : Bool
  declaresKnownAt : Bool
  call : Uuid → Option ℕ → Option Instant → Option Instant →
    Except BoundaryError (Option (BoundaryResult ν))

/-- The parameters of a retrieval command, validated. -/
structure RetrievalRequest where
  identifier : Uuid
  sourceVersion : Option ℕ := none
  actDate : Option Instant := none
  knownAt : Option Instant := none
deriving DecidableEq, Repr

/-- What a retrieval command reads of its context: the pair that the request has resolved already,
and the clock. -/
structure RequestContext where
  resolvedTimePair : Option ResolvedTimePair := none
  requestNow : Instant

/-- `resolve_time_pair`. -/
def resolveTimePair (actDate knownAt : Option Instant) (now : Instant) : ResolvedTimePair where
  actDate := actDate.getD now
  knownAt := knownAt.getD now

/-- `_request_time_pair`: the pair, and whether it is pinned. -/
def requestTimePair (request : RetrievalRequest) (context : RequestContext) :
    ResolvedTimePair × Bool :=
  match context.resolvedTimePair with
  | some inherited =>
    ({ actDate := request.actDate.getD inherited.actDate
       knownAt := request.knownAt.getD inherited.knownAt }, true)
  | none => (resolveTimePair request.actDate request.knownAt context.requestNow,
      request.actDate.isSome || request.knownAt.isSome)

/-- `_visible_value`. An empty list is not taken for assertions. -/
def visibleValue {ν : Type} (result : Option (BoundaryResult ν)) (pair : ResolvedTimePair) :
    Except Failure (Option (BoundaryResult ν)) :=
  match result with
  | some (.assertion row) => (selectVisibleAssertion [row] pair).map (Option.map .assertion)
  | some (.assertions (row :: rows)) =>
    (selectVisibleAssertion (row :: rows) pair).map (Option.map .assertion)
  | result => .ok result

/-- Why a retrieval command fails. -/
inductive RetrievalFailure where
  | invalidVersion (sourceVersion : ℕ)
  | absent (identifier : Uuid)
  | notVisible (entityName : Text)
  | ambiguous (failure : Failure)

/-- The code in front of the message of a failure. -/
def RetrievalFailure.code : RetrievalFailure → String
  | invalidVersion _ => "INVALID_VERSION"
  | absent _ => "NOT_FOUND"
  | notVisible _ => "NOT_FOUND"
  | ambiguous _ => "AMBIGUOUS_ASSERTION"

/-- The data of a successful reply. -/
structure RetrievalData (ν : Type) where
  entity : Text
  identifier : Uuid
  sourceVersion : Option ℕ
  value : Option (BoundaryResult ν)
  times : Option ResolvedTimePair

/-- What `execute` makes of an exception of the boundary. -/
def BoundaryError.failure : BoundaryError → RetrievalFailure
  | invalidVersion sourceVersion => .invalidVersion sourceVersion
  | lookup identifier => .absent identifier

/-- `_RetrievalCommand.execute`. -/
def executeRetrieval {ν : Type} (entityName : Text) (boundary : Boundary ν)
    (request : RetrievalRequest) (context : RequestContext) :
    Except RetrievalFailure (RetrievalData ν) := do
  let (pair, pinned) := requestTimePair request context
  let result ← (boundary.call request.identifier request.sourceVersion
    (if boundary.declaresActDate then some pair.actDate else none)
    (if boundary.declaresKnownAt then some pair.knownAt else none)).mapError BoundaryError.failure
  let visible ← (visibleValue result pair).mapError .ambiguous
  raiseIf (visible.isNone && result.isSome) (.notVisible entityName)
  return { entity := entityName
           identifier := request.identifier
           sourceVersion := request.sourceVersion
           value := visible
           times := if pinned || boundary.declaresActDate || boundary.declaresKnownAt then some pair
             else none }

/-! ### The installed boundary -/

/-- What `get_document` returns about a document. -/
structure DocumentValue where
  id : Uuid
  sourceVersion : ℕ
  sourcePath : Option Text
  sourceName : Option Text
  sourceHash : Option Text
  blockMeta : Dict
  chapterIds : Option (List Uuid)
  paragraphIds : Option (List Uuid)
  chunkIds : Option (List Uuid)

/-- `array_agg` over UUIDs in an order: `NULL` without rows. -/
def aggregatedIds (rows : List (ℕ × Uuid)) : Option (List Uuid) :=
  if rows.isEmpty then none
  else some ((rows.insertionSort fun first second ↦ first.1 ≤ second.1).map Prod.snd)

/-- The row that `get_document` returns. -/
def documentValue (db : Db) (row : DocumentRow) : DocumentValue where
  id := row.id
  sourceVersion := row.sourceVersion
  sourcePath := row.sourcePath
  sourceName := row.sourceName
  sourceHash := row.sourceHash
  blockMeta := row.blockMeta
  chapterIds := aggregatedIds ((db.chapters.filter fun child ↦
    child.documentId = row.id && child.deletedAt.isNone).map fun child ↦
      (child.orderIndex, child.id))
  paragraphIds := aggregatedIds ((db.paragraphs.filter fun child ↦
    child.documentId = row.id && child.deletedAt.isNone).map fun child ↦
      (child.orderIndex, child.id))
  chunkIds := aggregatedIds ((db.semanticChunks.filter fun child ↦
    child.documentId = row.id && child.deletedAt.isNone).map fun child ↦
      (child.orderIndex, child.id))

/-- The row of `get_document`: the document, unless it has a deletion time or another version. -/
def visibleDocument (db : Db) (documentId : Uuid) (sourceVersion : Option ℕ) : Option DocumentRow :=
  (lookup (fun row : DocumentRow ↦ row.id) documentId db.documents).filter fun row ↦
    row.deletedAt.isNone && sourceVersion.all fun wanted ↦ row.sourceVersion = wanted

/-- `RuntimeRetrievalBoundary.get_document` with `_one`. -/
def getDocument (db : Db) (documentId : Uuid) (sourceVersion : Option ℕ) :
    Except BoundaryError DocumentValue :=
  match visibleDocument db documentId sourceVersion, sourceVersion with
  | some row, _ => .ok (documentValue db row)
  | none, some wanted => .error (.invalidVersion wanted)
  | none, none => .error (.lookup documentId)

/-- What `get_chapter` returns about a chapter. -/
structure ChapterValue where
  id : Uuid
  documentId : Uuid
  sourceVersion : ℕ
  orderIndex : ℕ
  sourceStart : ℕ
  sourceEnd : ℕ
  blockMeta : Dict
  paragraphIds : Option (List Uuid)
  chunkIds : Option (List Uuid)

/-- What `get_paragraph` returns about a paragraph. -/
structure ParagraphValue where
  id : Uuid
  documentId : Uuid
  chapterId : Uuid
  sourceVersion : ℕ
  orderIndex : ℕ
  text : Text
  sourceStart : ℕ
  sourceEnd : ℕ
  blockMeta : Dict
  chunkIds : Option (List Uuid)

/-- The row that `get_chapter` returns. -/
def chapterValue (db : Db) (row : ChapterRow) (document : DocumentRow) : ChapterValue where
  id := row.id
  documentId := row.documentId
  sourceVersion := document.sourceVersion
  orderIndex := row.orderIndex
  sourceStart := row.sourceStart
  sourceEnd := row.sourceEnd
  blockMeta := row.blockMeta
  paragraphIds := aggregatedIds ((db.paragraphs.filter fun child ↦
    child.chapterId = row.id && child.deletedAt.isNone).map fun child ↦
      (child.orderIndex, child.id))
  chunkIds := aggregatedIds ((db.semanticChunks.filter fun child ↦
    child.chapterId = row.id && child.deletedAt.isNone).map fun child ↦
      (child.orderIndex, child.id))

/-- The row that `get_paragraph` returns. -/
def paragraphValue (db : Db) (row : ParagraphRow) (document : DocumentRow) : ParagraphValue where
  id := row.id
  documentId := row.documentId
  chapterId := row.chapterId
  sourceVersion := document.sourceVersion
  orderIndex := row.orderIndex
  text := row.text
  sourceStart := row.sourceStart
  sourceEnd := row.sourceEnd
  blockMeta := row.blockMeta
  chunkIds := aggregatedIds ((db.semanticChunks.filter fun child ↦
    child.paragraphId = row.id && child.deletedAt.isNone).map fun child ↦
      (child.orderIndex, child.id))

/-- `_one`, for what a statement has found. -/
def oneRow {ν : Type} (identifier : Uuid) (sourceVersion : Option ℕ) :
    Option ν → Except BoundaryError ν
  | some value => .ok value
  | none =>
    match sourceVersion with
    | some wanted => .error (.invalidVersion wanted)
    | none => .error (.lookup identifier)

/-- `RuntimeRetrievalBoundary.get_chapter`. -/
def getChapter (db : Db) (chapterId : Uuid) (sourceVersion : Option ℕ) :
    Except BoundaryError ChapterValue :=
  oneRow chapterId sourceVersion
    ((lookup (fun row : ChapterRow ↦ row.id) chapterId db.chapters).bind fun row ↦
      if row.deletedAt.isNone then
        (visibleDocument db row.documentId sourceVersion).map (chapterValue db row)
      else none)

/-- `RuntimeRetrievalBoundary.get_paragraph`. -/
def getParagraph (db : Db) (paragraphId : Uuid) (sourceVersion : Option ℕ) :
    Except BoundaryError ParagraphValue :=
  oneRow paragraphId sourceVersion
    ((lookup (fun row : ParagraphRow ↦ row.id) paragraphId db.paragraphs).bind fun row ↦
      if row.deletedAt.isNone then
        (visibleDocument db row.documentId sourceVersion).map (paragraphValue db row)
      else none)

/-- The installed boundary, whose signature declares neither time. -/
def installedBoundary (db : Db) : Boundary DocumentValue where
  declaresActDate := false
  declaresKnownAt := false
  call identifier sourceVersion _ _ :=
    (getDocument db identifier sourceVersion).map fun value ↦ some (.plain value)

/-- `DocumentGetCommand.execute` with the installed boundary. -/
def documentGet (db : Db) (request : RetrievalRequest) (context : RequestContext) :
    Except RetrievalFailure (RetrievalData DocumentValue) :=
  executeRetrieval (lit "document") (installedBoundary db) request context

/-- A boundary that declares no times and returns plain values answers alike at all times, and its
replies state the pair all the same. -/
theorem execute_of_plain {ν : Type} {entityName : Text} {boundary : Boundary ν}
    (hactDate : boundary.declaresActDate = false) (hknownAt : boundary.declaresKnownAt = false)
    (hplain : ∀ identifier sourceVersion actDate knownAt result,
      boundary.call identifier sourceVersion actDate knownAt = .ok result →
        ∃ value, result = some (.plain value))
    (request : RetrievalRequest) (context : RequestContext) :
    executeRetrieval entityName boundary request context =
      ((boundary.call request.identifier request.sourceVersion none none).mapError
        BoundaryError.failure).map fun result ↦
          { entity := entityName
            identifier := request.identifier
            sourceVersion := request.sourceVersion
            value := result
            times := if (requestTimePair request context).2 then
                some (requestTimePair request context).1 else none } := by
  simp only [executeRetrieval, hactDate, hknownAt, Bool.false_eq_true, if_false, Bool.or_false]
  cases hcall : boundary.call request.identifier request.sourceVersion none none with
  | error failure => rfl
  | ok result =>
    obtain ⟨value, rfl⟩ := hplain _ _ _ _ _ hcall
    rfl

/-! ### Documents and their source states -/

/-- A row of `source_states`, up to what it says about the source it restores. -/
structure SourceState where
  assertionId : Uuid
  restorationSha256 : Text
  sourceVersionId : Text
deriving DecidableEq

/-- The tables with the source states, and the state that the last publication of a document has
recorded. -/
structure SourceStateDb extends Db where
  sourceStates : List SourceState := []
  published : Option SourceState := none

/-- What changes the states of documents: a publication, and a call of the temporal service, whose
callbacks write the states of the assertions it appends. -/
inductive StateAction where
  | publish (call : PublishCall)
  | assert (objects : Objects) (context : TxContext) (call : Call) (states : List SourceState)

/-- Inserts source states, each under the UUID of its assertion. -/
def insertSourceStates (sourceStates added : List SourceState) : Option (List SourceState) :=
  added.foldlM (fun rows row ↦ insertNew SourceState.assertionId row rows) sourceStates

/-- What a publication records about the source. -/
def sourceStateRow (ids : PublicationIds) (plan : PersistencePlan) : SourceState where
  assertionId := ids.assertionId
  restorationSha256 := plan.bodySha256
  sourceVersionId := plan.sourceVersionId

/-- One action on the tables. A publication that fails leaves them as they were. -/
def stateStep (host : Host) (documentId : Uuid) (store : SourceStateDb) :
    StateAction → Option SourceStateDb
  | .publish call =>
    match publish host call.ids call.request call.paragraphChunks call.sentenceChunks
      store.toDb with
    | .error _ => some store
    | .ok publication =>
      if publication.integrityOutcome = .matching then
        let state := sourceStateRow call.ids (mapPlan host call.request)
        (insertSourceStates store.sourceStates [state]).map fun sourceStates ↦
          { publication.db with
            sourceStates
            published := if call.request.documentId = documentId then some state
              else store.published }
      else some
        { publication.db with
          sourceStates := store.sourceStates
          published := store.published }
  | .assert objects context call states =>
    (commit store.temporalAssertions { objects, context, writer := .service call }).bind
      fun temporalAssertions ↦ (insertSourceStates store.sourceStates states).map
        fun sourceStates ↦
          { store with
            temporalAssertions
            sourceStates }

/-! ### Replies that state times -/

section Replies

variable (host : Host) (store : SourceStateDb) (documentId : Uuid) (pair : ResolvedTimePair)

/-- What the reader of assertions resolves for a document. -/
def resolvedAssertion : Except Failure (Option Assertion) :=
  selectVisibleAssertion (objectRows documentId store.temporalAssertions) pair

/-- The state that the assertions of a document resolve to. -/
def ResolvesTo (state : SourceState) : Prop :=
  ∃ row, resolvedAssertion store documentId pair = .ok (some row) ∧
    lookup SourceState.assertionId row.assertionId store.sourceStates = some state

/-- A state and the row of a document say the same of the source. -/
structure SameSource (state : SourceState) (sourceHash : Option Text) (sourceVersion : ℕ) :
    Prop where
  digest : sourceHash = some state.restorationSha256
  version : sourceVersion = sourceVersionNumber host state.sourceVersionId

/-- A reply honours the times: data that states times carries what the assertions resolve to at
them, and where they resolve to nothing the document is not found. -/
structure HonoursTimes (reply : Except RetrievalFailure (RetrievalData DocumentValue)) : Prop where
  carries : ∀ data times, reply = .ok data → data.times = some times →
    ∃ value state, data.value = some (.plain value) ∧ ResolvesTo store documentId times state ∧
      SameSource host state value.sourceHash value.sourceVersion
  absent : resolvedAssertion store documentId pair = .ok none →
    ∃ failure, reply = .error failure ∧ failure.code = "NOT_FOUND"

/-- A request for a document at a pair of times. -/
def requestAt (sourceVersion : Option ℕ) : RetrievalRequest where
  identifier := documentId
  sourceVersion := sourceVersion
  actDate := some pair.actDate
  knownAt := some pair.knownAt

/-- The condition: the assertions resolve to a state of the source that was published last. Where
nothing was published, or a version is asked for that was not published last, the reply is an error,
and the condition is that it does not stand in for a document that is not found. -/
def ResolvesToPublished (sourceVersion : Option ℕ) : Prop :=
  match store.published with
  | some published =>
    if sourceVersion.all fun wanted ↦
        sourceVersionNumber host published.sourceVersionId = wanted then
      ∃ state, ResolvesTo store documentId pair state ∧
        state.restorationSha256 = published.restorationSha256 ∧
        sourceVersionNumber host state.sourceVersionId =
          sourceVersionNumber host published.sourceVersionId
    else resolvedAssertion store documentId pair ≠ .ok none
  | none => sourceVersion.isSome → resolvedAssertion store documentId pair ≠ .ok none

/-- The row of a document is that of its last publication. -/
def RowPublished : Prop :=
  match store.published with
  | some published => ∃ row,
      lookup (fun row : DocumentRow ↦ row.id) documentId store.documents = some row ∧
      row.deletedAt = none ∧ SameSource host published row.sourceHash row.sourceVersion
  | none => lookup (fun row : DocumentRow ↦ row.id) documentId store.documents = none

end Replies

section Runs

variable {host : Host} {documentId : Uuid} {store next : SourceStateDb}

/-- A publication writes the row of its document. -/
theorem RowPublished.stateStep {action : StateAction} (hrow : RowPublished host store documentId)
    (hstep : stateStep host documentId store action = some next) :
    RowPublished host next documentId := by
  cases action with
  | assert objects context call states =>
    obtain ⟨assertions, -, hstep⟩ := Option.bind_eq_some_iff.mp hstep
    obtain ⟨sourceStates, -, rfl⟩ := Option.map_eq_some_iff.mp hstep
    exact hrow
  | publish call =>
    simp only [DocStore.stateStep] at hstep
    split at hstep
    · cases hstep
      exact hrow
    next publication hpublish =>
      obtain ⟨paragraphs, hierarchy, kept, runs, assertions, -, hwrite, htables, hkept⟩ :=
        tables_of_publish hpublish
      have hdocuments : publication.db.documents = kept.documents := by rw [htables]
      rcases hkept with ⟨hmatch, rfl⟩ | ⟨hnot, rfl⟩
      · rw [if_pos hmatch] at hstep
        obtain ⟨sourceStates, -, rfl⟩ := Option.map_eq_some_iff.mp hstep
        have hlookup := lookup_document_of_writeHierarchy hwrite documentId
        by_cases hdocument : call.request.documentId = documentId
        · simp only [RowPublished, hdocument, if_true, hdocuments]
          exact ⟨_, hlookup.trans (if_pos hdocument.symm), rfl, rfl, rfl⟩
        · have hother := hlookup.trans (if_neg (Ne.symm hdocument))
          simp only [RowPublished, hdocument, if_false, hdocuments, hother]
          exact hrow
      · rw [if_neg hnot] at hstep
        cases hstep
        simp only [RowPublished, hdocuments]
        exact hrow

/-- The reply to a request at a pair of times is the row of the document, with the pair beside it. -/
theorem documentGet_requestAt (db : Db) (pair : ResolvedTimePair) (sourceVersion : Option ℕ)
    (context : RequestContext) :
    documentGet db (requestAt documentId pair sourceVersion) context =
      ((getDocument db documentId sourceVersion).mapError BoundaryError.failure).map fun value ↦
        { entity := lit "document"
          identifier := documentId
          sourceVersion := sourceVersion
          value := some (.plain value)
          times := some pair } := by
  have hpair : requestTimePair (requestAt documentId pair sourceVersion) context = (pair, true) := by
    unfold requestTimePair
    split <;> rfl
  rw [documentGet, execute_of_plain rfl rfl, hpair]
  · simp only [installedBoundary, requestAt]
    cases getDocument db documentId sourceVersion <;> rfl
  · intro identifier sourceVersion _ _ result hcall
    simp only [installedBoundary] at hcall
    cases hdocument : getDocument db identifier sourceVersion with
    | error failure => simp [hdocument, Except.map] at hcall
    | ok value =>
      rw [hdocument] at hcall
      cases hcall
      exact ⟨value, rfl⟩

/-- A reply that is an error honours the times unless it stands in for a document that is not
found. -/
theorem honoursTimes_error_iff {pair : ResolvedTimePair} {failure : RetrievalFailure} :
    HonoursTimes host store documentId pair (.error failure) ↔
      (failure.code ≠ "NOT_FOUND" → resolvedAssertion store documentId pair ≠ .ok none) := by
  constructor
  · intro hhonours hcode hnone
    obtain ⟨_, heq, hfound⟩ := hhonours.absent hnone
    cases heq
    exact hcode hfound
  · intro hcode
    refine ⟨fun _ _ heq ↦ (by cases heq), fun hnone ↦ ⟨failure, rfl, ?_⟩⟩
    by_contra hother
    exact hcode hother hnone

/-- Data that states the pair honours it when the assertions resolve to its source. -/
theorem honoursTimes_ok_iff {pair : ResolvedTimePair} {data : RetrievalData DocumentValue}
    {value : DocumentValue} (hvalue : data.value = some (.plain value))
    (htimes : data.times = some pair) :
    HonoursTimes host store documentId pair (.ok data) ↔
      ∃ state, ResolvesTo store documentId pair state ∧
        SameSource host state value.sourceHash value.sourceVersion := by
  constructor
  · intro hhonours
    obtain ⟨other, state, hother, hstate⟩ := hhonours.carries data pair rfl htimes
    rw [hvalue] at hother
    cases hother
    exact ⟨state, hstate⟩
  · rintro ⟨state, ⟨row, hresolved, hstate⟩, hsame⟩
    refine ⟨fun other times heq hother ↦ ?_, fun hnone ↦ ?_⟩
    · cases heq
      rw [htimes] at hother
      cases hother
      exact ⟨value, state, hvalue, ⟨row, hresolved, hstate⟩, hsame⟩
    · rw [hresolved] at hnone
      cases hnone

/-- **Stated times are honoured where nothing has changed since.** After any publications of
documents and calls of the temporal service, a reply of `document_get` to a request at a pair of
times honours the pair if and only if the assertions of the document resolve, at that pair, to a
state of the source that was published last. -/
theorem honoursTimes_iff {initial final : SourceStateDb}
    (hnew : lookup (fun row : DocumentRow ↦ row.id) documentId initial.documents = none)
    (hunpublished : initial.published = none)
    (hrun : Steps (DocStore.stateStep host documentId) (fun _ _ ↦ True) initial final)
    (pair : ResolvedTimePair) (sourceVersion : Option ℕ) (context : RequestContext) :
    HonoursTimes host final documentId pair
        (documentGet final.toDb (requestAt documentId pair sourceVersion) context) ↔
      ResolvesToPublished host final documentId pair sourceVersion := by
  have hinitial : RowPublished host initial documentId := by
    rw [RowPublished, hunpublished]
    exact hnew
  have hrow : RowPublished host final documentId :=
    hrun.invariant (motive := fun store ↦ RowPublished host store documentId) hinitial
      fun _ _ _ hstate _ hstep ↦ hstate.stateStep hstep
  rw [documentGet_requestAt, ResolvesToPublished]
  cases hpublished : final.published with
  | none =>
    simp only [RowPublished, hpublished] at hrow
    have hnone : visibleDocument final.toDb documentId sourceVersion = none := by
      rw [visibleDocument, hrow, Option.filter_none]
    cases sourceVersion with
    | none =>
      simp only [getDocument, hnone]
      exact honoursTimes_error_iff.trans (by simp [BoundaryError.failure, RetrievalFailure.code])
    | some wanted =>
      simp only [getDocument, hnone]
      exact honoursTimes_error_iff.trans (by simp [BoundaryError.failure, RetrievalFailure.code])
  | some published =>
    simp only [RowPublished, hpublished] at hrow
    obtain ⟨row, hfound, hlive, hdigest, hversion⟩ := hrow
    have hvisible : visibleDocument final.toDb documentId sourceVersion =
        if sourceVersion.all fun wanted ↦
          decide (sourceVersionNumber host published.sourceVersionId = wanted) then some row
        else none := by
      rw [visibleDocument, hfound, Option.filter_some, hlive, Option.isNone_none, Bool.true_and,
        hversion]
    by_cases hasked : (sourceVersion.all fun wanted ↦
        decide (sourceVersionNumber host published.sourceVersionId = wanted)) = true
    · simp only [getDocument, hvisible, hasked, if_true]
      refine (honoursTimes_ok_iff rfl rfl).trans (exists_congr fun state ↦
        and_congr_right fun _ ↦ ?_)
      constructor
      · rintro ⟨hsameDigest, hsameVersion⟩
        exact ⟨Option.some.inj (hsameDigest.symm.trans hdigest), hsameVersion.symm.trans hversion⟩
      · rintro ⟨hsameDigest, hsameVersion⟩
        exact ⟨hdigest.trans (congrArg some hsameDigest.symm), hversion.trans hsameVersion.symm⟩
    · cases sourceVersion with
      | none => exact absurd rfl hasked
      | some wanted =>
        simp only [getDocument, hvisible, hasked, Bool.false_eq_true, if_false]
        exact honoursTimes_error_iff.trans (by simp [BoundaryError.failure, RetrievalFailure.code])

end Runs

/-! ### A letter -/

/-- The tables after the letter has been published at time 1. -/
def publishedLetter : Option SourceStateDb :=
  replay (guarded (stateStep sampleHost sampleRequest.documentId) fun _ _ ↦ True) {}
    [.publish (letterPublication 1)]

theorem steps_of_publishedLetter {final : SourceStateDb} (hfinal : publishedLetter = some final) :
    Steps (stateStep sampleHost sampleRequest.documentId) (fun _ _ ↦ True) {} final := by
  have hpossible : publishedLetter.isSome = true := by rw [hfinal, Option.isSome_some]
  have hrun := steps_of_replay hpossible
  rw [← publishedLetter, hfinal] at hrun
  exact hrun

/-- At times after the publication the letter is what its assertions say. -/
theorem honoursTimes_after_publication : ∃ final, publishedLetter = some final ∧
    HonoursTimes sampleHost final sampleRequest.documentId { actDate := 5, knownAt := 5 }
      (documentGet final.toDb (requestAt sampleRequest.documentId { actDate := 5, knownAt := 5 } none)
        { requestNow := 9 }) := by
  have hall : (publishedLetter.any fun final ↦ (toOption (resolvedAssertion final
      sampleRequest.documentId { actDate := 5, knownAt := 5 })).join.any fun row ↦
        lookup SourceState.assertionId row.assertionId final.sourceStates = final.published &&
          final.published.isSome) = true := by
    decide +kernel
  obtain ⟨final, hfinal, hresolved⟩ := (Option.any_eq_true _ _).mp hall
  obtain ⟨row, hrow, hstate⟩ := (Option.any_eq_true _ _).mp hresolved
  rw [Bool.and_eq_true, decide_eq_true_eq] at hstate
  obtain ⟨published, hpublished⟩ := Option.isSome_iff_exists.mp hstate.2
  have hassertion := toOption_eq_some.mp (Option.join_eq_some_iff.mp hrow)
  refine ⟨final, hfinal, (honoursTimes_iff rfl rfl (steps_of_publishedLetter hfinal) _ none
    { requestNow := 9 }).mpr ?_⟩
  simp only [ResolvesToPublished, hpublished, Option.all_none, if_true]
  exact ⟨published, ⟨row, hassertion, hstate.1.trans hpublished⟩, rfl, rfl⟩

/-- At a time before the publication nothing resolves, and the reply is the letter, with that time
beside it. -/
theorem exists_dishonoured_times : ∃ final pair data,
    Steps (stateStep sampleHost sampleRequest.documentId) (fun _ _ ↦ True) {} final ∧
      documentGet final.toDb (requestAt sampleRequest.documentId pair none) { requestNow := 9 } =
        .ok data ∧
      data.times = some pair ∧ resolvedAssertion final sampleRequest.documentId pair = .ok none ∧
      ¬HonoursTimes sampleHost final sampleRequest.documentId pair (.ok data) := by
  have hall : (publishedLetter.any fun final ↦ toOption (resolvedAssertion final
      sampleRequest.documentId { actDate := 0, knownAt := 0 }) = some none &&
        (visibleDocument final.toDb sampleRequest.documentId none).isSome) = true := by
    decide +kernel
  obtain ⟨final, hfinal, hchecked⟩ := (Option.any_eq_true _ _).mp hall
  rw [Bool.and_eq_true, decide_eq_true_eq] at hchecked
  obtain ⟨row, hrow⟩ := Option.isSome_iff_exists.mp hchecked.2
  have hreply := @documentGet_requestAt sampleRequest.documentId final.toDb
    { actDate := 0, knownAt := 0 } none { requestNow := 9 }
  simp only [getDocument, hrow] at hreply
  refine ⟨final, _, _, steps_of_publishedLetter hfinal, hreply, rfl,
    toOption_eq_some.mp hchecked.1, fun hhonours ↦ ?_⟩
  obtain ⟨failure, heq, -⟩ := hhonours.absent (toOption_eq_some.mp hchecked.1)
  cases heq

end DocStore
