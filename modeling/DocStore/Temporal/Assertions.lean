import DocStore.Domain.Metadata
import DocStore.Foundation.AppendLog
import DocStore.Foundation.Succession
import Mathlib.Data.List.Sort

/-!
# Temporal assertions

The history of an object is a log of assertions, each accepted for a half-open effective interval
and recorded at the start time of its transaction. A correction never rewrites an assertion: it
appends successors that supersede it. The assertions that nothing supersedes are the accepted ones.

The calls of the service and the append of the ingestion are programs over this log. The payload
callbacks of the service write other tables and are left out.
-/

set_option autoImplicit false
set_option relaxedAutoImplicit false

namespace DocStore

open Foundation

/-! ### Rows -/

/-- `Acceptance`: the provenance recorded with an assertion. -/
structure Acceptance where
  acceptedBy : Option Text := none
  acceptedVia : Option Text := none
  operationId : Option Uuid := none
  comment : Option Text := none
deriving DecidableEq, Repr

/-- A row of `temporal_assertions`. -/
structure Assertion where
  assertionId : Uuid
  objectId : Uuid
  payloadFamily : Text
  assertionKind : AssertionKind
  revisionNo : ℕ
  supersedesAssertionId : Option Uuid
  effective : Interval
  recordedAt : Instant
  acceptance : Acceptance
deriving DecidableEq, Repr

/-- The assertions in the order they were appended. -/
abbrev History := List Assertion

/-- A transaction over the history. -/
abbrev Tx := Program Assertion Uuid Failure

/-- Raises a temporal assertion error. -/
def refuse {α : Type} (error : TemporalAssertionError) : Tx α := .fail (.temporal error)

/-- What a transaction has besides the history: its start time, which is `now()`, and the
`uuid4()` of its next row. -/
structure TxContext where
  now : Instant
  uuid4 : History → Uuid

/-- What the service reads about objects: the kind of a registered object, and the registered
descendants of a list of roots. -/
structure Objects where
  kind : Uuid → Option Text
  descendants : List Uuid → List Uuid

/-! ### Intervals -/

/-- `_before`: `None` on the right is open-ended. -/
def before (left right : Option Instant) : Bool :=
  match left, right with
  | _, none => true
  | none, some _ => false
  | some first, some second => first < second

/-- `_earliest`. -/
def earliest (left right : Option Instant) : Option Instant :=
  match left, right with
  | none, second => second
  | first, none => first
  | some first, some second => some (min first second)

/-- `_Interval.overlaps`. -/
def Interval.overlaps (interval other : Interval) : Bool :=
  before (some interval.start) other.stop && before (some other.start) interval.stop

/-- `_Interval.clipped_to`. -/
def Interval.clippedTo (interval other : Interval) : Option Interval :=
  let start := max interval.start other.start
  let stop := earliest interval.stop other.stop
  if before (some start) stop then some { start, stop } else none

/-- `_contains_interval`. -/
def containsInterval (container contained : Interval) : Bool :=
  container.start ≤ contained.start &&
    match container.stop, contained.stop with
    | none, _ => true
    | some _, none => false
    | some outer, some inner => inner ≤ outer

/-- `_contains_instant`. -/
def containsInstant (container : Interval) (instant : Instant) : Bool :=
  container.start ≤ instant && before (some instant) container.stop

/-- `_interval`: an interval that ends behind its start. -/
def mkInterval (start : Instant) (stop : Option Instant) : Tx Interval :=
  if stop.any fun instant ↦ instant ≤ start then
    refuse (.invalidEffectiveInterval { start, stop })
  else pure { start, stop }

/-! ### Accepted assertions -/

/-- Whether some row supersedes an assertion. -/
def isSuperseded (rows : History) (assertionId : Uuid) : Bool :=
  isSucceeded Assertion.supersedesAssertionId rows assertionId

/-- The assertions that no row supersedes. -/
def acceptedRows (rows : History) : History :=
  liveRows Assertion.assertionId Assertion.supersedesAssertionId rows

/-- `_accepted_payload_rows_in_family`: the accepted assertions of an object and a family, without
the deletions. -/
def acceptedPayloadRowsInFamily (objectId : Uuid) (payloadFamily : Text) (rows : History) :
    History :=
  (acceptedRows rows).filter fun row ↦ row.objectId = objectId &&
    row.payloadFamily = payloadFamily && row.assertionKind ≠ .deletion

/-- The rows that `_guard_unambiguous` looks for: accepted, of the same object and family, not
ignored, and over a part of the interval. -/
def clashes (objectId : Uuid) (payloadFamily : Text) (interval : Interval) (ignore : List Uuid)
    (rows : History) : History :=
  (acceptedRows rows).filter fun row ↦ row.objectId = objectId &&
    row.payloadFamily = payloadFamily && !ignore.contains row.assertionId &&
    row.effective.overlaps interval

/-- `COALESCE(MAX(revision_no), 0) + 1` over the rows of an object. -/
def nextRevision (objectId : Uuid) (rows : History) : ℕ :=
  ((rows.filter fun row ↦ row.objectId = objectId).map Assertion.revisionNo).foldl max 0 + 1

/-! ### The statements of the service -/

section Service

variable (objects : Objects) (context : TxContext)

/-- `_guard_unambiguous`. -/
def guardUnambiguous (objectId : Uuid) (payloadFamily : Text) (interval : Interval)
    (ignore : List Uuid) : Tx Unit := do
  let rows ← Program.select
  match clashes objectId payloadFamily interval ignore rows with
  | [] => pure ()
  | clash :: _ => refuse (.ambiguousEffectiveInterval objectId payloadFamily [clash.assertionId]
      (some interval))

/-- The row that an insertion writes, under a UUID that no visible row has and with an interval that
ends behind its start. -/
def newAssertion (objectId : Uuid) (payloadFamily : Text) (assertionKind : AssertionKind)
    (interval : Interval) (supersedes : Option Uuid) (acceptance : Acceptance) (rows : History) :
    Except Failure Assertion := do
  let assertionId := context.uuid4 rows
  raiseIf (rows.any fun row ↦ row.assertionId = assertionId) (.integrity "pk_temporal_assertions")
  raiseIf (interval.stop.any fun instant ↦ instant ≤ interval.start)
    (.integrity "ck_temporal_assertions_effective_interval_half_open")
  return { assertionId, objectId, payloadFamily, assertionKind
           revisionNo := nextRevision objectId rows
           supersedesAssertionId := supersedes
           effective := interval
           recordedAt := context.now
           acceptance }

/-- `_append`. -/
def append (objectId : Uuid) (payloadFamily : Text) (assertionKind : AssertionKind)
    (interval : Interval) (supersedes : Option Uuid) (acceptance : Acceptance)
    (ignore : List Uuid) : Tx Assertion := do
  guardUnambiguous objectId payloadFamily interval ignore
  Program.insert
    (newAssertion context objectId payloadFamily assertionKind interval supersedes acceptance)

/-- `_locked_object`: the kind of a registered object, whose registry row is locked. -/
def lockedObject (objectId : Uuid) : Tx Text := do
  match objects.kind objectId with
  | none => refuse (.objectNotRegistered objectId)
  | some kind => do
    Program.acquire objectId
    return kind

/-- The second statement of `_acceptable_prior`, which reads a successor of the assertion. -/
def checkSuccessor (assertionId : Uuid) (prior : Assertion) : Tx Assertion := do
  let rows ← Program.select
  match rows.find? fun row ↦ row.supersedesAssertionId = some assertionId with
  | some successor => refuse (.assertionAlreadySuperseded assertionId successor.assertionId)
  | none => pure prior

/-- `_acceptable_prior`: two statements, one for the row and one for a successor of it. -/
def acceptablePrior (assertionId : Uuid) : Tx Assertion := do
  let rows ← Program.select
  match rows.find? fun row ↦ row.assertionId = assertionId with
  | none => refuse (.assertionNotFound assertionId)
  | some prior => checkSuccessor assertionId prior

/-- `_payload_family`. -/
def payloadFamilyOf (payloadFamily : Option Text) (kind : Text) : Tx Text :=
  match payloadFamily with
  | none => pure kind
  | some family =>
    if (strip family).isEmpty || 64 < (strip family).length then
      .fail (.value "payload_family must be a non-empty string of at most 64 characters")
    else pure (strip family)

/-- The non-empty segments that replace an interval over a window inside it: left copy, corrected
part and right copy, each with its kind. -/
def splitSegments (original corrected : Interval) (priorKind correctedKind : AssertionKind) :
    List (Interval × AssertionKind) :=
  (if original.start < corrected.start then
    [({ start := original.start, stop := some corrected.start }, priorKind)] else []) ++
  [(corrected, correctedKind)] ++
  match corrected.stop with
  | none => []
  | some stop =>
    if before (some stop) original.stop then
      [({ start := stop, stop := original.stop }, priorKind)] else []

/-- Appends segments that supersede an assertion, one behind the other. -/
def appendSegments (prior : Assertion) (acceptance : Acceptance) :
    List (Interval × AssertionKind) → Tx Unit
  | [] => pure ()
  | (interval, kind) :: segments => do
    let _ ← append context prior.objectId prior.payloadFamily kind interval
      (some prior.assertionId) acceptance [prior.assertionId]
    appendSegments prior acceptance segments

/-- `_split`. -/
def split (prior : Assertion) (window : Interval) (correctedKind : AssertionKind)
    (acceptance : Acceptance) : Tx Unit :=
  match window.clippedTo prior.effective with
  | none => refuse (.disjointReplacementWindow prior.assertionId window)
  | some corrected =>
    appendSegments context prior acceptance
      (splitSegments prior.effective corrected prior.assertionKind correctedKind)

/-! ### The calls of the service -/

/-- `create_assertion`. -/
def createAssertion (objectId : Uuid) (effectiveFrom : Instant) (effectiveUntil : Option Instant)
    (payloadFamily : Option Text) (assertionKind : AssertionKind) (acceptance : Acceptance) :
    Tx Unit := do
  let interval ← mkInterval effectiveFrom effectiveUntil
  let kind ← lockedObject objects objectId
  let family ← payloadFamilyOf payloadFamily kind
  let _ ← append context objectId family assertionKind interval none acceptance []

/-- `supersede_assertion`. Without a start or an end the successor takes the prior's; an end of
`some none` opens the interval. -/
def supersedeAssertion (assertionId : Uuid) (effectiveFrom : Option Instant)
    (effectiveUntil : Option (Option Instant)) (assertionKind : AssertionKind)
    (acceptance : Acceptance) : Tx Unit := do
  let prior ← acceptablePrior assertionId
  let _ ← lockedObject objects prior.objectId
  let interval ← mkInterval (effectiveFrom.getD prior.effective.start)
    (effectiveUntil.getD prior.effective.stop)
  let _ ← append context prior.objectId prior.payloadFamily assertionKind interval
    (some assertionId) acceptance [assertionId]

/-- `close_interval`. -/
def closeInterval (assertionId : Uuid) (effectiveUntil : Instant) (acceptance : Acceptance) :
    Tx Unit :=
  supersedeAssertion objects context assertionId none (some (some effectiveUntil))
    .intervalBoundary acceptance

/-- `replace_interval`. -/
def replaceInterval (assertionId : Uuid) (effectiveFrom : Instant)
    (effectiveUntil : Option Instant) (acceptance : Acceptance) : Tx Unit := do
  let window ← mkInterval effectiveFrom effectiveUntil
  let prior ← acceptablePrior assertionId
  let _ ← lockedObject objects prior.objectId
  split context prior window .supersession acceptance

/-- `_accepted_in_family`. -/
def acceptedInFamily (objectId : Uuid) (payloadFamily : Text) : Tx (Option Assertion) := do
  let rows ← Program.select
  match acceptedPayloadRowsInFamily objectId payloadFamily rows with
  | [] => pure none
  | [row] => pure (some row)
  | several => refuse (.ambiguousEffectiveInterval objectId payloadFamily
      (several.map Assertion.assertionId) none)

/-- `_accepted_in_family_for_window`. -/
def acceptedInFamilyForWindow (objectId : Uuid) (payloadFamily : Text) (window : Interval) :
    Tx (Option Assertion) := do
  let rows ← Program.select
  let accepted := acceptedPayloadRowsInFamily objectId payloadFamily rows
  if accepted.isEmpty then pure none
  else
    match accepted.filter fun row ↦ row.effective.overlaps window with
    | [prior] =>
      if containsInterval prior.effective window then pure (some prior)
      else refuse (.disjointReplacementWindow prior.assertionId window)
    | overlapping => refuse (.ambiguousEffectiveInterval objectId payloadFamily
        (overlapping.map Assertion.assertionId) (some window))

/-- `_accepted_in_family_for_instant`. -/
def acceptedInFamilyForInstant (objectId : Uuid) (payloadFamily : Text) (instant : Instant) :
    Tx (Option Assertion) := do
  let rows ← Program.select
  let accepted := acceptedPayloadRowsInFamily objectId payloadFamily rows
  if accepted.isEmpty then pure none
  else
    match accepted.filter fun row ↦ containsInstant row.effective instant with
    | [prior] => pure (some prior)
    | containing => refuse (.ambiguousEffectiveInterval objectId payloadFamily
        (containing.map Assertion.assertionId) (some { start := instant, stop := none }))

/-- The accepted assertion that a deletion corrects. -/
def deletionPrior (objectId : Uuid) (payloadFamily : Text) (effectiveFrom : Option Instant)
    (effectiveUntil : Option (Option Instant)) : Tx (Option Assertion) :=
  match effectiveFrom, effectiveUntil with
  | some start, some stop => do
    let window ← mkInterval start stop
    acceptedInFamilyForWindow objectId payloadFamily window
  | some start, none => acceptedInFamilyForInstant objectId payloadFamily start
  | none, _ => acceptedInFamily objectId payloadFamily

/-- `_delete_one`. -/
def deleteOne (objectId : Uuid) (kind : Text) (effectiveFrom : Option Instant)
    (effectiveUntil : Option (Option Instant)) (payloadFamily : Option Text)
    (acceptance : Acceptance) : Tx Unit := do
  let family ← payloadFamilyOf payloadFamily kind
  match ← deletionPrior objectId family effectiveFrom effectiveUntil with
  | none => do
    let interval ← mkInterval (effectiveFrom.getD context.now) (effectiveUntil.getD none)
    let _ ← append context objectId family .deletion interval none acceptance []
  | some prior => do
    let window ← mkInterval (effectiveFrom.getD prior.effective.start)
      (effectiveUntil.getD prior.effective.stop)
    split context prior window .deletion acceptance

/-- Locks objects one behind the other and returns each with its kind. -/
def lockedObjects : List Uuid → Tx (List (Uuid × Text))
  | [] => pure []
  | objectId :: objectIds => do
    let kind ← lockedObject objects objectId
    let rest ← lockedObjects objectIds
    return (objectId, kind) :: rest

/-- Deletes objects one behind the other. -/
def deleteAll (effectiveFrom : Option Instant) (effectiveUntil : Option (Option Instant))
    (payloadFamily : Option Text) (acceptance : Acceptance) : List (Uuid × Text) → Tx Unit
  | [] => pure ()
  | (objectId, kind) :: targets => do
    deleteOne context objectId kind effectiveFrom effectiveUntil payloadFamily acceptance
    deleteAll effectiveFrom effectiveUntil payloadFamily acceptance targets

/-- `soft_delete`: the roots and, on request, their descendants, deleted in the order of their
UUIDs. -/
def softDelete (objectIds : List Uuid) (includeDescendants : Bool)
    (effectiveFrom : Option Instant) (effectiveUntil : Option (Option Instant))
    (payloadFamily : Option Text) (acceptance : Acceptance) : Tx Unit := do
  let roots := objectIds.eraseDups
  let descendants :=
    if includeDescendants then
      (objects.descendants roots).eraseDups.filter fun objectId ↦ !roots.contains objectId
    else []
  let targets ← lockedObjects objects (roots ++ descendants)
  deleteAll context effectiveFrom effectiveUntil payloadFamily acceptance
    (targets.insertionSort fun first second ↦ first.1.toNat ≤ second.1.toNat)

/-- `restore`. -/
def restore (deletionAssertionId : Uuid) (acceptance : Acceptance) : Tx Unit := do
  let deletion ← acceptablePrior deletionAssertionId
  if deletion.assertionKind ≠ .deletion then
    refuse (.notADeletionAssertion deletionAssertionId deletion.assertionKind)
  else do
    let _ ← lockedObject objects deletion.objectId
    let _ ← append context deletion.objectId deletion.payloadFamily .restoration
      deletion.effective (some deletionAssertionId) acceptance [deletionAssertionId]

/-! ### The append of the ingestion -/

/-- The family of the states that the ingestion appends. -/
def sourceStatePayloadFamily : Text := lit "source_state"

/-- The accepted source state with the highest revision. -/
def latestSourceState (documentId : Uuid) (rows : History) : Option Assertion :=
  (acceptedPayloadRowsInFamily documentId sourceStatePayloadFamily rows).foldl
    (fun latest row ↦
      match latest with
      | none => some row
      | some other => if other.revisionNo < row.revisionNo then some row else some other) none

/-- `_append_source_state`: an open-ended state from now on that supersedes the latest one. -/
def appendSourceState (documentId : Uuid) (acceptance : Acceptance) : Tx Assertion := do
  match objects.kind documentId with
  | none => .fail (.value
      ("document " ++ String.ofList (uuidText documentId) ++ " is not a registered object"))
  | some _ => do
    Program.acquire documentId
    let rows ← Program.select
    let prior := latestSourceState documentId rows
    Program.insert (newAssertion context documentId sourceStatePayloadFamily
      (if prior.isNone then .payload else .supersession) { start := context.now, stop := none }
      (prior.map Assertion.assertionId) acceptance)

end Service

/-! ### Writers -/

/-- A call of the service. -/
inductive Call where
  | create (objectId : Uuid) (effectiveFrom : Instant) (effectiveUntil : Option Instant)
      (payloadFamily : Option Text) (assertionKind : AssertionKind) (acceptance : Acceptance)
  | supersede (assertionId : Uuid) (effectiveFrom : Option Instant)
      (effectiveUntil : Option (Option Instant)) (assertionKind : AssertionKind)
      (acceptance : Acceptance)
  | close (assertionId : Uuid) (effectiveUntil : Instant) (acceptance : Acceptance)
  | replace (assertionId : Uuid) (effectiveFrom : Instant) (effectiveUntil : Option Instant)
      (acceptance : Acceptance)
  | softDelete (objectIds : List Uuid) (includeDescendants : Bool) (effectiveFrom : Option Instant)
      (effectiveUntil : Option (Option Instant)) (payloadFamily : Option Text)
      (acceptance : Acceptance)
  | restore (deletionAssertionId : Uuid) (acceptance : Acceptance)

/-- The program of a call. -/
def Call.program (objects : Objects) (context : TxContext) : Call → Tx Unit
  | create objectId effectiveFrom effectiveUntil payloadFamily assertionKind acceptance =>
    createAssertion objects context objectId effectiveFrom effectiveUntil payloadFamily
      assertionKind acceptance
  | supersede assertionId effectiveFrom effectiveUntil assertionKind acceptance =>
    supersedeAssertion objects context assertionId effectiveFrom effectiveUntil assertionKind
      acceptance
  | close assertionId effectiveUntil acceptance =>
    closeInterval objects context assertionId effectiveUntil acceptance
  | replace assertionId effectiveFrom effectiveUntil acceptance =>
    replaceInterval objects context assertionId effectiveFrom effectiveUntil acceptance
  | softDelete objectIds includeDescendants effectiveFrom effectiveUntil payloadFamily acceptance =>
    DocStore.softDelete objects context objectIds includeDescendants effectiveFrom effectiveUntil
      payloadFamily acceptance
  | restore deletionAssertionId acceptance =>
    DocStore.restore objects context deletionAssertionId acceptance

/-- A writer of histories: a call of the service, or the append of the ingestion. -/
inductive Writer where
  | service (call : Call)
  | ingestion (documentId : Uuid) (acceptance : Acceptance)

/-- The program of a writer. -/
def Writer.program (objects : Objects) (context : TxContext) : Writer → Tx Unit
  | service call => call.program objects context
  | ingestion documentId acceptance => do
    let _ ← appendSourceState objects context documentId acceptance

/-- A transaction of a writer. -/
structure Write where
  objects : Objects
  context : TxContext
  writer : Writer

/-- The history that a transaction commits, when it does not fail. -/
def commit (history : History) (write : Write) : Option History :=
  (toOption ((write.writer.program write.objects write.context).run history)).map Prod.snd

end DocStore
