import DocStore.Foundation.Transition
import DocStore.Ingestion.PublicationAttempt
import DocStore.Ingestion.RoundTrip

/-!
# Rechunking

`document_chunk` publishes a document again from what is stored. It reads the paragraphs and joins
them with a blank line, takes the digest of the original from the source hash and the file name from
the source name of the document, and publishes the request that it has put together. A call comes
with the output of the chunker and with the faults of its connection.
-/

set_option autoImplicit false
set_option relaxedAutoImplicit false

namespace DocStore

open Foundation

/-! ### The stored source -/

/-- `ORDER BY order_index ASC, id ASC`. -/
def ParagraphRow.before (first second : ParagraphRow) : Bool :=
  first.orderIndex < second.orderIndex ||
    (first.orderIndex = second.orderIndex && first.id.toNat ≤ second.id.toNat)

/-- The paragraphs of a document that are not deleted, in order. -/
def storedParagraphs (db : Db) (documentId : Uuid) : List ParagraphRow :=
  (db.paragraphs.filter fun row ↦
    row.documentId = documentId && row.deletedAt.isNone).insertionSort fun first second ↦
      first.before second = true

/-- The text that the stored paragraphs of a document make. -/
def storedText (db : Db) (documentId : Uuid) : Text :=
  joinTexts (lit "\n\n") (((storedParagraphs db documentId).map fun row ↦ row.text).filter
    fun text ↦ !text.isEmpty)

/-- What `_load_existing_document_source` returns. -/
structure ExistingSource where
  textValue : Text
  sourceVersionId : Text
  filename : Option Text
  contentSha256 : Text

/-- `str(meta.get("source_version_id") or "stored")`. -/
def storedSourceVersionId (host : Host) (blockMeta : Dict) : Text :=
  match (getKey blockMeta "source_version_id").filter truthy with
  | some value => host.strOf value
  | none => lit "stored"

/-- `_load_existing_document_source`. -/
def loadExistingDocumentSource (host : Host) (db : Db) (documentId : Uuid) :
    Except Failure ExistingSource :=
  match db.documents.find? fun row ↦ row.id = documentId && row.deletedAt.isNone with
  | none => .error (.lookup "document does not exist")
  | some document => do
    let textValue := storedText db documentId
    raiseIf textValue.isEmpty (.lookup "document has no stored text")
    return { textValue
             sourceVersionId := storedSourceVersionId host document.blockMeta
             filename := document.sourceName
             contentSha256 := (nonempty document.sourceHash).getD (host.hexdigest textValue) }

/-! ### The call -/

/-- A call of `document_chunk` with what the chunker returns and what goes wrong. -/
structure RechunkCall where
  ids : AttemptIds
  operationId : Uuid
  sourceVersionId : Text
  chunkingStrategy : Text
  paragraphChunks : List RuntimeChunk
  sentenceChunks : List RuntimeChunk
  faults : ℕ → Option (Fault Failure)

/-- The request that `_rechunk_existing` puts together. -/
def rechunkRequest (host : Host) (documentId : Uuid) (call : RechunkCall) (db : Db) :
    Except Failure NormalizedRequest := do
  let source ← loadExistingDocumentSource host db documentId
  let sourceVersionId :=
    if call.sourceVersionId = lit "stored" then source.sourceVersionId else call.sourceVersionId
  return { documentId
           sourceVersionId
           normalizedSourceVersionId := sourceVersionId
           operationId := call.operationId
           command := lit "document_chunk"
           textValue := source.textValue
           filename := source.filename
           contentSha256 := source.contentSha256
           chunkingStrategy := call.chunkingStrategy }

/-- What a publication leaves in the store. -/
def publishIn (host : Host) (ids : AttemptIds) (request : NormalizedRequest)
    (paragraphChunks sentenceChunks : List RuntimeChunk) (faults : ℕ → Option (Fault Failure))
    (store : EvidenceDb) : Except Failure AttemptResult × EvidenceDb :=
  let attempt := publishAttempt host ids request paragraphChunks sentenceChunks
    { committed := store, working := store, faults }
  (attempt.1, attempt.2.committed)

/-- Whether an attempt reports a publication. -/
def isPublished : Except Failure AttemptResult → Bool
  | .ok (.published _ _) => true
  | _ => false

/-- `_rechunk_existing`: the store after a call, whether or not it published. -/
def rechunkExisting (host : Host) (documentId : Uuid) (call : RechunkCall) (store : EvidenceDb) :
    EvidenceDb :=
  match rechunkRequest host documentId call store.toDb with
  | .error _ => store
  | .ok request =>
    (publishIn host call.ids request call.paragraphChunks call.sentenceChunks call.faults store).2

/-- A rechunking as a step. -/
def rechunkStep (host : Host) (documentId : Uuid) (store : EvidenceDb) (call : RechunkCall) :
    Option EvidenceDb :=
  some (rechunkExisting host documentId call store)

/-! ### What a rechunking does -/

section Rechunking

variable {host : Host} {request : NormalizedRequest} {documentId : Uuid} {call : RechunkCall}

/-- A publication leaves the store in one of the ways in which an attempt may end. -/
theorem publishIn_outcome (host : Host) (ids : AttemptIds) (request : NormalizedRequest)
    (paragraphChunks sentenceChunks : List RuntimeChunk) (faults : ℕ → Option (Fault Failure))
    (store : EvidenceDb) :
    let published := publishIn host ids request paragraphChunks sentenceChunks faults store
    ∃ commits, AttemptOutcome host ids request paragraphChunks sentenceChunks store published.1
      published.2 commits := by
  obtain ⟨commits, -, houtcome⟩ := publishAttempt_outcome host ids request paragraphChunks
    sentenceChunks { committed := store, working := store, faults }
  exact ⟨commits, houtcome⟩

/-- A publication that is reported has recorded a match. -/
theorem matching_of_isPublished {ids : AttemptIds} {paragraphChunks sentenceChunks : List RuntimeChunk}
    {faults : ℕ → Option (Fault Failure)} {store : EvidenceDb}
    (hpublished : isPublished
      (publishIn host ids request paragraphChunks sentenceChunks faults store).1 = true) :
    let after := (publishIn host ids request paragraphChunks sentenceChunks faults store).2
    let primarySourceId := resolvePrimarySource host (mapPlan host request) store.toDb
    ∃ paragraphs hierarchy reconstructed,
      writeHierarchy host ids.toPublicationIds (mapPlan host request) primarySourceId paragraphs
        store.toDb = .ok hierarchy ∧
      reconstructedScopeText host hierarchy request.documentId = .ok reconstructed ∧
      recordVerdict host ids.toPublicationIds (mapPlan host request) primarySourceId store.toDb
        hierarchy reconstructed = .ok after.toDb ∧
      after.primarySources =
        (store.resolvePrimarySource host (mapPlan host request)).1.primarySources ∧
      (integrityVerdict request.textValue reconstructed).1 = .matching := by
  intro after primarySourceId
  obtain ⟨commits, houtcome⟩ :=
    publishIn_outcome host ids request paragraphChunks sentenceChunks faults store
  have hnot : ∀ failure, (publishIn host ids request paragraphChunks sentenceChunks faults store).1 ≠
      .error failure := by
    intro failure herror
    rw [herror] at hpublished
    cases hpublished
  cases houtcome with
  | failed _ _ _ herror => exact absurd herror.choose_spec (hnot _)
  | recorded _ hwrite hreconstructed hrecord hsources hresult =>
    refine ⟨_, _, _, hwrite, hreconstructed, hrecord, hsources, ?_⟩
    rcases hresult with hresult | ⟨failure, herror⟩
    · by_contra hnotMatching
      have hmismatch : ¬(integrityVerdict (mapPlan host request).textValue _).1 = .matching :=
        hnotMatching
      rw [hresult, attemptResult, if_neg hmismatch] at hpublished
      cases hpublished
    · exact absurd herror (hnot failure)

/-- What the request of a rechunking takes from the document. -/
theorem rechunkRequest_eq_ok {db : Db}
    (hrequest : rechunkRequest host documentId call db = .ok request) :
    request.documentId = documentId ∧ request.textValue = storedText db documentId ∧
      ∃ document ∈ db.documents, document.id = documentId ∧ document.deletedAt = none ∧
        request.filename = document.sourceName ∧
        request.contentSha256 =
          (nonempty document.sourceHash).getD (host.hexdigest (storedText db documentId)) := by
  obtain ⟨source, hsource, hrequest⟩ := bind_eq_ok.mp hrequest
  cases hrequest
  unfold loadExistingDocumentSource at hsource
  split at hsource
  next => cases hsource
  next document hfound =>
    obtain ⟨-, hsource⟩ := raiseIf_bind_eq_ok.mp hsource
    cases hsource
    have hmatches := List.find?_some hfound
    simp only [Bool.and_eq_true, decide_eq_true_eq, Option.isNone_iff_eq_none] at hmatches
    exact ⟨rfl, rfl, document, List.mem_of_find?_eq_some hfound, hmatches.1, hmatches.2, rfl, rfl⟩

end Rechunking

/-! ### The small document again -/

/-- The paragraphs that are stored for the small document, as one text. -/
def sampleStoredText : Text := lit "Ab c\n\nd"

/-- Its paragraphs, with fresh UUIDs. -/
def rechunkedParagraphs (number : ℕ) : List RuntimeChunk :=
  (toOption (validateRuntimeChunks
    (.items [sampleItem (number + 3) (lit "Ab c") 0 4 0, sampleItem (number + 4) (lit "d") 6 7 1])
    sampleStoredText (sampleUuid 1))).getD []

/-- Its sentences, with fresh UUIDs. -/
def rechunkedSentences (number : ℕ) : List RuntimeChunk :=
  (toOption (sentenceChunksFromParagraphBatch (rechunkedParagraphs number) (sampleUuid 1)
    (.batches [.items [sampleItem (number + 5) (lit "Ab") 0 2 0,
      sampleItem (number + 6) (lit "c") 3 4 1],
      .items [sampleItem (number + 7) (lit "d") 0 1 0]]))).getD []

/-- What comes with the numbered attempt. -/
def sampleAttemptIds (number : ℕ) : AttemptIds :=
  { sampleIds number with spanId := sampleUuid (100 * number + 3) }

/-- The first publication of the small document. -/
def sampleFirst : Except Failure AttemptResult × EvidenceDb :=
  publishIn sampleHost (sampleAttemptIds 10) sampleRequest sampleParagraphChunks
    sampleSentenceChunks (fun _ ↦ none) {}

/-- Its rechunking. -/
def sampleRechunk : RechunkCall where
  ids := sampleAttemptIds 20
  operationId := sampleUuid 9
  sourceVersionId := lit "stored"
  chunkingStrategy := lit "svo"
  paragraphChunks := rechunkedParagraphs 50
  sentenceChunks := rechunkedSentences 50
  faults _ := none

/-- The request of its rechunking. -/
def sampleRechunked : NormalizedRequest :=
  (toOption (rechunkRequest sampleHost sampleRequest.documentId sampleRechunk
    sampleFirst.2.toDb)).getD sampleRequest

/-- A small document whose bytes are its text. -/
def plainRequest : NormalizedRequest :=
  { sampleRequest with
    textValue := sampleStoredText
    contentSha256 := sampleHost.hexdigest sampleStoredText }

/-- Its first publication. -/
def plainFirst : Except Failure AttemptResult × EvidenceDb :=
  publishIn sampleHost (sampleAttemptIds 10) plainRequest (rechunkedParagraphs 30)
    (rechunkedSentences 30) (fun _ ↦ none) {}

/-- The request of its rechunking. -/
def plainRechunked : NormalizedRequest :=
  (toOption (rechunkRequest sampleHost plainRequest.documentId sampleRechunk
    plainFirst.2.toDb)).getD plainRequest

end DocStore
