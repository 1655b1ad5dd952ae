import DocStore.Foundation.Exceptions
import DocStore.Ingestion.Publication

/-!
# Source normalization

`normalize_source` takes exactly one source, reads its bytes, lets the one filter that fits decode
them and names the request. A source that does not fit is rejected with a diagnostic. An exception
of a filter or of the adapter's transfer store becomes a diagnostic as well; one that is raised where
a text is encoded does not, and `normalizeSource_returns_iff` says when there is none.

A string that comes with a request may hold surrogates that are not paired, and has no encoding then.
Digests, `mimetypes.guess_type` and `uuid5` come with the surroundings.
-/

set_option autoImplicit false
set_option relaxedAutoImplicit false

namespace DocStore

open Foundation

/-! ### Strings of a request -/

/-- A code point of a Python string. -/
inductive CodePoint where
  | scalar (character : Char)
  | surrogate (offset : Fin 2048)
deriving DecidableEq, Repr

/-- A string that need not have an encoding. -/
abbrev SourceText := List CodePoint

/-- A string without surrogates. -/
def sourceText (text : Text) : SourceText := text.map .scalar

def CodePoint.isSpace : CodePoint → Bool
  | scalar character => DocStore.isSpace character
  | surrogate _ => false

/-- `str.lower`, as far as the result is an ASCII character. -/
def CodePoint.lower : CodePoint → CodePoint
  | scalar character =>
    .scalar (if character.toNat = 0x212A then 'k' else character.toLower)
  | surrogate offset => .surrogate offset

/-- `str.strip` leaves something. -/
def SourceText.isBlank (text : SourceText) : Bool := text.all CodePoint.isSpace

/-- A string without surrogates, as a text. -/
def SourceText.scalars : SourceText → Option Text
  | [] => some []
  | .scalar character :: rest => (scalars rest).map (character :: ·)
  | .surrogate _ :: _ => none

/-- A string has an encoding. -/
def SourceText.Encodable (text : SourceText) : Prop := ∀ offset, CodePoint.surrogate offset ∉ text

theorem scalars_isSome_iff {text : SourceText} : text.scalars.isSome ↔ text.Encodable := by
  induction text with
  | nil => simp [SourceText.scalars, SourceText.Encodable]
  | cons point rest ih =>
    cases point with
    | scalar character =>
      simpa [SourceText.scalars, SourceText.Encodable] using ih
    | surrogate offset =>
      simp only [SourceText.scalars, Option.isSome_none, Bool.false_eq_true, false_iff]
      exact fun hencodable ↦ hencodable offset (List.mem_cons_self ..)

/-- `bytes.decode("utf-8")`. -/
def decodeUtf8 (payload : List UInt8) : Option Text :=
  (ByteArray.mk payload.toArray).utf8Decode?.map Array.toList

/-! ### Exceptions -/

/-- The classes of exceptions that are told apart. -/
inductive ExceptionClass where
  | baseException
  | exception
  | valueError
  | osError
  | sqlAlchemyError
  | chunkerError
  | publicationRolledBack
  | integrityRefused
  | other (name : Text)
deriving DecidableEq, Repr

/-- A value in the context of a failure. -/
inductive Detail where
  | json (value : Json)
  | text (value : SourceText)
  | texts (values : List SourceText)

/-- A failure as it is recorded: `type` is there for an exception without a code of its own. -/
structure FailureRecord where
  code : Text
  message : Text
  context : List (String × Detail) := []
  type : Option Text := none

/-- An exception: its classes, its own first, and the record that it carries, with an empty code for
one that has none of its own. -/
structure Raised where
  classes : List ExceptionClass
  record : FailureRecord

/-- `isinstance`. -/
def Raised.isInstance (raised : Raised) (name : ExceptionClass) : Bool :=
  decide (name ∈ raised.classes)

/-- `__name__` of a class. -/
def ExceptionClass.name : ExceptionClass → Text
  | baseException => lit "BaseException"
  | exception => lit "Exception"
  | valueError => lit "ValueError"
  | osError => lit "OSError"
  | sqlAlchemyError => lit "SQLAlchemyError"
  | chunkerError => lit "ChunkerError"
  | publicationRolledBack => lit "_PublicationRolledBack"
  | integrityRefused => lit "IntegrityRefused"
  | other name => name

/-- `type(exc).__name__` of an exception. -/
def Raised.typeName (raised : Raised) : Text := (raised.classes.head?.map ExceptionClass.name).getD []

/-- A subclass of `ValueError`, with its message. -/
def valueErrorNamed (name message : Text) : Raised where
  classes := [.other name, .valueError, .exception, .baseException]
  record := { code := [], message }

/-- `ValueError` itself. -/
def valueErrorOf (message : Text) : Raised where
  classes := [.valueError, .exception, .baseException]
  record := { code := [], message }

def unicodeEncodeError : Raised :=
  valueErrorNamed (lit "UnicodeEncodeError") (lit "surrogates not allowed")

def unicodeDecodeError : Raised :=
  valueErrorNamed (lit "UnicodeDecodeError") (lit "invalid start byte")

/-- `str.encode("utf-8")`, as the text that is encoded. -/
def encoded (text : SourceText) : Except Raised Text :=
  match text.scalars with
  | some scalars => .ok scalars
  | none => .error unicodeEncodeError

theorem encoded_returns_iff {text : SourceText} :
    (∃ scalars, encoded text = .ok scalars) ↔ text.Encodable := by
  rw [← scalars_isSome_iff, encoded]
  cases text.scalars with
  | none => simp
  | some scalars => simp

/-! ### UUIDs -/

/-- `UUID(text)` of a string that may have surrogates. -/
def SourceText.uuid (text : SourceText) : Option Uuid := text.scalars.bind parseUuid

/-- `UUID(text)` raises a `ValueError`. -/
def uuidOf (text : SourceText) : Except Raised Uuid :=
  match text.uuid with
  | some id => .ok id
  | none => .error (valueErrorOf (lit "badly formed hexadecimal UUID string"))

/-! ### Sources -/

/-- `DEFAULT_MAX_SOURCE_BYTES`. -/
def defaultMaxSourceBytes : ℤ := 16 * 1024 * 1024

/-- `DEFAULT_PRESET`. -/
def defaultPreset : Text := lit "technical_text"

/-- `NormalizationDiagnostic`. -/
structure NormalizationDiagnostic where
  code : Text
  message : Text
  context : List (String × Detail) := []

/-- A value, or the diagnostic that stands in its place. -/
abbrev Diagnosed (α : Type) := Except NormalizationDiagnostic α

/-- `kind` of a source. -/
inductive SourceKind where
  | rawText
  | transferredFile
deriving DecidableEq, Repr

/-- `SourceMetadata`. -/
structure SourceMetadata where
  kind : SourceKind
  filename : Option SourceText
  mediaType : Option SourceText
  byteLength : ℕ
  contentSha256 : Text

/-- `FormatFilter`. -/
structure FormatFilter where
  name : Text
  mediaTypes : List Text := []
  extensions : List Text := []
  apply : Option (List UInt8 → SourceMetadata → Except Raised Text) := none

/-- `FormatFilter.filter`. -/
def FormatFilter.filter (formatFilter : FormatFilter) (payload : List UInt8)
    (metadata : SourceMetadata) : Except Raised Text :=
  match formatFilter.apply with
  | some apply => apply payload metadata
  | none => (decodeUtf8 payload).elim (.error unicodeDecodeError) .ok

/-- `TEXT_FILTER`. -/
def textFilter : FormatFilter where
  name := lit "plain_text"
  mediaTypes := [lit "text/plain"]
  extensions := [lit ".txt", lit ".text", lit ".md", lit ".markdown"]

/-- What a request may hold about a file, besides its bytes a text or something that is neither. -/
inductive TransferValue where
  | null
  | bytes (content : List UInt8)
  | text (content : SourceText)
  | other (typeName : Text) (truthy : Bool)

/-- `bool(value)`. -/
def TransferValue.truthy : TransferValue → Bool
  | null => false
  | bytes content => !content.isEmpty
  | text content => !content.isEmpty
  | other _ truthy => truthy

/-- `first or second`. -/
def TransferValue.or (first second : TransferValue) : TransferValue :=
  if first.truthy then first else second

/-- `type(value).__name__`. -/
def TransferValue.typeName : TransferValue → Text
  | null => lit "NoneType"
  | bytes _ => lit "bytes"
  | text _ => lit "str"
  | other typeName _ => typeName

/-- `_optional_str`. -/
def TransferValue.optionalStr : TransferValue → Option SourceText
  | text content => if content.isEmpty then none else some content
  | _ => none

/-- A transferred file: a mapping, or an object with a method `read`. -/
inductive TransferredFile where
  | mapping (fields : List (String × TransferValue))
  | descriptor (read : Except Raised TransferValue) (filename mediaType : TransferValue)

/-- `fields.get(key)`. -/
def transferValue (fields : List (String × TransferValue)) (key : String) : TransferValue :=
  (getKey fields key).getD .null

/-- A session of the adapter's transfer store. -/
structure TransferSession where
  direction : Option Text
  status : Option Text
  storagePath : Text
  compression : Text
  filename : TransferValue

/-- What normalization takes from its surroundings. -/
structure NormalizerSurroundings where
  /-- `hashlib.sha256(payload).hexdigest()`. -/
  digest : List UInt8 → Text
  /-- `uuid5(NAMESPACE_URL, name)`. -/
  uuid5 : Text → Uuid
  /-- `_guess_media_type` of a file name. -/
  guessMediaType : SourceText → Option SourceText
  /-- `_adapter_transfer_store().get_session(transfer_id)`. -/
  transferSession : SourceText → Except Raised TransferSession
  /-- `Path.is_file`. -/
  isFile : Text → Except Raised Bool
  /-- `Path.read_bytes`. -/
  readBytes : Text → Except Raised (List UInt8)
  /-- `gzip.open(path, "rb").read()`. -/
  readGzip : Text → Except Raised (List UInt8)

/-- The bytes of a source with its name and its media type. -/
structure SourcePayload where
  content : List UInt8
  filename : Option SourceText
  mediaType : Option SourceText

/-- The arguments of `normalize_source` that the ingestion boundary leaves at their defaults. -/
structure NormalizerOptions where
  trustedFormatHint : Option Text := none
  mediaType : Option SourceText := none
  filename : Option SourceText := none
  normalizationProfile : Text := lit "default"
  chunkPreset : Option Text := none
  filters : List (Text × FormatFilter) := []
  maxSourceBytes : ℤ := defaultMaxSourceBytes

/-- `filters or {"plain_text": TEXT_FILTER}`. -/
def NormalizerOptions.filterMap (options : NormalizerOptions) : List (Text × FormatFilter) :=
  if options.filters.isEmpty then [(lit "plain_text", textFilter)] else options.filters

/-- `NormalizedIngestionRequest`. -/
structure NormalizedIngestionRequest where
  documentId : Uuid
  sourceVersionId : Text
  text : Text
  sourceMetadata : SourceMetadata
  selectedFilter : Text
  normalizationProfile : Text
  chunkPreset : Text

/-! ### Reading a source -/

section Normalizing

variable (surroundings : NormalizerSurroundings)

/-- The bytes of a payload. -/
def payloadBytes (payload : TransferValue) (filename mediaType : Option SourceText) :
    Except Raised (Diagnosed SourcePayload) :=
  match payload with
  | .text content => do
    let scalars ← encoded content
    return .ok { content := encodeUtf8 scalars, filename, mediaType }
  | .bytes content => .ok (.ok { content, filename, mediaType })
  | value => .ok (.error
      { code := lit "INVALID_TRANSFER_PAYLOAD"
        message := lit "transferred file payload must be bytes or text"
        context := [("payload_type", .json (.str value.typeName))] })

/-- The body of the `try` in `_read_adapter_transfer_reference`: the session and its content. -/
def transferContent (transferId : SourceText) :
    Except Raised (Diagnosed (TransferSession × List UInt8)) := do
  let session ← surroundings.transferSession transferId
  if session.direction ≠ some (lit "upload") then
    return .error
      { code := lit "INVALID_TRANSFER_REFERENCE"
        message := lit "adapter transfer reference must point to an upload session"
        context := [("transfer_id", .text transferId)] }
  if session.status ≠ some (lit "uploaded") then
    return .error
      { code := lit "INCOMPLETE_TRANSFER"
        message := lit "adapter transfer is not complete"
        context := [("transfer_id", .text transferId),
          ("status", .json (session.status.elim .null .str))] }
  let isFile ← surroundings.isFile session.storagePath
  if isFile = false then
    return .error
      { code := lit "TRANSFER_PAYLOAD_UNAVAILABLE"
        message := lit "adapter transfer payload is not available on the server"
        context := [("transfer_id", .text transferId)] }
  if session.compression = lit "gzip" then
    return .ok (session, ← surroundings.readGzip session.storagePath)
  if session.compression = lit "identity" then
    return .ok (session, ← surroundings.readBytes session.storagePath)
  return .error
    { code := lit "UNSUPPORTED_TRANSFER_COMPRESSION"
      message := lit "adapter transfer compression is not supported"
      context := [("transfer_id", .text transferId),
        ("compression", .json (.str session.compression))] }

/-- `_read_adapter_transfer_reference` of a transfer id. -/
def readAdapterTransferReference (transferId : SourceText)
    (filename mediaType : Option SourceText) : Except Raised (Diagnosed SourcePayload) :=
  match transferContent surroundings transferId with
  | .ok outcome => .ok (outcome.map fun (session, content) ↦
      { content, filename := filename.or session.filename.optionalStr, mediaType })
  | .error raised =>
    if raised.isInstance .exception then
      .ok (.error
        { code := lit "TRANSFER_REFERENCE_FAILED"
          message := lit "adapter transfer reference could not be resolved"
          context := [("transfer_id", .text transferId),
            ("error_type", .json (.str raised.typeName)),
            ("message", .json (.str raised.record.message))] })
    else .error raised

/-- The payload of a mapping. -/
def mappedPayload (fields : List (String × TransferValue)) : TransferValue :=
  (getKey fields "content").getD (transferValue fields "data")

/-- `_read_transferred_file`. -/
def readTransferredFile : TransferredFile → Except Raised (Diagnosed SourcePayload)
  | .mapping fields =>
    let payload := mappedPayload fields
    let filename :=
      ((transferValue fields "filename").or (transferValue fields "name")).optionalStr
    let mediaType :=
      ((transferValue fields "media_type").or (transferValue fields "content_type")).optionalStr
    match payload, (transferValue fields "transfer_id").optionalStr with
    | .null, some transferId =>
      readAdapterTransferReference surroundings transferId filename mediaType
    | _, _ => payloadBytes payload filename mediaType
  | .descriptor read filename mediaType => do
    let payload ← read
    payloadBytes payload filename.optionalStr mediaType.optionalStr

/-- What stands in front of an `or`: a text that is not empty. -/
def givenText (text : Option SourceText) : Option SourceText :=
  text.filter fun points ↦ !points.isEmpty

/-- `INVALID_LIMIT`, or what follows. -/
def NormalizerOptions.limited {α : Type} (options : NormalizerOptions)
    (outcome : Except Raised (Diagnosed α)) : Except Raised (Diagnosed α) :=
  if options.maxSourceBytes ≤ 0 then
    .ok (.error
      { code := lit "INVALID_LIMIT", message := lit "max_source_bytes must be positive" })
  else outcome

/-- The source of a request with its metadata, before its content is looked at. -/
def readSource (options : NormalizerOptions) :
    Option SourceText → Option TransferredFile →
      Except Raised (Diagnosed (List UInt8 × SourceMetadata))
  | some rawText, none => options.limited do
    let scalars ← encoded rawText
    let content := encodeUtf8 scalars
    return .ok (content,
      { kind := .rawText
        filename := options.filename
        mediaType := (givenText options.mediaType).or (some (sourceText (lit "text/plain")))
        byteLength := content.length
        contentSha256 := surroundings.digest content })
  | none, some transferredFile => options.limited do
    let outcome ← readTransferredFile surroundings transferredFile
    return outcome.map fun payload ↦
      let filename := (givenText options.filename).or payload.filename
      (payload.content,
        { kind := .transferredFile
          filename
          mediaType := ((givenText options.mediaType).or payload.mediaType).or
            (filename.bind surroundings.guessMediaType)
          byteLength := payload.content.length
          contentSha256 := surroundings.digest payload.content })
  | rawText, transferredFile =>
    .ok (.error
      { code := lit "INVALID_SOURCE_COUNT"
        message := lit "provide exactly one of raw_text or transferred_file"
        context := [("raw_text", .json (.bool rawText.isSome)),
          ("transferred_file", .json (.bool transferredFile.isSome))] })

/-! ### Filters -/

/-- The part of a file name from its last full stop on, in lower case. -/
def fileExtension (filename : SourceText) : Option SourceText :=
  if CodePoint.scalar '.' ∈ filename then
    some (CodePoint.scalar '.' ::
      ((filename.splitOn (.scalar '.')).getLastD []).map CodePoint.lower)
  else none

/-- `_filters_for_media`. -/
def filtersForMedia (filters : List (Text × FormatFilter)) (mediaType : Option SourceText) :
    List FormatFilter :=
  match mediaType with
  | some mediaType => (filters.map Prod.snd).filter fun item ↦
      mediaType.map CodePoint.lower ∈ item.mediaTypes.map sourceText
  | none => []

/-- `_filters_for_extension`. -/
def filtersForExtension (filters : List (Text × FormatFilter)) (filename : Option SourceText) :
    List FormatFilter :=
  match filename.bind fileExtension with
  | some extension => (filters.map Prod.snd).filter fun item ↦
      extension ∈ item.extensions.map sourceText
  | none => []

/-- A text in the context of a diagnostic, if there is one. -/
def optionalDetail (value : Option SourceText) : Detail := value.elim (.json .null) .text

/-- The filter that is hinted at. -/
def hintedFilter (filters : List (Text × FormatFilter)) (trustedFormatHint : Option Text) :
    Diagnosed (Option FormatFilter) :=
  match nonempty trustedFormatHint with
  | none => .ok none
  | some hint =>
    match getKey filters hint with
    | some item => .ok (some item)
    | none => .error
        { code := lit "UNSUPPORTED_FORMAT_HINT"
          message := lit "trusted format hint is not supported"
          context := [("hint", .text (sourceText hint)),
            ("supported", .texts ((sortedSet (filters.map Prod.fst)).map sourceText))] }

/-- The candidate, when all of them are one filter. -/
def soleCandidate (candidates : List FormatFilter) (mediaType filename : Option SourceText) :
    Diagnosed FormatFilter :=
  let names := sortedSet (candidates.map fun item ↦ item.name)
  match candidates with
  | [] => .error
      { code := lit "UNSUPPORTED_SOURCE_FORMAT"
        message := lit "no supported format filter matched source metadata"
        context := [("media_type", optionalDetail mediaType),
          ("filename", optionalDetail filename)] }
  | first :: _ =>
    if 1 < names.length then .error
      { code := lit "CONFLICTING_FORMAT_FILTERS"
        message := lit "source metadata selects conflicting format filters"
        context := [("filters", .texts (names.map sourceText))] }
    else .ok first

/-- `_select_filter`. -/
def selectFilter (filters : List (Text × FormatFilter)) (trustedFormatHint : Option Text)
    (mediaType filename : Option SourceText) : Diagnosed FormatFilter := do
  let hinted ← hintedFilter filters trustedFormatHint
  soleCandidate (hinted.toList ++ filtersForMedia filters mediaType ++
    filtersForExtension filters filename) mediaType filename

/-! ### Normalization -/

/-- A source whose content is looked at and decoded, with the name of its filter. -/
def filterSource (options : NormalizerOptions) (content : List UInt8) (metadata : SourceMetadata) :
    Except Raised (Diagnosed (Text × Text)) :=
  if content.isEmpty then
    .ok (.error { code := lit "EMPTY_SOURCE", message := lit "source content is empty" })
  else if options.maxSourceBytes < content.length then
    .ok (.error
      { code := lit "SOURCE_TOO_LARGE"
        message := lit "source content exceeds max_source_bytes"
        context := [("byte_length", .json (.num content.length)),
          ("max_source_bytes", .json (.num options.maxSourceBytes))] })
  else
    match selectFilter options.filterMap options.trustedFormatHint metadata.mediaType
        metadata.filename with
    | .error diagnostic => .ok (.error diagnostic)
    | .ok selected =>
      match selected.filter content metadata with
      | .ok text =>
        if (strip text).isEmpty then
          .ok (.error
            { code := lit "EMPTY_NORMALIZED_TEXT"
              message := lit "normalized text is empty"
              context := [("filter", .json (.str selected.name))] })
        else .ok (.ok (text, selected.name))
      | .error raised =>
        if raised.isInstance .exception then
          .ok (.error
            { code := lit "FILTER_FAILED"
              message := lit "format filter failed"
              context := [("filter", .json (.str selected.name)),
                ("error", .json (.str raised.typeName)),
                ("detail", .json (.str raised.record.message))] })
        else .error raised

/-- `uuid5` of a name, which is encoded. -/
def uuid5Of (name : SourceText) : Except Raised Uuid :=
  (encoded (sourceText (lit "doc-store:document:") ++ name)).map surroundings.uuid5

/-- `stable_name`. -/
def SourceMetadata.stableName (metadata : SourceMetadata) : SourceText :=
  (metadata.filename.filter fun name ↦ !name.isEmpty).getD (sourceText metadata.contentSha256)

/-- `_document_uuid` of a text. -/
def documentUuid (documentId : SourceText) (metadata : SourceMetadata) : Except Raised Uuid :=
  if documentId.isBlank then uuid5Of surroundings metadata.stableName
  else
    match documentId.uuid with
    | some id => .ok id
    | none => uuid5Of surroundings documentId

/-- `_source_version_id`. -/
def normalizedSourceVersionId (documentId : Uuid) (sourceHash profile filterName chunkPreset : Text) :
    Text :=
  surroundings.digest (encodeUtf8 (joinTexts (lit "|")
    [uuidText documentId, sourceHash, profile, filterName, chunkPreset]))

/-- The request for a decoded source. -/
def namedRequest (options : NormalizerOptions) (documentId : SourceText) (metadata : SourceMetadata)
    (text filterName : Text) : Except Raised NormalizedIngestionRequest := do
  let id ← documentUuid surroundings documentId metadata
  let chunkPreset := (nonempty options.chunkPreset).getD defaultPreset
  return { documentId := id
           sourceVersionId := normalizedSourceVersionId surroundings id metadata.contentSha256
             options.normalizationProfile filterName chunkPreset
           text
           sourceMetadata := metadata
           selectedFilter := filterName
           normalizationProfile := options.normalizationProfile
           chunkPreset }

/-- `normalize_source`. -/
def normalizeSource (options : NormalizerOptions) (rawText : Option SourceText)
    (transferredFile : Option TransferredFile) (documentId : SourceText) :
    Except Raised (Diagnosed NormalizedIngestionRequest) := do
  match ← readSource surroundings options rawText transferredFile with
  | .error diagnostic => return .error diagnostic
  | .ok (content, metadata) =>
    match ← filterSource options content metadata with
    | .error diagnostic => return .error diagnostic
    | .ok (text, filterName) =>
      return .ok (← namedRequest surroundings options documentId metadata text filterName)

/-! ### When nothing is raised -/

/-- A payload that is a text has an encoding. -/
def TransferValue.Encodable : TransferValue → Prop
  | text content => content.Encodable
  | _ => True

/-- What has to be encoded of a source can be, the object that stands for a file can be read, and the
transfer store raises nothing but instances of `Exception`. -/
def Readable : Option SourceText → Option TransferredFile → Prop
  | some rawText, none => rawText.Encodable
  | none, some (.mapping fields) =>
    match mappedPayload fields, (transferValue fields "transfer_id").optionalStr with
    | .null, some transferId => ∀ raised,
        transferContent surroundings transferId = .error raised → raised.isInstance .exception
    | payload, _ => payload.Encodable
  | none, some (.descriptor read _ _) => ∃ payload, read = .ok payload ∧ payload.Encodable
  | _, _ => True

/-- The name from which the UUID of the document is made has an encoding, if one is made. -/
def Nameable (documentId : SourceText) (metadata : SourceMetadata) : Prop :=
  if documentId.isBlank then metadata.stableName.Encodable
  else documentId.uuid = none → documentId.Encodable

theorem payloadBytes_returns_iff {payload : TransferValue}
    {filename mediaType : Option SourceText} :
    (∃ outcome, payloadBytes payload filename mediaType = .ok outcome) ↔ payload.Encodable := by
  cases payload with
  | text content =>
    rw [TransferValue.Encodable, ← encoded_returns_iff, payloadBytes]
    cases encoded content with
    | error raised => simp [bind, Except.bind]
    | ok scalars => simp [bind, Except.bind, pure, Except.pure]
  | null => simp [payloadBytes, TransferValue.Encodable]
  | bytes content => simp [payloadBytes, TransferValue.Encodable]
  | other typeName truthy => simp [payloadBytes, TransferValue.Encodable]

theorem readAdapterTransferReference_returns_iff {transferId : SourceText}
    {filename mediaType : Option SourceText} :
    (∃ outcome, readAdapterTransferReference surroundings transferId filename mediaType =
      .ok outcome) ↔ ∀ raised, transferContent surroundings transferId = .error raised →
        raised.isInstance .exception := by
  rw [readAdapterTransferReference]
  cases transferContent surroundings transferId with
  | ok outcome => simp
  | error raised =>
    by_cases hexception : raised.isInstance .exception
    · simp [hexception]
    · simp [hexception]

omit surroundings in
/-- What is done with a value without raising does not matter. -/
theorem exists_map_eq_ok {α β : Type} {first : Except Raised α} {change : α → β} :
    (∃ result, (first >>= fun value ↦ pure (change value)) = .ok result) ↔
      ∃ value, first = .ok value := by
  cases first with
  | error raised => simp [bind, Except.bind]
  | ok value => simp [bind, Except.bind, pure, Except.pure]

omit surroundings in
/-- The usual bound is positive. -/
theorem limited_default {α : Type} (outcome : Except Raised (Diagnosed α)) :
    ({} : NormalizerOptions).limited outcome = outcome :=
  if_neg (by decide)

theorem readTransferredFile_returns_iff {transferredFile : TransferredFile} :
    (∃ outcome, readTransferredFile surroundings transferredFile = .ok outcome) ↔
      Readable surroundings none (some transferredFile) := by
  cases transferredFile with
  | mapping fields =>
    simp only [readTransferredFile, Readable]
    split
    next transferId hnull hid => exact readAdapterTransferReference_returns_iff surroundings
    next => exact payloadBytes_returns_iff
  | descriptor read filename mediaType =>
    simp only [readTransferredFile, Readable]
    cases read with
    | error raised => simp [bind, Except.bind]
    | ok payload =>
      rw [show (∃ outcome, (Except.ok payload >>= fun payload ↦
        payloadBytes payload filename.optionalStr mediaType.optionalStr) = .ok outcome) ↔
          payload.Encodable from payloadBytes_returns_iff]
      simp

/-- A source is read, or diagnosed, exactly when it is readable. -/
theorem readSource_returns_iff {rawText : Option SourceText}
    {transferredFile : Option TransferredFile} :
    (∃ outcome, readSource surroundings {} rawText transferredFile = .ok outcome) ↔
      Readable surroundings rawText transferredFile := by
  cases rawText with
  | none =>
    cases transferredFile with
    | none => simp [readSource, Readable]
    | some transferredFile =>
      simp only [readSource, limited_default]
      rw [exists_map_eq_ok, readTransferredFile_returns_iff]
  | some rawText =>
    cases transferredFile with
    | none =>
      simp only [readSource, limited_default, Readable]
      rw [exists_map_eq_ok, encoded_returns_iff]
    | some transferredFile => simp [readSource, Readable]

omit surroundings in
theorem mem_of_soleCandidate {candidates : List FormatFilter}
    {mediaType filename : Option SourceText} {selected : FormatFilter}
    (hsole : soleCandidate candidates mediaType filename = .ok selected) :
    selected ∈ candidates := by
  cases candidates with
  | nil => cases hsole
  | cons first rest =>
    simp only [soleCandidate] at hsole
    split at hsole
    next => cases hsole
    next =>
      obtain rfl := Except.ok.inj hsole
      exact List.mem_cons_self ..

omit surroundings in
/-- The filter that is selected is one of those there are. -/
theorem mem_of_selectFilter {filters : List (Text × FormatFilter)}
    {mediaType filename : Option SourceText} {selected : FormatFilter}
    (hselected : selectFilter filters none mediaType filename = .ok selected) :
    selected ∈ filters.map Prod.snd := by
  obtain ⟨hinted, hhinted, hsole⟩ := bind_eq_ok.mp hselected
  obtain rfl : none = hinted := Except.ok.inj hhinted
  rcases List.mem_append.mp (mem_of_soleCandidate hsole) with hmedia | hextension
  · rw [Option.toList_none, List.nil_append] at hmedia
    unfold filtersForMedia at hmedia
    split at hmedia
    next => exact (List.mem_filter.mp hmedia).1
    next => cases hmedia
  · unfold filtersForExtension at hextension
    split at hextension
    next => exact (List.mem_filter.mp hextension).1
    next => cases hextension

omit surroundings in
/-- The text filter is the only one, and its exceptions are diagnosed. -/
theorem filterSource_returns (content : List UInt8) (metadata : SourceMetadata) :
    ∃ outcome, filterSource {} content metadata = .ok outcome := by
  rw [filterSource]
  split
  next => exact ⟨_, rfl⟩
  next =>
    split
    next => exact ⟨_, rfl⟩
    next =>
      split
      next => exact ⟨_, rfl⟩
      next selected hselected =>
        obtain rfl : selected = textFilter := List.mem_singleton.mp (mem_of_selectFilter hselected)
        cases hfilter : textFilter.filter content metadata with
        | ok text =>
          simp only
          split
          next => exact ⟨_, rfl⟩
          next => exact ⟨_, rfl⟩
        | error raised =>
          obtain rfl : unicodeDecodeError = raised := by
            simp only [FormatFilter.filter, textFilter] at hfilter
            cases hdecoded : decodeUtf8 content with
            | none => simpa [hdecoded] using hfilter
            | some text => simp [hdecoded] at hfilter
          exact ⟨_, if_pos (by decide)⟩

theorem uuid5Of_returns_iff {name : SourceText} :
    (∃ id, uuid5Of surroundings name = .ok id) ↔ name.Encodable := by
  have hprefixed : (sourceText (lit "doc-store:document:") ++ name).Encodable ↔ name.Encodable := by
    simp [SourceText.Encodable, sourceText]
  rw [← hprefixed, ← encoded_returns_iff, uuid5Of]
  cases encoded (sourceText (lit "doc-store:document:") ++ name) with
  | error raised => simp [Except.map]
  | ok scalars => simp [Except.map]

theorem documentUuid_returns_iff {documentId : SourceText} {metadata : SourceMetadata} :
    (∃ id, documentUuid surroundings documentId metadata = .ok id) ↔
      Nameable documentId metadata := by
  rw [documentUuid, Nameable]
  split
  next => exact uuid5Of_returns_iff surroundings
  next =>
    cases documentId.uuid with
    | none => simpa using uuid5Of_returns_iff surroundings
    | some id => simp

/-- **When normalization raises nothing.** It returns a request or a diagnostic exactly when the
source is readable and, should the source pass the filter, the document can be named. -/
theorem normalizeSource_returns_iff {rawText : Option SourceText}
    {transferredFile : Option TransferredFile} {documentId : SourceText} :
    (∃ outcome, normalizeSource surroundings {} rawText transferredFile documentId = .ok outcome) ↔
      Readable surroundings rawText transferredFile ∧ ∀ content metadata passed,
        readSource surroundings {} rawText transferredFile = .ok (.ok (content, metadata)) →
          filterSource {} content metadata = .ok (.ok passed) → Nameable documentId metadata := by
  rw [← readSource_returns_iff, normalizeSource]
  rcases hread : readSource surroundings {} rawText transferredFile with raised | diagnostic | source
  · simp [bind, Except.bind]
  · simp [bind, Except.bind, pure, Except.pure]
  · obtain ⟨content, metadata⟩ := source
    obtain ⟨outcome, hfilter⟩ := filterSource_returns content metadata
    cases outcome with
    | error diagnostic =>
      refine iff_of_true ⟨.error diagnostic, ?_⟩ ⟨⟨_, rfl⟩, ?_⟩
      · rw [ok_bind]
        simp only [hfilter, ok_bind]
        rfl
      · intro _ _ _ hsource hpassed
        obtain ⟨rfl, rfl⟩ := Prod.mk.inj (Except.ok.inj (Except.ok.inj hsource))
        cases hfilter.symm.trans hpassed
    | ok passed =>
      rw [ok_bind]
      simp only [hfilter, ok_bind]
      rw [exists_map_eq_ok, namedRequest, exists_map_eq_ok, documentUuid_returns_iff]
      constructor
      · intro hnameable
        refine ⟨⟨_, rfl⟩, fun _ _ _ hsource _ ↦ ?_⟩
        obtain ⟨rfl, rfl⟩ := Prod.mk.inj (Except.ok.inj (Except.ok.inj hsource))
        exact hnameable
      · exact fun ⟨_, hnameable⟩ ↦ hnameable content metadata passed rfl hfilter

end Normalizing

end DocStore
