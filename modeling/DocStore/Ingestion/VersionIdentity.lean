import DocStore.Domain.UuidText
import DocStore.Foundation.Separators
import DocStore.Ingestion.SourceNormalizer

/-!
# What a source version id stands for

A source version id is the digest of five texts with `|` between them: the document, the digest of the
source, the normalization profile, the name of the filter and the chunk preset. The first two never
hold the separator. The last three are free, and nothing in them is escaped.

When the digest is injective, an id stands for the document, the source and the three free texts as
they are joined (`sourceVersionId_eq_iff`). So two accepted calls can have one id and different inputs,
and they do exactly when what is joined is the same and the separators are spread differently over the
profiles or the names of the filters (`sourceVersionId_injective_iff`).
-/

set_option autoImplicit false
set_option relaxedAutoImplicit false

namespace DocStore

open Foundation

/-! ### The five inputs -/

/-- Two requests have the five inputs in common. -/
structure SameInputs (first second : NormalizedIngestionRequest) : Prop where
  document : first.documentId = second.documentId
  source : first.sourceMetadata.contentSha256 = second.sourceMetadata.contentSha256
  profile : first.normalizationProfile = second.normalizationProfile
  filter : first.selectedFilter = second.selectedFilter
  preset : first.chunkPreset = second.chunkPreset

/-- The free inputs of a request as they are joined. -/
def freeInputs (request : NormalizedIngestionRequest) : Text :=
  request.normalizationProfile ++ '|' :: (request.selectedFilter ++ '|' :: request.chunkPreset)

/-- Where all that is joined is the same, the separators are spread alike: the profiles have equally
many, and the names of the filters. -/
def SpreadAlike (first second : NormalizedIngestionRequest) : Prop :=
  first.documentId = second.documentId →
    first.sourceMetadata.contentSha256 = second.sourceMetadata.contentSha256 →
      freeInputs first = freeInputs second →
        first.normalizationProfile.count '|' = second.normalizationProfile.count '|' ∧
          first.selectedFilter.count '|' = second.selectedFilter.count '|'

/-- A digest that separators cannot be confused with: two contents never have the same one, and it is
written without a separator. -/
structure Distinguishing (digest : List UInt8 → Text) : Prop where
  injective : Function.Injective digest
  unseparated : ∀ payload, '|' ∉ digest payload

/-! ### What is hashed -/

/-- A text can be read back from its encoding. -/
theorem encodeUtf8_injective : Function.Injective encodeUtf8 := by
  intro first second hsame
  have hdecode (text : Text) : (encodeUtf8 text).toByteArray.utf8Decode? = some text.toArray :=
    List.utf8Decode?_utf8Encode
  have hfirst := hdecode first
  rw [hsame, hdecode second] at hfirst
  exact (Array.mk.inj (Option.some.inj hfirst)).symm

theorem separator_notMem_uuidText (id : Uuid) : '|' ∉ uuidText id := by
  intro hmem
  have hdigits : ∀ digit < 16, '|' ≠ Nat.digitChar digit := by decide
  rcases mem_uuidText hmem with hhyphen | ⟨digit, hdigit, hsame⟩
  · exact absurd hhyphen (by decide)
  · exact hdigits digit hdigit hsame

section Accepted

variable {surroundings : NormalizerSurroundings} {options : NormalizerOptions}
  {rawText : Option SourceText} {transferredFile : Option TransferredFile}
  {documentId : SourceText} {request first second : NormalizedIngestionRequest}

theorem limited_eq_ok {α : Type} {outcome : Except Raised (Diagnosed α)} {value : α}
    (hlimited : options.limited outcome = .ok (.ok value)) : outcome = .ok (.ok value) := by
  unfold NormalizerOptions.limited at hlimited
  split at hlimited
  · cases hlimited
  · exact hlimited

/-- The digest of a source that was read is the digest of its content. -/
theorem contentSha256_of_readSource {content : List UInt8} {metadata : SourceMetadata}
    (hread : readSource surroundings options rawText transferredFile =
      .ok (.ok (content, metadata))) :
    metadata.contentSha256 = surroundings.digest content := by
  unfold readSource at hread
  split at hread
  · obtain ⟨scalars, -, hpayload⟩ := bind_eq_ok.mp (limited_eq_ok hread)
    obtain ⟨rfl, rfl⟩ := Prod.mk.inj (Except.ok.inj (Except.ok.inj hpayload))
    rfl
  · obtain ⟨outcome, -, hpayload⟩ := bind_eq_ok.mp (limited_eq_ok hread)
    cases outcome with
    | error diagnostic => cases hpayload
    | ok payload =>
      obtain ⟨rfl, rfl⟩ := Prod.mk.inj (Except.ok.inj (Except.ok.inj hpayload))
      rfl
  · cases hread

/-- What an accepted call names the version after. -/
theorem sourceVersionId_of_normalizeSource
    (haccepted : normalizeSource surroundings options rawText transferredFile documentId =
      .ok (.ok request)) :
    request.sourceVersionId = normalizedSourceVersionId surroundings request.documentId
        request.sourceMetadata.contentSha256 request.normalizationProfile request.selectedFilter
        request.chunkPreset ∧
      ∃ content, request.sourceMetadata.contentSha256 = surroundings.digest content := by
  obtain ⟨source, hread, hsource⟩ := bind_eq_ok.mp haccepted
  cases source with
  | error diagnostic => cases hsource
  | ok source =>
    obtain ⟨content, metadata⟩ := source
    obtain ⟨filtered, -, hfiltered⟩ := bind_eq_ok.mp hsource
    cases filtered with
    | error diagnostic => cases hfiltered
    | ok filtered =>
      obtain ⟨text, filterName⟩ := filtered
      obtain ⟨named, hnamed, hrequest⟩ := bind_eq_ok.mp hfiltered
      obtain rfl : named = request := Except.ok.inj (Except.ok.inj hrequest)
      obtain ⟨id, -, hid⟩ := bind_eq_ok.mp hnamed
      obtain rfl := Except.ok.inj hid
      exact ⟨rfl, content, contentSha256_of_readSource hread⟩

/-- **What an id stands for.** Two accepted calls have one id when document and source are the same
and the free inputs are, as they are joined. -/
theorem sourceVersionId_eq_iff (hdigest : Distinguishing surroundings.digest)
    {otherOptions : NormalizerOptions} {otherText : Option SourceText}
    {otherFile : Option TransferredFile} {otherId : SourceText}
    (hfirst : normalizeSource surroundings options rawText transferredFile documentId =
      .ok (.ok first))
    (hsecond : normalizeSource surroundings otherOptions otherText otherFile otherId =
      .ok (.ok second)) :
    first.sourceVersionId = second.sourceVersionId ↔
      first.documentId = second.documentId ∧
        first.sourceMetadata.contentSha256 = second.sourceMetadata.contentSha256 ∧
        freeInputs first = freeInputs second := by
  obtain ⟨hfirstId, firstContent, hfirstContent⟩ := sourceVersionId_of_normalizeSource hfirst
  obtain ⟨hsecondId, secondContent, hsecondContent⟩ := sourceVersionId_of_normalizeSource hsecond
  have hjoined (request : NormalizedIngestionRequest) :
      joinTexts (lit "|") [uuidText request.documentId, request.sourceMetadata.contentSha256,
          request.normalizationProfile, request.selectedFilter, request.chunkPreset] =
        uuidText request.documentId ++ '|' ::
          (request.sourceMetadata.contentSha256 ++ '|' :: freeInputs request) := by
    simp [joinTexts, freeInputs, lit, List.intercalate]
  have hdocuments : (uuidText first.documentId).count '|' = (uuidText second.documentId).count '|' := by
    rw [List.count_eq_zero.mpr (separator_notMem_uuidText _),
      List.count_eq_zero.mpr (separator_notMem_uuidText _)]
  have hsources : first.sourceMetadata.contentSha256.count '|' =
      second.sourceMetadata.contentSha256.count '|' := by
    rw [hfirstContent, hsecondContent, List.count_eq_zero.mpr (hdigest.unseparated _),
      List.count_eq_zero.mpr (hdigest.unseparated _)]
  rw [hfirstId, hsecondId, normalizedSourceVersionId, normalizedSourceVersionId,
    hdigest.injective.eq_iff, encodeUtf8_injective.eq_iff, hjoined, hjoined,
    append_cons_inj_of_count hdocuments, append_cons_inj_of_count hsources,
    uuidText_injective.eq_iff]

end Accepted

/-- Free inputs that are joined to the same text are the same when the separators are spread alike
over them. -/
theorem freeInputs_eq_iff {first second : NormalizedIngestionRequest}
    (hprofile : first.normalizationProfile.count '|' = second.normalizationProfile.count '|')
    (hfilter : first.selectedFilter.count '|' = second.selectedFilter.count '|') :
    freeInputs first = freeInputs second ↔
      first.normalizationProfile = second.normalizationProfile ∧
        first.selectedFilter = second.selectedFilter ∧ first.chunkPreset = second.chunkPreset := by
  rw [freeInputs, freeInputs, append_cons_inj_of_count hprofile, append_cons_inj_of_count hfilter]

/-- **An id identifies its inputs**, for two accepted calls, exactly when the separators in what is
joined are spread alike over their profiles and over the names of their filters. -/
theorem sourceVersionId_injective_iff {surroundings : NormalizerSurroundings}
    {firstOptions secondOptions : NormalizerOptions} {firstText secondText : Option SourceText}
    {firstFile secondFile : Option TransferredFile} {firstId secondId : SourceText}
    {first second : NormalizedIngestionRequest} (hdigest : Distinguishing surroundings.digest)
    (hfirst : normalizeSource surroundings firstOptions firstText firstFile firstId =
      .ok (.ok first))
    (hsecond : normalizeSource surroundings secondOptions secondText secondFile secondId =
      .ok (.ok second)) :
    (first.sourceVersionId = second.sourceVersionId → SameInputs first second) ↔
      SpreadAlike first second := by
  rw [sourceVersionId_eq_iff hdigest hfirst hsecond]
  constructor
  · intro hidentifies hdocument hsource hfree
    have hsame := hidentifies ⟨hdocument, hsource, hfree⟩
    rw [hsame.profile, hsame.filter]
    exact ⟨rfl, rfl⟩
  · rintro hspread ⟨hdocument, hsource, hfree⟩
    obtain ⟨hprofile, hfilter⟩ := hspread hdocument hsource hfree
    obtain ⟨hprofiles, hfilters, hpresets⟩ := (freeInputs_eq_iff hprofile hfilter).mp hfree
    exact ⟨hdocument, hsource, hprofiles, hfilters, hpresets⟩

/-- Inputs without separators are spread alike. -/
theorem spreadAlike_of_unseparated {first second : NormalizedIngestionRequest}
    (hprofiles : '|' ∉ first.normalizationProfile ∧ '|' ∉ second.normalizationProfile)
    (hfilters : '|' ∉ first.selectedFilter ∧ '|' ∉ second.selectedFilter) :
    SpreadAlike first second := by
  intro _ _ _
  rw [List.count_eq_zero.mpr hprofiles.1, List.count_eq_zero.mpr hprofiles.2,
    List.count_eq_zero.mpr hfilters.1, List.count_eq_zero.mpr hfilters.2]
  exact ⟨rfl, rfl⟩

/-! ### Two texts, and two profiles -/

/-- The two hexadecimal digits of a byte. -/
def hexByte (byte : UInt8) : Text :=
  [Nat.digitChar (byte.toNat / 16), Nat.digitChar (byte.toNat % 16)]

/-- Surroundings whose digest writes out what it is given. -/
def hexSurroundings : NormalizerSurroundings where
  digest payload := payload.flatMap hexByte
  uuid5 _ := 5
  guessMediaType _ := none
  transferSession _ := .error unicodeDecodeError
  isFile _ := .error unicodeDecodeError
  readBytes _ := .error unicodeDecodeError
  readGzip _ := .error unicodeDecodeError

theorem hexByte_injective : Function.Injective hexByte := by
  have hdigits : ∀ first < 16, ∀ second < 16,
      Nat.digitChar first = Nat.digitChar second → first = second := by decide
  intro first second hsame
  have hfirst := first.toNat_lt
  have hsecond := second.toNat_lt
  obtain ⟨hhigh, hrest⟩ := List.cons.inj hsame
  have hhighs := hdigits (first.toNat / 16) (by omega) (second.toNat / 16) (by omega) hhigh
  have hlows := hdigits (first.toNat % 16) (by omega) (second.toNat % 16) (by omega)
    (List.cons.inj hrest).1
  exact UInt8.toNat_inj.mp (by omega)

theorem distinguishing_hex : Distinguishing hexSurroundings.digest where
  injective := by
    intro first
    induction first with
    | nil =>
      intro second hsame
      cases second with
      | nil => rfl
      | cons byte second => cases hsame
    | cons byte first ih =>
      intro second hsame
      cases second with
      | nil => cases hsame
      | cons other second =>
        have hparts : hexByte byte ++ hexSurroundings.digest first =
            hexByte other ++ hexSurroundings.digest second := hsame
        obtain ⟨hbyte, hrest⟩ := List.append_inj hparts rfl
        rw [hexByte_injective hbyte, ih hrest]
  unseparated := by
    have hdigits : ∀ digit < 16, '|' ≠ Nat.digitChar digit := by decide
    intro payload hmem
    obtain ⟨byte, -, hbyte⟩ := List.mem_flatMap.mp hmem
    have hbound := byte.toNat_lt
    rcases List.mem_pair.mp hbyte with hhigh | hlow
    · exact hdigits _ (by omega) hhigh
    · exact hdigits _ (by omega) hlow

/-- The request of an accepted call. -/
def acceptedRequest {α : Type} (outcome : Except Raised (Diagnosed α)) : Option α :=
  (toOption outcome).bind toOption

theorem acceptedRequest_eq_some {α : Type} {outcome : Except Raised (Diagnosed α)} {request : α} :
    acceptedRequest outcome = some request ↔ outcome = .ok (.ok request) := by
  cases outcome with
  | error raised => simp [acceptedRequest]
  | ok diagnosed => simp [acceptedRequest, toOption_eq_some]

/-- A call for the text `text` under a UUID, with a profile and a preset. -/
def normalizeText (text profile preset : Text) : Except Raised (Diagnosed NormalizedIngestionRequest) :=
  normalizeSource hexSurroundings
    { normalizationProfile := profile, chunkPreset := some preset } (some (sourceText text)) none
    (sourceText (uuidText 7))

/-- Two texts under one profile. -/
theorem sourceVersionId_injective_iff_texts : ∃ first second,
    normalizeText (lit "one") (lit "default") (lit "p") = .ok (.ok first) ∧
      normalizeText (lit "two") (lit "default") (lit "p") = .ok (.ok second) ∧
      ((first.sourceVersionId = second.sourceVersionId → SameInputs first second) ↔
        SpreadAlike first second) := by
  obtain ⟨first, hfirst⟩ : ∃ first, acceptedRequest
      (normalizeText (lit "one") (lit "default") (lit "p")) = some first :=
    Option.isSome_iff_exists.mp (by decide +kernel)
  obtain ⟨second, hsecond⟩ : ∃ second, acceptedRequest
      (normalizeText (lit "two") (lit "default") (lit "p")) = some second :=
    Option.isSome_iff_exists.mp (by decide +kernel)
  rw [acceptedRequest_eq_some] at hfirst hsecond
  exact ⟨first, second, hfirst, hsecond,
    sourceVersionId_injective_iff distinguishing_hex hfirst hsecond⟩

/-- The profile `x|plain_text` with the preset `p`, and the profile `x` with the preset
`plain_text|p`. -/
theorem sourceVersionId_not_injective : ∃ first second,
    normalizeText (lit "one") (lit "x|plain_text") (lit "p") = .ok (.ok first) ∧
      normalizeText (lit "one") (lit "x") (lit "plain_text|p") = .ok (.ok second) ∧
      first.sourceVersionId = second.sourceVersionId ∧
      first.normalizationProfile ≠ second.normalizationProfile := by
  have hids : (acceptedRequest (normalizeText (lit "one") (lit "x|plain_text") (lit "p"))).map
        (fun request ↦ (request.sourceVersionId, request.normalizationProfile)) =
      (acceptedRequest (normalizeText (lit "one") (lit "x") (lit "plain_text|p"))).map
        (fun request ↦ (request.sourceVersionId, lit "x|plain_text")) := by decide +kernel
  obtain ⟨second, hsecond⟩ : ∃ second, acceptedRequest
      (normalizeText (lit "one") (lit "x") (lit "plain_text|p")) = some second :=
    Option.isSome_iff_exists.mp (by decide +kernel)
  have hprofile : (acceptedRequest (normalizeText (lit "one") (lit "x") (lit "plain_text|p"))).map
      (fun request ↦ request.normalizationProfile) = some (lit "x") := by decide +kernel
  rw [hsecond] at hids hprofile
  obtain ⟨first, hfirst, hsame⟩ := Option.map_eq_some_iff.mp hids
  obtain ⟨hid, hfirstProfile⟩ := Prod.mk.inj hsame
  have hsecondProfile : second.normalizationProfile = lit "x" := Option.some.inj hprofile
  refine ⟨first, second, acceptedRequest_eq_some.mp hfirst, acceptedRequest_eq_some.mp hsecond, hid,
    ?_⟩
  rw [hfirstProfile, hsecondProfile]
  decide

end DocStore
