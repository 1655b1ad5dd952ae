import DocStore.Ingestion.HierarchyEnrichment
import DocStore.Ingestion.IntegrityDiagnostics

/-!
# The number of a source version

A source version is a number or a text, and `documents` stores a number. The mapper takes a number
that is stated and folds a text (`resolveSourceVersion`). The repository, when it looks for a version
without a plan, takes a number too; of a text it takes what `int` reads in it, and folds the text only
when `int` reads nothing (`versionNumber`).

They agree on a text exactly when `int` reads nothing in it, or reads the number to which it is folded
(`versionNumber_eq_iff`). The fold is positive and below 2147483647, so `"0"`, `"-1"` or
`"4294967296"` are never looked up under the number that was stored.
-/

set_option autoImplicit false
set_option relaxedAutoImplicit false

namespace DocStore.SourceNumbers

open Foundation Enrichment

/-! ### `int` of a text -/

/-- What `int` makes of a character before it reads: white space beyond ASCII is a blank, and a
decimal digit is one of the ten of ASCII. What is neither stops it. -/
def asciiOf (character : Char) : Char :=
  if character.toNat < 127 then character
  else if isSpace character then ' '
  else
    match decimalZeros.find? fun first ↦
      first ≤ character.toNat && character.toNat < first + 10 with
    | some first => Char.ofNat (48 + (character.toNat - first))
    | none => '?'

/-- The white space that `int` skips. -/
def isBlank (character : Char) : Bool := [9, 10, 11, 12, 13, 32].contains character.toNat

/-- The value of some digits. -/
def digitsValue (digits : Text) : ℕ :=
  digits.foldl (fun number digit ↦ 10 * number + (digit.toNat - 48)) 0

/-- The digits of a number that may have single underscores between them, at most 4300. -/
def groupedDigits (text : Text) : Option ℕ :=
  let groups := text.splitOn '_'
  if groups.all (fun group ↦ !group.isEmpty && group.all Char.isDigit) &&
      groups.flatten.length ≤ 4300 then some (digitsValue groups.flatten)
  else none

/-- `int(text)`, or nothing where it raises a `ValueError`. -/
def pythonInt (text : Text) : Option ℤ :=
  match ((text.map asciiOf).dropWhile isBlank).rdropWhile isBlank with
  | '-' :: rest => (groupedDigits rest).map fun number ↦ -(number : ℤ)
  | '+' :: rest => (groupedDigits rest).map fun number ↦ (number : ℤ)
  | plain => (groupedDigits plain).map fun number ↦ (number : ℤ)

/-! ### Lookup and storage -/

section Numbers

variable (host : Host)

/-- `_version_number`: what the repository looks up. -/
def versionNumber : SourceVersion → ℤ
  | .number value => value
  | .text value => (pythonInt value).getD (sourceVersionNumber host value)

/-- `_resolve_source_version`: what the mapper puts in the plan. -/
def resolveSourceVersion (stated : SourceVersion) (sourceVersionId : Text) : ℤ :=
  match stated with
  | .number value => if 0 < value then value else sourceVersionNumber host sourceVersionId
  | .text _ => sourceVersionNumber host sourceVersionId

/-- `_committed_document_row` without a plan: the version id and the chunking strategy of the document,
if it has the number. -/
def committedVersionRow (documentId : Uuid) (version : SourceVersion) (db : Db) :
    Option (Option Text × Option Text) :=
  ((lookup (fun row : DocumentRow ↦ row.id) documentId db.documents).filter fun row ↦
    (row.sourceVersion : ℤ) = versionNumber host version).map fun row ↦
      (jsonText host row.blockMeta "source_version_id",
        jsonText host row.blockMeta "chunking_strategy")

/-- The document carries the number that the mapper gives to a version. -/
def PublishedAs (documentId : Uuid) (stated : SourceVersion) (sourceVersionId : Text) (db : Db) :
    Prop :=
  ∃ row, lookup (fun row : DocumentRow ↦ row.id) documentId db.documents = some row ∧
    (row.sourceVersion : ℤ) = resolveSourceVersion host stated sourceVersionId

/-- A version that is stated: a positive number, or a text that is not empty. -/
def VersionStated : SourceVersion → Prop
  | .number value => 0 < value
  | .text value => value ≠ []

/-- The id with which the mapper is built is the version itself, where this is a text. -/
def NamedBy (sourceVersionId : Text) : SourceVersion → Prop
  | .number _ => True
  | .text value => value = sourceVersionId

/-- `int` reads nothing in the version, or the number to which it is folded. -/
def ReadAsFolded : SourceVersion → Prop
  | .number _ => True
  | .text value => pythonInt value = none ∨ pythonInt value = some (sourceVersionNumber host value : ℤ)

variable {host} {documentId : Uuid} {version : SourceVersion} {sourceVersionId : Text}

/-- The fold of a version is a positive number that fits into the column. -/
theorem sourceVersionNumber_bounds (host : Host) (value : Text) :
    0 < sourceVersionNumber host value ∧ sourceVersionNumber host value < 2147483647 := by
  unfold sourceVersionNumber
  have hfold := Nat.mod_lt (host.sha256 value >>> 224).toNat (show 0 < 2147483646 by decide)
  exact ⟨Nat.succ_pos _, Nat.succ_lt_succ hfold⟩

/-- A row is found when it has the number that is looked up. -/
theorem committedVersionRow_isSome_iff {db : Db} :
    (committedVersionRow host documentId version db).isSome = true ↔
      ∃ row, lookup (fun row : DocumentRow ↦ row.id) documentId db.documents = some row ∧
        (row.sourceVersion : ℤ) = versionNumber host version := by
  unfold committedVersionRow
  cases lookup (fun row : DocumentRow ↦ row.id) documentId db.documents with
  | none => simp
  | some row =>
    by_cases hnumber : (row.sourceVersion : ℤ) = versionNumber host version
    · simp [Option.filter_some, hnumber]
    · simp [Option.filter_some, hnumber]

theorem versionNumber_eq_resolve_iff (host : Host) (hstated : VersionStated version)
    (hnamed : NamedBy sourceVersionId version) :
    versionNumber host version = resolveSourceVersion host version sourceVersionId ↔
      ReadAsFolded host version := by
  cases version with
  | number value =>
    have hpositive : 0 < value := hstated
    rw [versionNumber, resolveSourceVersion, if_pos hpositive]
    exact iff_of_true rfl trivial
  | text value =>
    obtain rfl : value = sourceVersionId := hnamed
    rw [versionNumber, resolveSourceVersion, ReadAsFolded]
    cases pythonInt value with
    | none => simp
    | some number => simp

end Numbers

/-- **Lookup and storage number a version alike**, and a document is found under a version exactly
when it was published as that version, if and only if `int` reads nothing in the version or the number
to which it is folded. -/
theorem versionNumber_eq_iff (host : Host) {version : SourceVersion} {sourceVersionId : Text}
    (hstated : VersionStated version) (hnamed : NamedBy sourceVersionId version) :
    (versionNumber host version = resolveSourceVersion host version sourceVersionId ∧
      ∀ (documentId : Uuid) (db : Db),
        (committedVersionRow host documentId version db).isSome = true ↔
          PublishedAs host documentId version sourceVersionId db) ↔
      ReadAsFolded host version := by
  rw [← versionNumber_eq_resolve_iff host hstated hnamed]
  refine ⟨And.left, fun hnumber ↦ ⟨hnumber, fun documentId db ↦ ?_⟩⟩
  rw [committedVersionRow_isSome_iff, hnumber]
  rfl

/-- A version that is no number. -/
theorem versionNumber_eq_iff_name :
    (versionNumber sampleHost (.text (lit "v1")) =
        resolveSourceVersion sampleHost (.text (lit "v1")) (lit "v1") ∧
      ∀ (documentId : Uuid) (db : Db),
        (committedVersionRow sampleHost documentId (.text (lit "v1")) db).isSome = true ↔
          PublishedAs sampleHost documentId (.text (lit "v1")) (lit "v1") db) ↔
      ReadAsFolded sampleHost (.text (lit "v1")) :=
  versionNumber_eq_iff sampleHost (List.cons_ne_nil _ _) rfl

/-- The version `"0"` is looked up as zero, and no version is stored as zero. -/
theorem versionNumber_ne_resolve_zero :
    versionNumber sampleHost (.text (lit "0")) = 0 ∧
      versionNumber sampleHost (.text (lit "0")) ≠
        resolveSourceVersion sampleHost (.text (lit "0")) (lit "0") := by
  have hread : versionNumber sampleHost (.text (lit "0")) = 0 := by decide +kernel
  have hfold := (sourceVersionNumber_bounds sampleHost (lit "0")).1
  refine ⟨hread, fun hsame ↦ ?_⟩
  rw [hread, resolveSourceVersion] at hsame
  omega

end DocStore.SourceNumbers
