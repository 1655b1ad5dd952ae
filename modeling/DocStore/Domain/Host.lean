import DocStore.Domain.Metadata
import Mathlib.Data.Char
import Mathlib.Data.List.Lex
import Mathlib.Data.List.Sort

/-!
# What the process takes from its surroundings

The digest function, the configured preview length and actor, and the lexical analysis of a text
(regular expressions over its lower-case form) are the same for a whole run and say nothing about
what is stored or read back. They are collected in a `Host`, and every result holds for every host.
-/

set_option autoImplicit false
set_option relaxedAutoImplicit false

namespace DocStore

/-- What a text says about itself: `tag …` and `project …` phrases. -/
structure SourceProperties where
  tags : List Text
  project : Option Text

/-- The lexical features of a chunk text. -/
structure ChunkFeatures where
  category : Text
  tags : List Text
  tokens : List Text
  bm25Tokens : List Text

/-- The surroundings of the process. -/
structure Host where
  /-- SHA-256 of the UTF-8 encoding of a text. -/
  sha256 : Text → BitVec 256
  /-- `preview_chars()`. -/
  previewChars : ℕ
  /-- `_run_actor()`. -/
  runActor : Text
  /-- The phrases `_source_properties` finds in a text. -/
  sourceProperties : Text → SourceProperties
  /-- `_chunk_features` of a text, a source name and a chunking strategy. -/
  chunkFeatures : Text → Option Text → Text → ChunkFeatures
  /-- `str(value)` of a JSON value. -/
  str : Json → Text

variable (host : Host)

/-- `hashlib.sha256(text.encode("utf-8")).hexdigest()`. -/
def Host.hexdigest (text : Text) : Text :=
  List.leftpad 64 '0' (Nat.toDigits 16 (host.sha256 text).toNat)

/-- `_stable_uuid4`: the first sixteen bytes of the digest with version and variant stamped in. -/
def Host.stableUuid4 (text : Text) : Uuid :=
  let raw : Uuid := (host.sha256 text).extractLsb' 128 128
  (((raw &&& ~~~(15#128 <<< 76)) ||| (4#128 <<< 76)) &&& ~~~(3#128 <<< 62)) ||| (2#128 <<< 62)

/-- `separator.join(texts)`. -/
def joinTexts (separator : Text) (texts : List Text) : Text := List.intercalate separator texts

/-- `chunk_preview`. -/
def Host.chunkPreview (value : Text) : Text :=
  (joinTexts (lit " ") (splitWords value)).take host.previewChars

/-- `sorted(set(texts))`. -/
def sortedSet (texts : List Text) : List Text :=
  texts.eraseDups.insertionSort fun first second ↦ first ≤ second

/-- A host for runs on fixed inputs. Its digest is a polynomial in the code points. -/
def sampleHost : Host where
  sha256 text := text.foldl (fun digest character ↦
    digest * 1000003 + BitVec.ofNat 256 (character.toNat + 1)) 0
  previewChars := 220
  runActor := lit "doc-store:ingestion-runtime-boundary"
  sourceProperties _ := { tags := [], project := none }
  chunkFeatures _ _ _ := { category := lit "uncategorized", tags := [], tokens := [], bm25Tokens := [] }
  str _ := []

end DocStore
