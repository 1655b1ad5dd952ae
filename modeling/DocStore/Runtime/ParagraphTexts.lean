import DocStore.Foundation.Slots
import DocStore.Runtime.Invalidation

/-!
# The two texts of a paragraph

The text of a paragraph is stored twice: in the row of the paragraph, which the vectorizer, the
export and the rechunking read, and in the text rows of its chunks, which the reconstruction and the
chunk search read. Every operation on texts writes one of the two. `ParagraphAgrees` says that the
texts of the live chunks, joined with their recorded gaps, spell the text of the paragraph.

An operation on a chunk keeps a paragraph that agrees exactly when what it gives the chunk, behind
the gap that is then recorded, takes up the same characters as before; an update of a paragraph when
it names no other text (`paragraphAgrees_iff`).
-/

set_option autoImplicit false
set_option relaxedAutoImplicit false

namespace DocStore

open Foundation

/-! ### The text of the chunks -/

/-- The gap that the metadata of a chunk and of its text record. Where they record none, readers put
a blank between the chunks of a paragraph. -/
def recordedGap (chunkMeta textMeta : Dict) : Text :=
  match selectExactReconstructionPiece chunkMeta textMeta with
  | .ok (some piece) => piece.gapBefore
  | _ => withinParagraph

/-- What a chunk contributes to its paragraph, when it is live. -/
def chunkSlot (live : Bool) (chunkMeta : Dict) (text : Text) (textMeta : Dict) :
    Option (Slot Char) :=
  if live then some { gap := recordedGap chunkMeta textMeta, text } else none

/-- What a chunk contributes to its paragraph. -/
def Db.slotOf (db : Db) (chunk : SemanticChunkRow) : Option (Slot Char) :=
  (db.textRow chunk.id).bind fun row ↦
    chunkSlot chunk.isLive chunk.blockMeta row.text row.blockMeta

/-- `ORDER BY sc.order_index, sc.id`. -/
def chunkBefore (first second : SemanticChunkRow) : Prop :=
  first.orderIndex < second.orderIndex ∨
    first.orderIndex = second.orderIndex ∧ first.id.toNat ≤ second.id.toNat

instance : DecidableRel chunkBefore :=
  fun first second ↦ inferInstanceAs (Decidable (first.orderIndex < second.orderIndex ∨
    first.orderIndex = second.orderIndex ∧ first.id.toNat ≤ second.id.toNat))

/-- The chunks of a paragraph in their order. -/
def Db.paragraphChunks (db : Db) (paragraphId : Uuid) : List SemanticChunkRow :=
  (db.semanticChunks.filter fun row ↦ row.paragraphId = paragraphId).insertionSort chunkBefore

/-- The text that the live chunks of a paragraph spell. -/
def Db.chunksText (db : Db) (paragraphId : Uuid) : Text :=
  joinSlots ((db.paragraphChunks paragraphId).filterMap db.slotOf)

/-- The two texts of a paragraph are the same. -/
def ParagraphAgrees (db : Db) (paragraphId : Uuid) : Prop :=
  db.paragraphText paragraphId = some (db.chunksText paragraphId)

instance (db : Db) (paragraphId : Uuid) : Decidable (ParagraphAgrees db paragraphId) :=
  inferInstanceAs (Decidable (_ = _))

/-! ### Operations on texts -/

/-- An operation on the text of a chunk or of a paragraph. -/
inductive TextChange where
  | version (action : VersionAction)
  | updateChunk (call : TextCall) (chunkUuid : Uuid) (values : TextValues)
  | updateParagraph (paragraphId : Uuid) (values : TextValues)

/-- What an operation does. -/
def TextChange.apply (host : Host) (change : TextChange) (db : Db) : Except Failure Db :=
  match change with
  | .version action => do
    let (_, next) ← action.apply host db
    return next
  | .updateChunk call chunkUuid values => updateChunkValues host call chunkUuid values db
  | .updateParagraph paragraphId values => updateParagraphValues paragraphId values db

/-! ### What an operation gives a chunk -/

/-- The text and the metadata of the version that a call activates, if it activates one. -/
def VersionAction.written (action : VersionAction) (chunk : SemanticChunkRow) (db : Db) :
    Option (Text × Dict) :=
  let numbered (versionNo : ℤ) : Option (Text × Dict) :=
    (db.version action.chunkUuid versionNo.toNat).map fun row ↦ (row.text, row.blockMeta)
  match action.operation with
  | .appendVersion textValue _ | .updateText textValue _ =>
    if (db.currentVersion action.chunkUuid).any fun row ↦ row.text = textValue then none
    else some (textValue, chunk.blockMeta)
  | .restoreVersion versionNo _ => (numbered versionNo).map fun version ↦
      (version.1, chunk.blockMeta)
  | .setCurrent versionNo => numbered versionNo
  | .retireVersion versionNo replacement =>
    if (db.version action.chunkUuid versionNo.toNat).any SemanticChunkVersion.isCurrent then
      replacement.bind numbered
    else none
  | .deleteVersion _ => none

/-- What a chunk contributes after a call of the version service. -/
def VersionAction.newSlot (action : VersionAction) (chunk : SemanticChunkRow) (db : Db) :
    Option (Slot Char) :=
  match action.written chunk db with
  | none => db.slotOf chunk
  | some (text, textMeta) => (db.textRow chunk.id).bind fun _ ↦
      chunkSlot chunk.isLive chunk.blockMeta text textMeta

/-- What a chunk contributes after an update of the entity. -/
def TextValues.newSlot (values : TextValues) (chunk : SemanticChunkRow) (db : Db) :
    Option (Slot Char) :=
  let live := (values.assign chunk.toEntityRow).isLive
  let chunkMeta := values.blockMeta.getD chunk.blockMeta
  match (values.text.or values.body).filter fun text ↦ db.chunkText chunk.id ≠ some text with
  | none => (db.textRow chunk.id).bind fun row ↦ chunkSlot live chunkMeta row.text row.blockMeta
  | some text => chunkSlot live (resetSemanticChunkBlockMeta chunkMeta) text
      (resetTextMeta chunkMeta ((db.textRow chunk.id).map SemanticChunkText.blockMeta))

/-- The slots in front of a chunk in its paragraph. -/
def Db.slotsBefore (db : Db) (chunk : SemanticChunkRow) : List (Slot Char) :=
  ((db.paragraphChunks chunk.paragraphId).takeWhile fun row ↦ row.id ≠ chunk.id).filterMap
    db.slotOf

/-- The slots behind a chunk in its paragraph. -/
def Db.slotsAfter (db : Db) (chunk : SemanticChunkRow) : List (Slot Char) :=
  ((db.paragraphChunks chunk.paragraphId).dropWhile fun row ↦ row.id ≠ chunk.id).tail.filterMap
    db.slotOf

/-- A new slot of a chunk takes up the same characters in the paragraph as the old one. -/
def TakesSamePlace (db : Db) (chunk : SemanticChunkRow) (slot : Option (Slot Char)) : Prop :=
  share (db.slotsBefore chunk) (db.slotsAfter chunk) slot =
    share (db.slotsBefore chunk) (db.slotsAfter chunk) (db.slotOf chunk)

/-- When an operation leaves the text of a paragraph as it is, on the level that it writes. -/
def TextChange.KeepsParagraph (change : TextChange) (db : Db) (paragraphId : Uuid) : Prop :=
  match change with
  | .version action =>
    ∀ chunk, lookup (fun row : SemanticChunkRow ↦ row.id) action.chunkUuid db.semanticChunks =
      some chunk → chunk.paragraphId = paragraphId →
        TakesSamePlace db chunk (action.newSlot chunk db)
  | .updateChunk _ chunkUuid values =>
    ∀ chunk, lookup (fun row : SemanticChunkRow ↦ row.id) chunkUuid db.semanticChunks =
      some chunk → chunk.paragraphId = paragraphId →
        TakesSamePlace db chunk (values.newSlot chunk db)
  | .updateParagraph updatedId values =>
    updatedId = paragraphId → ∀ text, values.text = some text →
      db.paragraphText paragraphId = some text

/-! ### Replacing the slot of a chunk -/

section Replacing

variable {db next : Db} {chunk : SemanticChunkRow} {change : SemanticChunkRow → SemanticChunkRow}

/-- An operation on one chunk, as far as the texts of paragraphs are concerned. -/
structure ChangesChunk (db next : Db) (chunk : SemanticChunkRow)
    (change : SemanticChunkRow → SemanticChunkRow) : Prop where
  paragraphs : next.paragraphs = db.paragraphs
  chunks : next.semanticChunks =
    updateWhere (fun row ↦ row.id = chunk.id) change db.semanticChunks
  texts : ∀ id, id ≠ chunk.id → next.textRow id = db.textRow id
  id : ∀ row, (change row).id = row.id
  paragraph : ∀ row, (change row).paragraphId = row.paragraphId
  order : ∀ row, (change row).orderIndex = row.orderIndex

/-- The chunks of a paragraph keep their order. -/
theorem ChangesChunk.paragraphChunks (hchanges : ChangesChunk db next chunk change)
    (paragraphId : Uuid) : next.paragraphChunks paragraphId =
      updateWhere (fun row ↦ row.id = chunk.id) change (db.paragraphChunks paragraphId) := by
  rw [Db.paragraphChunks, hchanges.chunks,
    filter_updateWhere (fun row ↦ by rw [hchanges.paragraph row])]
  refine (List.map_insertionSort chunkBefore chunkBefore _ _ fun first _ second _ ↦ ?_).symm
  have hkeys : ∀ row : SemanticChunkRow,
      (if decide (row.id = chunk.id) then change row else row).orderIndex = row.orderIndex ∧
        (if decide (row.id = chunk.id) then change row else row).id = row.id := by
    intro row
    split
    · exact ⟨hchanges.order row, hchanges.id row⟩
    · exact ⟨rfl, rfl⟩
  rw [chunkBefore, chunkBefore, (hkeys first).1, (hkeys first).2, (hkeys second).1,
    (hkeys second).2]

theorem mem_paragraphChunks {paragraphId : Uuid} {row : SemanticChunkRow} :
    row ∈ db.paragraphChunks paragraphId ↔
      row ∈ db.semanticChunks ∧ row.paragraphId = paragraphId := by
  simp [Db.paragraphChunks]

/-- The chunks of a paragraph have distinct keys. -/
theorem nodup_paragraphChunks (hkeys : (db.semanticChunks.map fun row ↦ row.id).Nodup)
    (paragraphId : Uuid) : ((db.paragraphChunks paragraphId).map fun row ↦ row.id).Nodup := by
  have hsorted := (List.perm_insertionSort chunkBefore
    (db.semanticChunks.filter fun row ↦ row.paragraphId = paragraphId)).map fun row ↦ row.id
  exact hsorted.nodup_iff.mpr (hkeys.sublist (List.filter_sublist.map _))

/-- The text of a paragraph around one of its chunks. -/
theorem chunksText_around (hkeys : (db.semanticChunks.map fun row ↦ row.id).Nodup)
    (hchunk : chunk ∈ db.semanticChunks) : db.chunksText chunk.paragraphId =
      joinSlots (db.slotsBefore chunk ++ (db.slotOf chunk).toList ++ db.slotsAfter chunk) := by
  have hmem := mem_paragraphChunks.mpr ⟨hchunk, rfl⟩
  exact congrArg joinSlots
    (filterMap_around (nodup_paragraphChunks hkeys chunk.paragraphId) hmem fun _ _ ↦ rfl)

/-- After an operation on a chunk its paragraph has the same slots around it. -/
theorem ChangesChunk.chunksText (hchanges : ChangesChunk db next chunk change)
    (hkeys : (db.semanticChunks.map fun row ↦ row.id).Nodup) (hchunk : chunk ∈ db.semanticChunks) :
    next.chunksText chunk.paragraphId = joinSlots (db.slotsBefore chunk ++
      (next.slotOf (change chunk)).toList ++ db.slotsAfter chunk) := by
  have hmem := mem_paragraphChunks.mpr ⟨hchunk, rfl⟩
  have hsame : ∀ other : SemanticChunkRow, other.id ≠ chunk.id →
      next.slotOf (if decide (other.id = chunk.id) then change other else other) =
        db.slotOf other := by
    intro other hne
    rw [if_neg (by simpa using hne), Db.slotOf, Db.slotOf, hchanges.texts other.id hne]
  have haround := filterMap_around (nodup_paragraphChunks hkeys chunk.paragraphId) hmem hsame
  rw [if_pos (by simp)] at haround
  rw [Db.chunksText, hchanges.paragraphChunks, updateWhere, List.filterMap_map]
  exact congrArg joinSlots haround

/-- The text of another paragraph stays the same. -/
theorem ChangesChunk.chunksText_of_ne (hchanges : ChangesChunk db next chunk change)
    (hkeys : (db.semanticChunks.map fun row ↦ row.id).Nodup) (hchunk : chunk ∈ db.semanticChunks)
    {paragraphId : Uuid} (hne : chunk.paragraphId ≠ paragraphId) :
    next.chunksText paragraphId = db.chunksText paragraphId := by
  have hother : ∀ row ∈ db.paragraphChunks paragraphId, row.id ≠ chunk.id := by
    intro row hrow heq
    obtain ⟨hmem, hparagraph⟩ := mem_paragraphChunks.mp hrow
    obtain rfl := List.inj_on_of_nodup_map hkeys hmem hchunk heq
    exact hne hparagraph
  rw [Db.chunksText, Db.chunksText, hchanges.paragraphChunks,
    updateWhere_of_forall_not fun row hrow ↦ decide_eq_false (hother row hrow)]
  refine congrArg joinSlots (List.filterMap_congr fun row hrow ↦ ?_)
  rw [Db.slotOf, Db.slotOf, hchanges.texts row.id (hother row hrow)]

/-- **What an operation on a chunk does to the two texts of a paragraph.** -/
theorem ChangesChunk.agrees_iff (hchanges : ChangesChunk db next chunk change)
    (hkeys : (db.semanticChunks.map fun row ↦ row.id).Nodup) (hchunk : chunk ∈ db.semanticChunks)
    {paragraphId : Uuid} (hagrees : ParagraphAgrees db paragraphId) :
    ParagraphAgrees next paragraphId ↔ (chunk.paragraphId = paragraphId →
      TakesSamePlace db chunk (next.slotOf (change chunk))) := by
  have htext : next.paragraphText paragraphId = some (db.chunksText paragraphId) := by
    rw [← hagrees, Db.paragraphText, Db.paragraphText, hchanges.paragraphs]
  rw [ParagraphAgrees, htext, Option.some_inj]
  by_cases hparagraph : chunk.paragraphId = paragraphId
  · subst hparagraph
    rw [hchanges.chunksText hkeys hchunk, chunksText_around hkeys hchunk, eq_comm,
      joinSlots_replace_iff]
    exact ⟨fun hplace _ ↦ hplace, fun hplace ↦ hplace rfl⟩
  · rw [hchanges.chunksText_of_ne hkeys hchunk hparagraph]
    exact iff_of_true rfl fun heq ↦ absurd heq hparagraph

end Replacing

/-! ### What the version service writes -/

/-- The tables of the hierarchy, from the documents down to the texts of the chunks. -/
structure TextTables where
  documents : List DocumentRow
  chapters : List ChapterRow
  paragraphs : List ParagraphRow
  semanticChunks : List SemanticChunkRow
  semanticChunkTexts : List SemanticChunkText

/-- The hierarchy in the tables. -/
def Db.textTables (db : Db) : TextTables where
  documents := db.documents
  chapters := db.chapters
  paragraphs := db.paragraphs
  semanticChunks := db.semanticChunks
  semanticChunkTexts := db.semanticChunkTexts

/-- A call left the texts alone, or copied a version with some text and metadata. -/
def WritesText (db next : Db) (chunkUuid : Uuid) : Option (Text × Dict) → Prop
  | none => next.textTables = db.textTables
  | some (text, textMeta) => ∃ row : SemanticChunkVersion, row.text = text ∧
      row.blockMeta = textMeta ∧ next.textTables = (projectText chunkUuid row db).textTables

section Service

variable {host : Host} {call : VersionCall} {chunkUuid : Uuid} {db middle next : Db}
  {row : SemanticChunkVersion} {operation : Text} {action : VersionAction} {reply : VersionReply}
  {chunk : SemanticChunkRow}

/-- What a version says and where it is copied to decide the texts after an activation. -/
theorem writesText_of_activate (hmiddle : middle.textTables = db.textTables)
    (hactivate : activate call chunkUuid row operation middle = .ok next) :
    WritesText db next chunkUuid (some (row.text, row.blockMeta)) := by
  refine ⟨row, rfl, rfl, ?_⟩
  obtain ⟨hdocuments, hchapters, hparagraphs, hchunks, htexts⟩ := TextTables.mk.inj hmiddle
  rw [activate_eq_ok hactivate]
  simp only [Db.textTables, projectText, hdocuments, hchapters, hparagraphs, hchunks, htexts]

theorem spec_of_insertChunkVersion {versionNo : ℕ} {value : Text}
    {previous restored : Option Uuid} (hinsert : insertChunkVersion host call chunk versionNo value
      operation previous restored db = .ok (row, next)) :
    row.text = value ∧ row.blockMeta = chunk.blockMeta ∧ next.textTables = db.textTables := by
  obtain ⟨-, hinsert⟩ := raiseIf_bind_eq_ok.mp hinsert
  obtain ⟨-, hinsert⟩ := raiseIf_bind_eq_ok.mp hinsert
  obtain ⟨inserted, hversion, hinsert⟩ := bind_eq_ok.mp hinsert
  cases hinsert
  obtain ⟨-, rfl⟩ := Db.insertVersion_eq_ok.mp hversion
  exact ⟨rfl, rfl, rfl⟩

theorem lookup_of_requireChunk (hrequire : db.requireChunk chunkUuid = .ok chunk) :
    lookup (fun row : SemanticChunkRow ↦ row.id) chunkUuid db.semanticChunks = some chunk := by
  unfold Db.requireChunk at hrequire
  split at hrequire
  next found hfound =>
    cases hrequire
    exact hfound
  · cases hrequire

/-- A version that is inserted and activated gives the chunk its text and keeps the metadata. -/
theorem writesText_of_insert_activate {versionNo : ℕ} {value : Text}
    {previous restored : Option Uuid} {activation : Text}
    (hinsert : insertChunkVersion host call chunk versionNo value operation previous restored db =
      .ok (row, middle))
    (hactivate : activate call chunkUuid row activation middle = .ok next) :
    WritesText db next chunkUuid (some (value, chunk.blockMeta)) := by
  obtain ⟨htext, hmeta, htables⟩ := spec_of_insertChunkVersion hinsert
  exact htext ▸ hmeta ▸ writesText_of_activate htables hactivate

theorem writesText_of_appendAndActivate {textValue : Text} {expected : Option ℤ}
    (hfound : lookup (fun row : SemanticChunkRow ↦ row.id) chunkUuid db.semanticChunks = some chunk)
    (happly : appendAndActivate host call chunkUuid db textValue operation expected =
      .ok (reply, next)) :
    WritesText db next chunkUuid
      (if (db.currentVersion chunkUuid).any fun row ↦ row.text = textValue then none
        else some (textValue, chunk.blockMeta)) := by
  obtain ⟨required, hrequire, happly⟩ := bind_eq_ok.mp happly
  obtain rfl := Option.some.inj (hfound.symm.trans (lookup_of_requireChunk hrequire))
  obtain ⟨-, -, happly⟩ := bind_eq_ok.mp happly
  dsimp only at happly
  split at happly
  next hunchanged =>
    cases happly
    rw [if_pos hunchanged]
    exact rfl
  next hchanged =>
    obtain ⟨⟨row, inserted⟩, hinsert, happly⟩ := bind_eq_ok.mp happly
    obtain ⟨activated, hactivate, happly⟩ := bind_eq_ok.mp happly
    cases happly
    rw [if_neg hchanged]
    exact writesText_of_insert_activate hinsert hactivate

theorem writesText_of_restoreVersion {number : ℤ} {expected : Option ℤ}
    (hfound : lookup (fun row : SemanticChunkRow ↦ row.id) chunkUuid db.semanticChunks = some chunk)
    (happly : restoreVersion host call chunkUuid db number expected = .ok (reply, next)) :
    WritesText db next chunkUuid ((db.version chunkUuid number.toNat).map fun row ↦
      (row.text, chunk.blockMeta)) := by
  obtain ⟨wanted, hwanted, happly⟩ := bind_eq_ok.mp happly
  obtain ⟨-, hwanted⟩ := raiseIf_bind_eq_ok.mp hwanted
  cases hwanted
  obtain ⟨required, hrequire, happly⟩ := bind_eq_ok.mp happly
  obtain rfl := Option.some.inj (hfound.symm.trans (lookup_of_requireChunk hrequire))
  split at happly
  · cases happly
  next source hsource =>
    obtain ⟨-, -, happly⟩ := bind_eq_ok.mp happly
    obtain ⟨⟨row, inserted⟩, hinsert, happly⟩ := bind_eq_ok.mp happly
    obtain ⟨activated, hactivate, happly⟩ := bind_eq_ok.mp happly
    cases happly
    rw [hsource, Option.map_some]
    exact writesText_of_insert_activate hinsert hactivate

theorem writesText_of_setCurrentVersion {number : ℤ}
    (happly : setCurrentVersion call chunkUuid db number = .ok (reply, next)) :
    WritesText db next chunkUuid ((db.version chunkUuid number.toNat).map fun row ↦
      (row.text, row.blockMeta)) := by
  obtain ⟨wanted, hwanted, happly⟩ := bind_eq_ok.mp happly
  obtain ⟨-, hwanted⟩ := raiseIf_bind_eq_ok.mp hwanted
  cases hwanted
  obtain ⟨required, -, happly⟩ := bind_eq_ok.mp happly
  split at happly
  · cases happly
  next row hversion =>
    obtain ⟨activated, hactivate, happly⟩ := bind_eq_ok.mp happly
    cases happly
    rw [Option.eq_some_of_filter_eq_some hversion, Option.map_some]
    exact writesText_of_activate rfl hactivate

theorem writesText_of_activateReplacement {versionNo : ℕ} {replacement : Option ℕ}
    (hreplace : activateReplacement call chunkUuid db versionNo replacement = .ok next) :
    WritesText db next chunkUuid (replacement.bind fun number ↦
      (db.version chunkUuid number).map fun row ↦ (row.text, row.blockMeta)) := by
  unfold activateReplacement at hreplace
  split at hreplace
  · cases hreplace
  · split at hreplace
    · cases hreplace
    next row hversion =>
      rw [Option.bind_some, Option.eq_some_of_filter_eq_some hversion, Option.map_some]
      exact writesText_of_activate rfl hreplace

theorem writesText_of_retireVersion {number : ℤ} {replacement : Option ℤ}
    (happly : retireVersion call chunkUuid db number replacement = .ok (reply, next)) :
    WritesText db next chunkUuid
      (if (db.version chunkUuid number.toNat).any SemanticChunkVersion.isCurrent then
        replacement.bind fun wanted ↦ (db.version chunkUuid wanted.toNat).map fun row ↦
          (row.text, row.blockMeta)
      else none) := by
  obtain ⟨wanted, hwanted, happly⟩ := bind_eq_ok.mp happly
  obtain ⟨-, hwanted⟩ := raiseIf_bind_eq_ok.mp hwanted
  cases hwanted
  obtain ⟨replacing, hreplacing, happly⟩ := bind_eq_ok.mp happly
  obtain ⟨-, hreplacing⟩ := raiseIf_bind_eq_ok.mp hreplacing
  cases hreplacing
  obtain ⟨required, -, happly⟩ := bind_eq_ok.mp happly
  split at happly
  · cases happly
  next row hfound =>
    obtain ⟨-, happly⟩ := raiseIf_bind_eq_ok.mp happly
    obtain ⟨replaced, hreplace, happly⟩ := bind_eq_ok.mp happly
    obtain ⟨-, happly⟩ := raiseIf_bind_eq_ok.mp happly
    cases happly
    rw [Option.eq_some_of_filter_eq_some hfound, Option.any_some]
    unfold replaceCurrent at hreplace
    split at hreplace
    next hcurrent =>
      have hwrites := writesText_of_activateReplacement hreplace
      rw [Option.bind_map] at hwrites
      rw [if_pos hcurrent]
      exact hwrites
    next hcurrent =>
      cases hreplace
      rw [if_neg hcurrent]
      exact rfl

/-- A deletion takes the pointer along, so that it activates nothing. -/
theorem writesText_of_deleteVersion {number : ℤ}
    (happly : deleteVersion call chunkUuid db number = .ok (reply, next)) :
    WritesText db next chunkUuid none := by
  obtain ⟨wanted, -, happly⟩ := bind_eq_ok.mp happly
  obtain ⟨required, -, happly⟩ := bind_eq_ok.mp happly
  split at happly
  · cases happly
  · obtain ⟨-, happly⟩ := raiseIf_bind_eq_ok.mp happly
    rw [reactivateLatest_deleteRow] at happly
    cases happly
    exact rfl

/-- **What a call of the version service writes to the texts.** -/
theorem writesText_of_apply (hfound : lookup (fun row : SemanticChunkRow ↦ row.id)
      action.chunkUuid db.semanticChunks = some chunk)
    (happly : action.apply host db = .ok (reply, next)) :
    WritesText db next action.chunkUuid (action.written chunk db) := by
  obtain ⟨chunkUuid, call, operation⟩ := action
  cases operation with
  | appendVersion => exact writesText_of_appendAndActivate hfound happly
  | updateText => exact writesText_of_appendAndActivate hfound happly
  | restoreVersion =>
    have hwrites := writesText_of_restoreVersion hfound happly
    simp only [VersionAction.written, Option.map_map]
    exact hwrites
  | setCurrent => exact writesText_of_setCurrentVersion happly
  | retireVersion => exact writesText_of_retireVersion happly
  | deleteVersion => exact writesText_of_deleteVersion happly

/-- Every call needs its chunk. -/
theorem exists_chunk_of_apply (happly : action.apply host db = .ok (reply, next)) :
    ∃ chunk, lookup (fun row : SemanticChunkRow ↦ row.id) action.chunkUuid db.semanticChunks =
      some chunk := by
  have hrequire : ∃ chunk, db.requireChunk action.chunkUuid = .ok chunk := by
    obtain ⟨chunkUuid, call, operation⟩ := action
    cases operation with
    | appendVersion | updateText =>
      obtain ⟨chunk, hrequire, -⟩ := bind_eq_ok.mp happly
      exact ⟨chunk, hrequire⟩
    | restoreVersion | setCurrent | deleteVersion =>
      obtain ⟨_, _, happly⟩ := bind_eq_ok.mp happly
      obtain ⟨chunk, hrequire, -⟩ := bind_eq_ok.mp happly
      exact ⟨chunk, hrequire⟩
    | retireVersion =>
      obtain ⟨_, _, happly⟩ := bind_eq_ok.mp happly
      obtain ⟨_, _, happly⟩ := bind_eq_ok.mp happly
      obtain ⟨chunk, hrequire, -⟩ := bind_eq_ok.mp happly
      exact ⟨chunk, hrequire⟩
  obtain ⟨chunk, hrequire⟩ := hrequire
  exact ⟨chunk, lookup_of_requireChunk hrequire⟩

/-- A call that copies a version into the text row changes the slot of its chunk alone. -/
theorem WritesText.changesChunk {text : Text} {textMeta : Dict}
    (hwrites : WritesText db next chunk.id (some (text, textMeta))) :
    ∃ change, ChangesChunk db next chunk change ∧ next.slotOf (change chunk) =
      (db.textRow chunk.id).bind fun _ ↦ chunkSlot chunk.isLive chunk.blockMeta text textMeta := by
  obtain ⟨row, rfl, rfl, htables⟩ := hwrites
  obtain ⟨-, -, hparagraphs, hchunks, htexts⟩ := TextTables.mk.inj htables
  have hrow : ∀ id, next.textRow id = (db.textRow id).map fun old ↦
      if old.chunkUuid = chunk.id then { old with
        text := row.text
        textSha256 := row.textSha256
        charCount := row.text.length
        blockMeta := row.blockMeta } else old := by
    intro id
    rw [Db.textRow, htexts, projectText, lookup_updateWhere (by intro _; rfl)]
    simp only [decide_eq_true_eq]
    rfl
  refine ⟨_, ⟨hparagraphs, hchunks, fun id hne ↦ ?_, fun _ ↦ rfl, fun _ ↦ rfl, fun _ ↦ rfl⟩, ?_⟩
  · rw [hrow id]
    refine (Option.map_congr fun old hold ↦ ?_).trans Option.map_id'
    rw [if_neg fun heq ↦ hne ((mem_of_lookup hold).2.symm.trans heq)]
  · show (next.textRow chunk.id).bind _ = _
    rw [hrow chunk.id, Option.bind_map]
    refine Option.bind_congr fun old hold ↦ ?_
    simp only [Function.comp_apply]
    rw [if_pos (mem_of_lookup hold).2]

/-- What a call of the version service does to the two texts of a paragraph. -/
theorem agrees_iff_of_version (hkeys : (db.semanticChunks.map fun row ↦ row.id).Nodup)
    (hfound : lookup (fun row : SemanticChunkRow ↦ row.id) action.chunkUuid db.semanticChunks =
      some chunk)
    {paragraphId : Uuid} (hagrees : ParagraphAgrees db paragraphId)
    (happly : action.apply host db = .ok (reply, next)) :
    ParagraphAgrees next paragraphId ↔ (chunk.paragraphId = paragraphId →
      TakesSamePlace db chunk (action.newSlot chunk db)) := by
  obtain ⟨hchunk, hid⟩ := mem_of_lookup hfound
  have hwrites := writesText_of_apply hfound happly
  rw [VersionAction.newSlot]
  cases hwritten : action.written chunk db with
  | none =>
    rw [hwritten] at hwrites
    obtain ⟨-, -, hparagraphs, hchunks, htexts⟩ := TextTables.mk.inj hwrites
    have hslot : next.slotOf = db.slotOf := by
      funext row
      rw [Db.slotOf, Db.slotOf, Db.textRow, Db.textRow, htexts]
    refine iff_of_true ?_ fun _ ↦ rfl
    rw [ParagraphAgrees, Db.paragraphText, Db.chunksText, Db.paragraphChunks, hparagraphs, hchunks,
      hslot]
    exact hagrees
  | some written =>
    obtain ⟨text, textMeta⟩ := written
    rw [hwritten, ← hid] at hwrites
    obtain ⟨change, hchanges, hslot⟩ := WritesText.changesChunk hwrites
    rw [hchanges.agrees_iff hkeys hchunk hagrees, hslot]

end Service

/-! ### What the updates of entities write -/

section Updates

variable {host : Host} {call : TextCall} {chunkUuid paragraphId : Uuid} {db next : Db}
  {values : TextValues} {chunk : SemanticChunkRow}

/-- The columns that an update of a chunk assigns besides the text. -/
def TextValues.assignChunk (values : TextValues) (row : SemanticChunkRow) : SemanticChunkRow :=
  { row with
    toEntityRow := values.assign row.toEntityRow
    blockMeta := values.blockMeta.getD row.blockMeta }

theorem textRow_storeText_self (textValue : Text) (chunkMeta textMeta : Dict) :
    ∃ row, (storeText host chunkUuid textValue chunkMeta textMeta db).textRow chunkUuid =
      some row ∧ row.text = textValue ∧ row.blockMeta = textMeta := by
  let row : SemanticChunkText :=
    { chunkUuid
      text := textValue
      textSha256 := host.hexdigest textValue
      charCount := textValue.length
      blockMeta := textMeta }
  exact ⟨row, @lookup_upsert_self _ _ _ SemanticChunkText.chunkUuid row _, rfl, rfl⟩

theorem textRow_storeText_of_ne {id : Uuid} (hne : id ≠ chunkUuid) (textValue : Text)
    (chunkMeta textMeta : Dict) :
    (storeText host chunkUuid textValue chunkMeta textMeta db).textRow id = db.textRow id := by
  refine lookup_upsert_of_ne ?_ db.semanticChunkTexts
  exact hne

/-- An update of a chunk assigns its columns and, when it names another text, stores that. -/
theorem textTables_of_updateChunkValues
    (hfound : lookup (fun row : SemanticChunkRow ↦ row.id) chunkUuid db.semanticChunks = some chunk)
    (hupdate : updateChunkValues host call chunkUuid values db = .ok next) :
    next.textTables = (match (values.text.or values.body).filter fun text ↦
        db.chunkText chunkUuid ≠ some text with
      | none => assignChunkValues chunkUuid values db
      | some text => storeText host chunkUuid text
          (resetSemanticChunkBlockMeta (values.blockMeta.getD chunk.blockMeta))
          (resetTextMeta (values.blockMeta.getD chunk.blockMeta)
            ((db.textRow chunkUuid).map SemanticChunkText.blockMeta))
          (assignChunkValues chunkUuid values db)).textTables := by
  have hid := (mem_of_lookup hfound).2
  have hassigned : lookup (fun row : SemanticChunkRow ↦ row.id) chunkUuid
      (assignChunkValues chunkUuid values db).semanticChunks = some (values.assignChunk chunk) := by
    rw [assignChunkValues, lookup_updateWhere (by intro _; rfl), hfound, Option.map_some,
      if_pos (by simpa using hid)]
    rfl
  obtain ⟨-, hupdate⟩ := raiseIf_bind_eq_ok.mp hupdate
  obtain ⟨-, -, hupdate⟩ := bind_eq_ok.mp hupdate
  obtain ⟨-, hupdate⟩ := raiseIf_bind_eq_ok.mp hupdate
  obtain ⟨-, -, hupdate⟩ := bind_eq_ok.mp hupdate
  dsimp only at hupdate
  split at hupdate
  next hnone =>
    cases hupdate
    rw [hnone]
    rfl
  next textValue hvalue =>
    obtain ⟨required, hrequire, hupdate⟩ := bind_eq_ok.mp hupdate
    obtain rfl := Option.some.inj (hassigned.symm.trans (lookup_of_requireChunk hrequire))
    rw [hvalue]
    split at hupdate
    next hsame =>
      have hstored : db.chunkText chunkUuid = some textValue := hsame
      cases hupdate
      rw [Option.filter_some_neg (by simpa using hstored)]
    next hother =>
      have hstored : db.chunkText chunkUuid ≠ some textValue := hother
      rw [Option.filter_some_pos (by simpa using hstored)]
      obtain ⟨inserted, hinsert, hupdate⟩ := bind_eq_ok.mp hupdate
      obtain ⟨-, rfl⟩ := Db.insertVersion_eq_ok.mp hinsert
      obtain ⟨pointing, hpoint, hupdate⟩ := bind_eq_ok.mp hupdate
      obtain ⟨-, hpoint⟩ := raiseIf_bind_eq_ok.mp hpoint
      obtain ⟨-, hpoint⟩ := raiseIf_bind_eq_ok.mp hpoint
      cases hpoint
      cases hupdate
      rfl

theorem exists_chunk_of_updateChunkValues
    (hupdate : updateChunkValues host call chunkUuid values db = .ok next) :
    ∃ chunk, lookup (fun row : SemanticChunkRow ↦ row.id) chunkUuid db.semanticChunks =
      some chunk := by
  obtain ⟨-, hupdate⟩ := raiseIf_bind_eq_ok.mp hupdate
  obtain ⟨-, -, hupdate⟩ := bind_eq_ok.mp hupdate
  obtain ⟨-, hupdate⟩ := raiseIf_bind_eq_ok.mp hupdate
  obtain ⟨chunk, hrequire, -⟩ := bind_eq_ok.mp hupdate
  exact ⟨chunk, lookup_of_requireChunk hrequire⟩

/-- An update of a chunk changes the slot of this chunk alone. -/
theorem changesChunk_of_updateChunkValues
    (hfound : lookup (fun row : SemanticChunkRow ↦ row.id) chunkUuid db.semanticChunks = some chunk)
    (hupdate : updateChunkValues host call chunkUuid values db = .ok next) :
    ∃ change, ChangesChunk db next chunk change ∧
      next.slotOf (change chunk) = values.newSlot chunk db := by
  have htables := textTables_of_updateChunkValues hfound hupdate
  obtain ⟨-, hid⟩ := mem_of_lookup hfound
  subst hid
  rw [TextValues.newSlot]
  split at htables
  next hnone =>
    obtain ⟨-, -, hparagraphs, hchunks, htexts⟩ := TextTables.mk.inj htables
    have hrow : next.textRow = db.textRow := by
      funext id
      rw [Db.textRow, htexts]
      rfl
    refine ⟨values.assignChunk, ⟨hparagraphs, hchunks, fun id _ ↦ congrFun hrow id, fun _ ↦ rfl,
      fun _ ↦ rfl, fun _ ↦ rfl⟩, ?_⟩
    rw [Db.slotOf, hrow]
    rfl
  next text hsome =>
    obtain ⟨-, -, hparagraphs, hchunks, htexts⟩ := TextTables.mk.inj htables
    let storeRow (row : SemanticChunkRow) : SemanticChunkRow :=
      { row with
        text := []
        charCount := text.length
        blockMeta := resetSemanticChunkBlockMeta (values.blockMeta.getD chunk.blockMeta) }
    have htwice := hchunks.trans (@updateWhere_updateWhere SemanticChunkRow
      (fun row ↦ row.id = chunk.id) values.assignChunk storeRow (fun _ hselected ↦ hselected)
      db.semanticChunks)
    refine ⟨_, ⟨hparagraphs, htwice, fun id hne ↦ ?_, fun _ ↦ rfl, fun _ ↦ rfl, fun _ ↦ rfl⟩, ?_⟩
    · rw [Db.textRow, htexts]
      exact textRow_storeText_of_ne hne text _ _
    · obtain ⟨row, hrow, htext, hmeta⟩ := @textRow_storeText_self host chunk.id
        (assignChunkValues chunk.id values db) text
        (resetSemanticChunkBlockMeta (values.blockMeta.getD chunk.blockMeta))
        (resetTextMeta (values.blockMeta.getD chunk.blockMeta)
          ((db.textRow chunk.id).map SemanticChunkText.blockMeta))
      rw [Db.textRow, ← htexts] at hrow
      show (lookup SemanticChunkText.chunkUuid chunk.id next.semanticChunkTexts).bind _ = _
      rw [hrow, Option.bind_some, htext, hmeta]
      rfl

/-- The columns that an update of a paragraph assigns. -/
def TextValues.assignParagraph (values : TextValues) (row : ParagraphRow) : ParagraphRow :=
  { row with
    toEntityRow := values.assign row.toEntityRow
    text := values.text.getD row.text
    blockMeta := values.blockMeta.getD row.blockMeta }

/-- An update of a paragraph writes the text of its row alone. -/
theorem agrees_iff_of_updateParagraphValues {updatedId : Uuid}
    (hagrees : ParagraphAgrees db paragraphId)
    (hupdate : updateParagraphValues updatedId values db = .ok next) :
    ParagraphAgrees next paragraphId ↔ (updatedId = paragraphId →
      ∀ text, values.text = some text → db.paragraphText paragraphId = some text) := by
  obtain ⟨-, hupdate⟩ := raiseIf_bind_eq_ok.mp hupdate
  obtain ⟨-, hupdate⟩ := raiseIf_bind_eq_ok.mp hupdate
  obtain ⟨-, -, hupdate⟩ := bind_eq_ok.mp hupdate
  obtain ⟨-, hupdate⟩ := raiseIf_bind_eq_ok.mp hupdate
  cases hupdate
  obtain ⟨row, hfound, hspelled⟩ := Option.map_eq_some_iff.mp hagrees
  have hold : db.paragraphText paragraphId = some row.text := congrArg (Option.map _) hfound
  have hid : row.id = paragraphId := (mem_of_lookup hfound).2
  have htext : (lookup (fun row : ParagraphRow ↦ row.id) paragraphId (updateWhere
      (fun row ↦ row.id = updatedId) values.assignParagraph db.paragraphs)).map
        (fun row ↦ row.text) =
      some (if updatedId = paragraphId then values.text.getD row.text else row.text) := by
    rw [lookup_updateWhere (by intro _; rfl), hfound, Option.map_some, Option.map_some]
    by_cases hupdated : updatedId = paragraphId
    · rw [if_pos (decide_eq_true (hid.trans hupdated.symm)), if_pos hupdated]
      rfl
    · rw [if_neg, if_neg hupdated]
      simpa [hid] using fun heq ↦ hupdated (Eq.symm heq)
  have hagrees' : _ ↔ _ := Iff.of_eq (congrArg (· = some (db.chunksText paragraphId)) htext)
  refine Iff.trans hagrees' ?_
  rw [hold, ← hspelled, Option.some_inj]
  by_cases hupdated : updatedId = paragraphId
  · rw [if_pos hupdated]
    cases hvalue : values.text with
    | none => simp
    | some text => simp [hupdated, eq_comm]
  · rw [if_neg hupdated]
    exact iff_of_true rfl fun heq ↦ absurd heq hupdated

end Updates

/-! ### The operations on texts -/

/-- **The two texts of a paragraph.** An operation keeps a paragraph whose two texts agree exactly
when it leaves the text as it is: an update of the paragraph names no other text, and the chunk of
any other operation takes up the same characters of the paragraph as before. -/
theorem paragraphAgrees_iff {host : Host} {change : TextChange} {db next : Db} {paragraphId : Uuid}
    (hkeys : (db.semanticChunks.map fun row ↦ row.id).Nodup)
    (hagrees : ParagraphAgrees db paragraphId) (happly : change.apply host db = .ok next) :
    ParagraphAgrees next paragraphId ↔ change.KeepsParagraph db paragraphId := by
  cases change with
  | version action =>
    obtain ⟨⟨reply, next⟩, happly, hnext⟩ := bind_eq_ok.mp happly
    cases hnext
    obtain ⟨chunk, hfound⟩ := exists_chunk_of_apply happly
    rw [agrees_iff_of_version hkeys hfound hagrees happly]
    constructor
    · intro hplace other hother
      obtain rfl := Option.some.inj (hfound.symm.trans hother)
      exact hplace
    · exact fun hkeeps ↦ hkeeps chunk hfound
  | updateChunk call chunkUuid values =>
    obtain ⟨chunk, hfound⟩ := exists_chunk_of_updateChunkValues happly
    obtain ⟨assign, hchanges, hslot⟩ := changesChunk_of_updateChunkValues hfound happly
    rw [hchanges.agrees_iff hkeys (mem_of_lookup hfound).1 hagrees, hslot]
    constructor
    · intro hplace other hother
      obtain rfl := Option.some.inj (hfound.symm.trans hother)
      exact hplace
    · exact fun hkeeps ↦ hkeeps chunk hfound
  | updateParagraph => exact agrees_iff_of_updateParagraphValues hagrees happly

/-- A paragraph with one chunk that says the same. -/
def seededParagraph : Db :=
  { seededChunk with
    paragraphs :=
      [{ id := 3, ownerId := some 4, documentId := 2, chapterId := 4, orderIndex := 0
         text := lit "a", sourceStart := 0, sourceEnd := 1, blockMeta := [] }] }

/-- Makes the first version of the chunk the current one again. -/
def setsFirstVersion : TextChange :=
  .version { chunkUuid := 1, call := { now := 1, versionId := 12 }, operation := .setCurrent 1 }

/-- Appends a version with another text. -/
def appendsVersion : TextChange :=
  .version { chunkUuid := 1, call := { now := 1, versionId := 12 }
             operation := .appendVersion (lit "b") none }

/-- What an operation on the texts leaves. -/
def afterChange (change : TextChange) : Db :=
  (toOption (change.apply sampleHost seededParagraph)).getD seededParagraph

/-- The version that is current already says what the paragraph says. -/
theorem paragraphAgrees_afterChange_setsFirstVersion :
    ParagraphAgrees (afterChange setsFirstVersion) 3 := by
  have happly : setsFirstVersion.apply sampleHost seededParagraph =
      .ok (afterChange setsFirstVersion) := by
    rw [afterChange]
    exact eq_ok_of_succeeds (by decide +kernel)
  refine (paragraphAgrees_iff (by decide) (by decide +kernel) happly).mpr ?_
  intro chunk hfound _
  obtain rfl := Option.some.inj hfound
  rw [TakesSamePlace]
  decide +kernel

/-- After a new version the chunk says something else than its paragraph. -/
theorem not_paragraphAgrees_afterChange_appendsVersion :
    (seededParagraph.semanticChunks.map fun row ↦ row.id).Nodup ∧
      (seededParagraph.paragraphs.any fun row ↦ row.id = 3 && row.isLive) = true ∧
      ParagraphAgrees seededParagraph 3 ∧
      succeeds (appendsVersion.apply sampleHost seededParagraph) = true ∧
      ¬ParagraphAgrees (afterChange appendsVersion) 3 := by
  refine ⟨?_, ?_, ?_, ?_, ?_⟩ <;> decide +kernel

end DocStore
