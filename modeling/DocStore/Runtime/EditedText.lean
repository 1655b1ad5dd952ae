import DocStore.Runtime.PublicationFrame
import DocStore.Runtime.TextEdits

/-!
# The text of an edited document

A publication records in the text row of every chunk which gap and which source text stand at the
chunk. Edits treat that record differently. An update of the entity keeps it, a version that is
appended or restored takes its metadata from the chunk row and loses it, and a version that is made
the current one again brings back what it was written with. No edit changes it to anything else.

So whatever edits a published document went through, each of its rows still has the piece of its
publication or none (`Editable`), and what the reader does depends on how many rows lost theirs:
with all pieces it spells the gaps with the current texts, except where a recorded source text hides
them, without any it joins the current texts, and with some of them it refuses the document
(`readsEdited_of_run`).
-/

set_option autoImplicit false
set_option relaxedAutoImplicit false

namespace DocStore

open Foundation

/-! ### What a reader makes of kept and lost pieces -/

/-- Metadata with the record of a piece, or without any record. -/
def KeepsOrLoses (piece : ExactReconstructionPiece) (metadata : Dict) : Prop :=
  getKey metadata exactReconstructionKey = none ∨
    getKey metadata exactReconstructionKey = some (.obj (metadataForPiece piece))

/-- Whether the text row of a chunk still has a record. -/
def ScopeRow.keepsPiece (row : ScopeRow) : Bool :=
  (getKey row.textBlockMeta exactReconstructionKey).isSome

/-- The pieces that rows still have. -/
def keptPieces (rows : List ScopeRow) (pieces : List ExactReconstructionPiece) :
    List (Option ExactReconstructionPiece) :=
  List.zipWith (fun row piece ↦ if row.keepsPiece then some piece else none) rows pieces

section Reading

variable {piece : ExactReconstructionPiece} {row : ScopeRow} {rows : List ScopeRow}
  {pieces : List ExactReconstructionPiece}

/-- The rows of a document whose chunk rows have no record, and whose text rows have that of their
publication or none. -/
def Recorded (rows : List ScopeRow) (pieces : List ExactReconstructionPiece) : Prop :=
  List.Forall₂ (fun row piece ↦ getKey row.chunkBlockMeta exactReconstructionKey = none ∧
    KeepsOrLoses piece row.textBlockMeta) rows pieces

/-- What is selected for a row is the recorded piece, as long as the row keeps it. -/
theorem selected_of_keepsOrLoses (hplain : getKey row.chunkBlockMeta exactReconstructionKey = none)
    (hrecord : KeepsOrLoses piece row.textBlockMeta) :
    row.selected = .ok (if row.keepsPiece then some piece else none) := by
  rw [ScopeRow.selected, selectExactReconstructionPiece_of_absent hplain, ScopeRow.keepsPiece]
  rcases hrecord with hnone | hsome
  · rw [pieceOf_eq_none hnone, hnone]
    rfl
  · rw [pieceOf, hsome]
    simp only [parsePiece_metadataForPiece, Option.isSome_some, if_true]
    rfl

theorem Recorded.map_selected (hrecorded : Recorded rows pieces) :
    rows.map ScopeRow.selected = (keptPieces rows pieces).map .ok := by
  induction hrecorded with
  | nil => rfl
  | cons hrow _ ih =>
    rw [List.map_cons, ih, selected_of_keepsOrLoses hrow.1 hrow.2]
    rfl

theorem Recorded.selected (hrecorded : Recorded rows pieces) : ∀ row ∈ rows,
    ∃ piece, row.selected = .ok (if row.keepsPiece then some piece else none) := by
  induction hrecorded with
  | nil => simp
  | cons hrow _ ih =>
    exact List.forall_mem_cons.mpr ⟨⟨_, selected_of_keepsOrLoses hrow.1 hrow.2⟩, ih⟩

theorem Recorded.keptPieces_of_forall (hrecorded : Recorded rows pieces)
    (hkept : ∀ row ∈ rows, row.keepsPiece = true) : keptPieces rows pieces = pieces.map some := by
  induction hrecorded with
  | nil => rfl
  | cons _ _ ih =>
    obtain ⟨hrow, hrows⟩ := List.forall_mem_cons.mp hkept
    rw [List.map_cons, ← ih hrows, keptPieces, List.zipWith_cons_cons, if_pos hrow]
    rfl

/-- Without any piece the reader joins the texts of the rows. -/
theorem scopeText_of_lost (hnodup : (rows.map ScopeRow.chunkId).Nodup)
    (hlost : ∀ row ∈ rows, row.selected = .ok none) :
    scopeText rows = .ok (joinScopeRows [] none rows) := by
  obtain ⟨collected, hcollect⟩ := collectRowPieces_total (fun row hmem ↦ ⟨none, hlost row hmem⟩) {}
  have hspec := collectRowPieces_spec hnodup (fun _ _ ↦ rfl) hcollect
  have hnone : rows.countP (fun row ↦ (getKey collected.pieces row.chunkId).isSome) = 0 := by
    refine List.countP_eq_zero.mpr fun row hmem ↦ ?_
    have hselected := (hspec.selected row hmem).symm.trans (hlost row hmem)
    rw [Except.ok.inj hselected]
    exact Bool.false_ne_true
  have hpieces : collected.pieces = [] := by
    have hlength := hspec.length
    rw [hnone] at hlength
    exact List.length_eq_zero_iff.mp hlength
  refine bind_eq_ok.mpr ⟨collected, hcollect, bind_eq_ok.mpr ⟨(), ?_, ?_⟩⟩
  · exact checkScopePieces_eq_ok.mpr (.inl hpieces)
  · simp only [hpieces, List.isEmpty_nil, if_true, List.append_nil]
    rfl

/-- Rows some of which have a piece and some of which have none are refused. -/
theorem scopeText_of_mixed (hnodup : (rows.map ScopeRow.chunkId).Nodup)
    (hselected : ∀ row ∈ rows, ∃ piece, row.selected = .ok piece)
    (hkept : ∃ row ∈ rows, ∃ piece, row.selected = .ok (some piece))
    (hlost : ∃ row ∈ rows, row.selected = .ok none) :
    selectExactPieces rows =
      .error (.value "mixed legacy and exact reconstruction metadata") := by
  obtain ⟨collected, hcollect⟩ := collectRowPieces_total hselected {}
  have hspec := collectRowPieces_spec hnodup (fun _ _ ↦ rfl) hcollect
  have hexact : collected.pieces.isEmpty = false := by
    obtain ⟨row, hmem, piece, hpiece⟩ := hkept
    have hfound := Except.ok.inj ((hspec.selected row hmem).symm.trans hpiece)
    rw [Bool.eq_false_iff]
    intro hempty
    rw [List.isEmpty_iff.mp hempty] at hfound
    cases hfound
  have hlegacy : collected.legacyRows ≠ 0 := by
    obtain ⟨row, hmem, hnone⟩ := hlost
    have hmissing := Except.ok.inj ((hspec.selected row hmem).symm.trans hnone)
    have hpositive : 0 < rows.countP fun row ↦ (getKey collected.pieces row.chunkId).isNone :=
      List.countP_pos_iff.mpr ⟨row, hmem, by rw [hmissing]; rfl⟩
    rw [hspec.legacyRows]
    exact (Nat.lt_of_lt_of_le hpositive (Nat.le_add_left _ _)).ne'
  have hraise : checkServicePieces collected rows =
      .error (.value "mixed legacy and exact reconstruction metadata") := by
    simp [checkServicePieces, hexact, hlegacy, raiseIf]
    rfl
  rw [selectExactPieces, hcollect]
  show (checkServicePieces collected rows >>= fun _ ↦ Except.ok collected.pieces) = _
  rw [hraise]
  rfl

end Reading

/-! ### Runs of edits -/

/-- The rows of a document as its publication wrote them, each with the piece that was recorded for
it: they stand at their places, no record is in the row of a chunk, and a text row or a version has
the record of its publication or none. -/
structure Editable (host : Host) (documentId : Uuid)
    (sentences : List ((Uuid × Uuid) × ExactReconstructionPiece)) (db : Db) : Prop where
  keys : (db.semanticChunks.map fun row ↦ row.id).Nodup
  covered : HasTexts db documentId
  places : (joinedRows host db documentId).map ChunkTextRow.place = sentences.map Prod.fst
  plain : ∀ sentence ∈ sentences, ∀ chunk ∈ db.semanticChunks, chunk.id = sentence.1.1 →
    pieceRecord chunk.blockMeta = none
  records : ∀ sentence ∈ sentences, ∀ record, db.HasRecord sentence.1.1 record →
    record = none ∨ record = some (.obj (metadataForPiece sentence.2))

section Runs

variable {host : Host} {db next : Db} {documentId : Uuid}
  {sentences : List ((Uuid × Uuid) × ExactReconstructionPiece)}

/-- An edit brings no record to a chunk that was not there. -/
theorem EditEffect.hasRecord (heffect : EditEffect db next) {chunkUuid : Uuid}
    {record : Option Json} (hrecord : next.HasRecord chunkUuid record) :
    db.HasRecord chunkUuid record := by
  cases hrecord with
  | none => exact .none
  | text hrow hchunk => exact hchunk ▸ heffect.texts _ hrow
  | version hmem hchunk => exact hchunk ▸ heffect.versions _ hmem
  | chunk hrow hchunk =>
    obtain ⟨change, hchange, hsame⟩ := heffect.chunks
    rw [hchange] at hrow
    obtain ⟨old, hold, rfl⟩ := List.mem_map.mp hrow
    rw [(hsame old hold).record]
    exact .chunk hold ((hsame old hold).id.symm.trans hchunk)

theorem Editable.of_effect (heditable : Editable host documentId sentences db)
    (heffect : EditEffect db next) : Editable host documentId sentences next := by
  obtain ⟨change, hchange, hsame⟩ := heffect.chunks
  have hids : next.semanticChunks.map (fun row ↦ row.id) =
      db.semanticChunks.map fun row ↦ row.id := by
    rw [hchange, List.map_map]
    exact List.map_congr_left fun row hrow ↦ (hsame row hrow).id
  refine ⟨hids ▸ heditable.keys, ?_, (heffect.places heditable.covered).trans heditable.places,
    ?_, fun sentence hsentence record hrecord ↦
      heditable.records sentence hsentence record (heffect.hasRecord hrecord)⟩
  · intro edited hedited hdocument hlive
    rw [hchange] at hedited
    obtain ⟨chunk, hchunk, rfl⟩ := List.mem_map.mp hedited
    obtain ⟨hid, hsameDocument, -, -, -, hsameLive, -⟩ := hsame chunk hchunk
    rw [hid]
    exact heffect.covered chunk.id (heditable.covered chunk hchunk
      (hsameDocument.symm.trans hdocument) (hsameLive.symm.trans hlive))
  · intro sentence hsentence edited hedited hid
    rw [hchange] at hedited
    obtain ⟨chunk, hchunk, rfl⟩ := List.mem_map.mp hedited
    rw [(hsame chunk hchunk).record]
    exact heditable.plain sentence hsentence chunk hchunk ((hsame chunk hchunk).id.symm.trans hid)

/-- A run of edits keeps the records apart. -/
theorem Editable.of_run (heditable : Editable host documentId sentences db)
    (hrun : Steps (fun tables change ↦ toOption (TextChange.apply host change tables))
      (fun _ change ↦ change.IsEdit) db next) : Editable host documentId sentences next := by
  refine hrun.invariant (motive := Editable host documentId sentences) heditable ?_
  intro tables change result htables hedit hstep
  exact htables.of_effect (editEffect_of_apply htables.keys hedit (toOption_eq_some.mp hstep))

/-- What a joined row says of the metadata of its chunk and its text. -/
theorem metadata_of_mem_joinedRows {row : ChunkTextRow}
    (hrow : row ∈ joinedRows host db documentId) :
    (∃ chunk ∈ db.semanticChunks, chunk.id = row.chunkId ∧ row.chunkBlockMeta = chunk.blockMeta) ∧
      db.HasRecord row.chunkId (pieceRecord row.textBlockMeta) := by
  obtain ⟨joined, hmem, rfl⟩ := List.mem_map.mp hrow
  rw [List.mem_insertionSort] at hmem
  obtain ⟨chunk, hchunk, hjoin⟩ := List.mem_filterMap.mp hmem
  have hchunk := (List.mem_filter.mp hchunk).1
  simp only [joinChunk, Option.bind_eq_bind, Option.bind_eq_some_iff] at hjoin
  obtain ⟨text, htext, _, -, _, -, _, -, hjoin⟩ := hjoin
  split at hjoin
  next =>
    cases hjoin
    exact ⟨⟨chunk, hchunk, rfl, rfl⟩, .text (mem_of_lookup htext).1 (mem_of_lookup htext).2⟩
  next => cases hjoin

/-- The rows of an edited document are recorded. -/
theorem Editable.recorded (heditable : Editable host documentId sentences db) :
    Recorded ((joinedRows host db documentId).map ChunkTextRow.toScopeRow)
      (sentences.map Prod.snd) := by
  have hplaced : List.Forall₂ (fun row sentence ↦ ChunkTextRow.place row = sentence.1)
      (joinedRows host db documentId) sentences := by
    have hsame := heditable.places
    rw [← List.forall₂_eq_eq_eq, List.forall₂_map_left_iff, List.forall₂_map_right_iff] at hsame
    exact hsame
  rw [Recorded, List.forall₂_map_left_iff, List.forall₂_map_right_iff]
  obtain ⟨hlength, hplaced⟩ := List.forall₂_iff_zip.mp hplaced
  refine List.forall₂_iff_zip.mpr ⟨hlength, fun {row sentence} hmem ↦ ?_⟩
  obtain ⟨hrow, hsentence⟩ := List.of_mem_zip hmem
  have hchunkId : row.chunkId = sentence.1.1 := congrArg Prod.fst (hplaced hmem)
  obtain ⟨⟨chunk, hchunk, hid, hmeta⟩, hrecord⟩ := metadata_of_mem_joinedRows hrow
  refine ⟨?_, heditable.records sentence hsentence _ (hchunkId ▸ hrecord)⟩
  rw [hmeta]
  exact heditable.plain sentence hsentence chunk hchunk (hid.trans hchunkId)

end Runs

/-! ### What a publication starts with -/

/-- What is recorded for the sentences of a plan. -/
def recordedSentences (ids : PublicationIds) (paragraphs : List PlannedParagraph) :
    List ((Uuid × Uuid) × ExactReconstructionPiece) :=
  (placedSentences 0 paragraphs).map fun placed ↦
    ((placed.entry.1.uuid, ids.paragraphId placed.orderIndex), placed.entry.2)

section Publishing

variable {host : Host} {ids : PublicationIds} {plan : PersistencePlan} {db middle next : Db}
  {paragraphs : List PlannedParagraph}

/-- A joined row has the metadata of a text row. -/
theorem textRow_of_joinChunk {chunk : SemanticChunkRow} {joined : OrderKey × ChunkTextRow}
    (hjoin : joinChunk host db chunk = some joined) : ∃ text, db.textRow chunk.id = some text ∧
      joined.2.chunkId = chunk.id ∧ joined.2.textBlockMeta = text.blockMeta := by
  simp only [joinChunk, Option.bind_eq_bind, Option.bind_eq_some_iff] at hjoin
  obtain ⟨text, htext, _, -, _, -, _, -, hjoin⟩ := hjoin
  split at hjoin
  next =>
    cases hjoin
    exact ⟨text, htext, rfl, rfl⟩
  next => cases hjoin

/-- The sentences of a written plan have distinct keys, which no older row has. -/
theorem uuids_of_grown (hgrown : Grown middle next (hierarchyParagraphs host ids plan 0 paragraphs)
      (hierarchySentences host ids plan 0 paragraphs)) (hnext : next.Consistent) :
    ((placedSentences 0 paragraphs).map fun placed ↦ placed.entry.1.uuid).Nodup ∧
      ∀ placed ∈ placedSentences 0 paragraphs, placed.entry.1.uuid ∉ middle.registry := by
  obtain ⟨-, hnew, hfresh⟩ := List.nodup_append.mp (hgrown.registered.nodup_iff.mp hnext.registry)
  obtain ⟨-, hsentences, -⟩ := List.nodup_append.mp hnew
  have hids : ((hierarchySentences host ids plan 0 paragraphs).map fun rows ↦ rows.chunk.id) =
      (placedSentences 0 paragraphs).map fun placed ↦ placed.entry.1.uuid := by
    rw [hierarchySentences, List.map_map]
    rfl
  refine ⟨hids ▸ hsentences, fun placed hplaced hold ↦ ?_⟩
  exact hfresh _ hold _ (List.mem_append_right _ (hids ▸ List.mem_map_of_mem hplaced)) rfl

/-- A chunk of a sentence has no record in its own row. -/
theorem pieceRecord_chunk_rows (hmeta : getKey plan.docMeta exactReconstructionKey = none)
    (placed : PlacedSentence) : pieceRecord (placed.rows host ids plan).chunk.blockMeta = none := by
  have habsent := @getKey_chunkMeta host plan _
    (getKey_paragraphMeta host hmeta placed.orderIndex placed.paragraph) ids.chapterId
    (ids.paragraphId placed.orderIndex) placed.entry.1
  dsimp only [pieceRecord, PlacedSentence.rows, sentenceRows]
  exact habsent

/-- The first version of a sentence has the metadata of its chunk. -/
theorem blockMeta_version_rows (placed : PlacedSentence) :
    (placed.rows host ids plan).version.blockMeta =
      (placed.rows host ids plan).chunk.blockMeta := by
  dsimp only [PlacedSentence.rows, sentenceRows]

/-- The records that a written plan starts with. -/
theorem hasRecord_of_grown (hmiddle : middle.Consistent)
    (hgrown : Grown middle next (hierarchyParagraphs host ids plan 0 paragraphs)
      (hierarchySentences host ids plan 0 paragraphs)) (hnext : next.Consistent)
    (hmeta : getKey plan.docMeta exactReconstructionKey = none) {placed : PlacedSentence}
    (hplaced : placed ∈ placedSentences 0 paragraphs) {record : Option Json}
    (hrecord : next.HasRecord placed.entry.1.uuid record) :
    record = none ∨ record = some (.obj (metadataForPiece placed.entry.2)) := by
  obtain ⟨hnodup, hfresh⟩ := uuids_of_grown hgrown hnext
  have hold := hfresh placed hplaced
  have hself : ∀ other ∈ placedSentences 0 paragraphs,
      other.entry.1.uuid = placed.entry.1.uuid → other = placed :=
    fun other hother hsame ↦ List.inj_on_of_nodup_map hnodup hother hplaced hsame
  cases hrecord with
  | none => exact .inl rfl
  | text hrow hchunk =>
    rw [hgrown.texts, hierarchySentences, List.map_map] at hrow
    rcases List.mem_append.mp hrow with hrow | hrow
    · exact absurd (hchunk ▸ hmiddle.texts _ hrow) hold
    · obtain ⟨other, hother, rfl⟩ := List.mem_map.mp hrow
      rw [hself other hother hchunk]
      exact .inr (getKey_setKey_self _ _ _)
  | version hmem hchunk =>
    obtain ⟨version, hversion, rfl⟩ := List.mem_map.mp hmem
    rw [hgrown.versions, hierarchySentences, List.map_map] at hversion
    rcases List.mem_append.mp hversion with hversion | hversion
    · exact absurd (hchunk ▸ (hmiddle.versions _ hversion).1) hold
    · obtain ⟨other, hother, rfl⟩ := List.mem_map.mp hversion
      dsimp only [Function.comp_apply]
      rw [blockMeta_version_rows]
      exact .inl (pieceRecord_chunk_rows hmeta other)
  | chunk hrow hchunk =>
    rw [hgrown.chunks, hierarchySentences, List.map_map] at hrow
    rcases List.mem_append.mp hrow with hrow | hrow
    · exact absurd (hchunk ▸ (hmiddle.chunks _ hrow).1) hold
    · obtain ⟨other, hother, rfl⟩ := List.mem_map.mp hrow
      exact .inl (pieceRecord_chunk_rows hmeta other)

/-- The chunks stay distinct when a plan is written. -/
theorem nodup_chunkIds_of_writeHierarchy (hdb : db.Consistent)
    (hkeys : (db.semanticChunks.map fun row ↦ row.id).Nodup) {primarySourceId : Uuid}
    (hwrite : writeHierarchy host ids plan primarySourceId paragraphs db = .ok next) :
    (next.semanticChunks.map fun row ↦ row.id).Nodup := by
  have hids := (writesOnly_of_writeHierarchy hwrite).ids
  obtain ⟨middle, hprepare, hwrite⟩ := bind_eq_ok.mp hwrite
  have hmiddle := prepared_of_prepareHierarchy hdb hprepare
  obtain ⟨hnext, hgrown⟩ := grown_of_writeParagraphs hmiddle.consistent hmiddle.registered hwrite
  obtain ⟨hnodup, hfresh⟩ := uuids_of_grown hgrown hnext
  have huuids : ((plannedSentences paragraphs).map fun entry ↦ entry.1.uuid) =
      (placedSentences 0 paragraphs).map fun placed ↦ placed.entry.1.uuid := by
    rw [← map_entry_placedSentences 0, List.map_map]
    rfl
  have hold : middle.semanticChunks.map (fun row ↦ row.id) =
      db.semanticChunks.map fun row ↦ row.id := by
    rw [hgrown.chunks, List.map_append, huuids, hierarchySentences, List.map_map,
      List.map_map] at hids
    exact List.append_cancel_right hids
  rw [hids, huuids, ← hold]
  refine List.nodup_append.mpr ⟨hold ▸ hkeys, hnodup, fun id hid uuid huuid heq ↦ ?_⟩
  obtain ⟨chunk, hchunk, rfl⟩ := List.mem_map.mp hid
  obtain ⟨placed, hplaced, rfl⟩ := List.mem_map.mp huuid
  exact hfresh placed hplaced (heq ▸ (hmiddle.consistent.chunks chunk hchunk).1)

/-- A written plan can be edited. -/
theorem editable_of_writeHierarchy (hdb : db.Consistent)
    (hkeys : (db.semanticChunks.map fun row ↦ row.id).Nodup)
    (hlive : documentDeleted db plan.documentId = false)
    (hmeta : getKey plan.docMeta exactReconstructionKey = none) {textValue : Text}
    (hplan : ExactPlan textValue paragraphs) {primarySourceId : Uuid}
    (hwrite : writeHierarchy host ids plan primarySourceId paragraphs db = .ok next) :
    Editable host plan.documentId (recordedSentences ids paragraphs) next := by
  have hnextKeys := nodup_chunkIds_of_writeHierarchy hdb hkeys hwrite
  obtain ⟨middle, hprepare, hwrite⟩ := bind_eq_ok.mp hwrite
  have hmiddle := prepared_of_prepareHierarchy hdb hprepare
  obtain ⟨hnext, hgrown⟩ := grown_of_writeParagraphs hmiddle.consistent hmiddle.registered hwrite
  have hwritten : ∀ placed ∈ placedSentences 0 paragraphs,
      (placed.rows host ids plan).chunk ∈ next.semanticChunks := by
    intro placed hplaced
    rw [hgrown.chunks, hierarchySentences, List.map_map]
    exact List.mem_append_right _ (List.mem_map_of_mem hplaced)
  refine ⟨hnextKeys, ?_, ?_, ?_, ?_⟩
  · intro chunk hchunk hdocument hchunkLive
    rw [hgrown.chunks, hierarchySentences, List.map_map] at hchunk
    rcases List.mem_append.mp hchunk with hchunk | hchunk
    · have hdeleted := hmiddle.chunks chunk hchunk hdocument
      simp [Lifecycle.isLive, Option.isSome_iff_ne_none.mp hdeleted] at hchunkLive
    · obtain ⟨placed, hplaced, rfl⟩ := List.mem_map.mp hchunk
      obtain ⟨joined, hjoin, -⟩ :=
        Option.map_eq_some_iff.mp (joinChunk_of_grown hmiddle hgrown hnext hlive hplaced)
      obtain ⟨text, htext, -⟩ := textRow_of_joinChunk hjoin
      exact Option.isSome_iff_exists.mpr ⟨text, htext⟩
  · have hrows := congrArg (List.map fun row : ScopeRow ↦ (row.chunkId, row.paragraphId))
      (joinedRows_of_grown hmiddle hgrown hnext hlive hplan)
    rw [List.map_map, hierarchySentences, List.map_map, List.map_map] at hrows
    rw [recordedSentences, List.map_map]
    exact hrows
  · intro sentence hsentence chunk hchunk hid
    obtain ⟨placed, hplaced, rfl⟩ := List.mem_map.mp hsentence
    obtain rfl := List.inj_on_of_nodup_map hnextKeys hchunk (hwritten placed hplaced) hid
    exact pieceRecord_chunk_rows hmeta placed
  · intro sentence hsentence record hrecord
    obtain ⟨placed, hplaced, rfl⟩ := List.mem_map.mp hsentence
    exact hasRecord_of_grown hmiddle.consistent hgrown hnext hmeta hplaced hrecord

end Publishing

/-! ### The text of an edited document -/

/-- A source in which the texts of its sentences are replaced, except where the source says
something else than the published sentence: there it keeps what it says. -/
def spellEdited (source : Text) : ℕ → List ((Text × ℕ × ℕ) × Text) → Text
  | cursor, [] => slice source cursor source.length
  | cursor, ((published, start, stop), current) :: rest =>
    slice source cursor start ++
      (if slice source start stop = published then current else slice source start stop) ++
        spellEdited source stop rest

/-- What a document is read as when its rows have the pieces of its publication or none: with all of
them its source around the current texts, without any the texts with separators, and with some of
them nothing. -/
structure ReadsEdited (host : Host) (documentId : Uuid) (source : Text)
    (sentences : List RuntimeChunk) (db : Db) : Prop where
  chunks : (joinedRows host db documentId).map (fun row ↦ row.chunkId) =
    sentences.map RuntimeChunk.uuid
  exact : (∀ row ∈ joinedRows host db documentId, row.keepsPiece = true) →
    currentText host db documentId = some (spellEdited source 0
      ((sentences.map RuntimeChunk.exactInput).zip
        ((joinedRows host db documentId).map fun row ↦ row.text)))
  legacy : (∀ row ∈ joinedRows host db documentId, row.keepsPiece = false) →
    currentText host db documentId =
      some (joinScopeRows [] none ((joinedRows host db documentId).map ChunkTextRow.toScopeRow))
  mixed : (∃ row ∈ joinedRows host db documentId, row.keepsPiece = true) →
    (∃ row ∈ joinedRows host db documentId, row.keepsPiece = false) → ∀ maxChars limit,
      (joinedRows host db documentId).length ≤ limit →
        reconstructSourceFile host db documentId maxChars limit =
          .error (.value "mixed legacy and exact reconstruction metadata")

section EditedTexts

variable {host : Host} {ids : PublicationIds} {db next : Db} {documentId : Uuid} {source : Text}
  {paragraphs : List PlannedParagraph}

/-- The slots of the pieces, with the texts that stand there now. -/
theorem flatten_emit_current {cursor : ℕ} {inputs : List (Text × ℕ × ℕ)} {texts : List Text}
    (hlength : texts.length = inputs.length) :
    (List.zipWith (fun text piece ↦ ExactReconstructionPiece.emit piece text) texts
        (exactPieces source cursor inputs)).flatten ++
          slice source (lastStop cursor (inputs.map Prod.snd)) source.length =
      spellEdited source cursor (inputs.zip texts) := by
  induction inputs generalizing cursor texts with
  | nil =>
    obtain rfl := List.length_eq_zero_iff.mp hlength
    rfl
  | cons input inputs ih =>
    obtain ⟨published, start, stop⟩ := input
    cases texts with
    | nil => cases hlength
    | cons text texts =>
      have hslot : (if slice source start stop = published then none
          else some (slice source start stop)).getD text =
            if slice source start stop = published then text else slice source start stop := by
        split <;> rfl
      rw [exactPieces, List.zipWith_cons_cons, List.flatten_cons, List.append_assoc,
        List.zip_cons_cons, spellEdited, ← ih (Nat.succ.inj hlength), ExactReconstructionPiece.emit,
        hslot]
      rfl

/-- Rows that keep all pieces of an exact plan spell the source around their texts. -/
theorem scopeText_of_kept {rows : List ScopeRow} (hnodup : (rows.map ScopeRow.chunkId).Nodup)
    (hplan : ExactPlan source paragraphs)
    (hrecorded : Recorded rows ((plannedSentences paragraphs).map Prod.snd))
    (hkept : ∀ row ∈ rows, row.keepsPiece = true) :
    scopeText rows = .ok (spellEdited source 0
      (((plannedSentences paragraphs).map fun entry ↦ entry.1.exactInput).zip
        (rows.map ScopeRow.text))) := by
  set inputs := (plannedSentences paragraphs).map fun entry ↦ entry.1.exactInput with hinputs
  have hranges : (plannedSentences paragraphs).map (fun entry ↦ entry.1.range) =
      inputs.map Prod.snd := by
    rw [hinputs, List.map_map]
    rfl
  have hpieces := hplan.pieces
  rw [hranges, ← hinputs] at hpieces
  have hlength : (rows.map ScopeRow.text).length = inputs.length := by
    have hsame := hrecorded.length_eq
    rwa [hinputs, List.length_map, List.length_map, ← List.length_map Prod.snd]
  have hne : exactPieces source 0 inputs ≠ [] := by
    rw [← List.length_pos_iff, length_exactPieces, hinputs, List.length_map, List.length_pos_iff]
    exact hplan.nonempty
  set suffix := slice source (lastStop 0 (inputs.map Prod.snd)) source.length with hsuffix
  have hsealed := sealLast_eq_append hne suffix
  have hselected : rows.map ScopeRow.selected =
      (sealLast suffix (exactPieces source 0 inputs)).map fun piece ↦ .ok (some piece) := by
    rw [hrecorded.map_selected, hrecorded.keptPieces_of_forall hkept, hpieces, List.map_map]
    rfl
  have hrows := @scopeText_of_exact rows _ _ suffix hnodup (hsealed ▸ hselected)
    (fun piece hmem ↦ suffixAfter_of_mem_exactPieces (List.dropLast_subset _ hmem)) rfl
  rw [hrows, ← hsealed, zipWith_emit_sealLast, ← flatten_emit_current hlength,
    List.zipWith_map_left]

/-- The rows of a document have distinct chunks. -/
theorem nodup_joinedRows (hkeys : (db.semanticChunks.map fun row ↦ row.id).Nodup) :
    ((joinedRows host db documentId).map fun row ↦ row.chunkId).Nodup := by
  have hperm : ((joinedRows host db documentId).map fun row ↦ row.chunkId).Perm
      (((db.semanticChunks.filter fun chunk ↦ chunk.documentId = documentId).filterMap
        (joinChunk host db)).map fun joined ↦ joined.2.chunkId) := by
    rw [joinedRows, List.map_map]
    exact (List.perm_insertionSort _ _).map _
  refine hperm.nodup_iff.mpr ((map_filterMap_sublist chunkId_of_joinChunk _).nodup ?_)
  exact (List.filter_sublist.map _).nodup hkeys

/-- What the integrity reader returns for a document with rows is its text. -/
theorem currentText_of_scopeText {text : Text}
    (hkeys : (db.semanticChunks.map fun row ↦ row.id).Nodup)
    (hne : joinedRows host db documentId ≠ [])
    (hscope : scopeText ((joinedRows host db documentId).map ChunkTextRow.toScopeRow) = .ok text) :
    currentText host db documentId = some text := by
  obtain ⟨assembly, hassemble, rfl⟩ := assemble_of_scopeText host (nodup_joinedRows hkeys) hscope
  have hread : reconstructSourceFile host db documentId 0 (joinedRows host db documentId).length =
      .ok assembly := by
    refine raiseIf_bind_eq_ok.mpr ⟨?_, ?_⟩ <;> rw [List.take_length]
    · exact List.isEmpty_eq_false_iff.mpr hne
    · exact hassemble
  rw [currentText, hread, toOption_ok, Option.map_some]

/-- What a published document is read as after edits. -/
theorem Editable.reads (heditable : Editable host documentId (recordedSentences ids paragraphs) db)
    (hplan : ExactPlan source paragraphs) :
    ReadsEdited host documentId source ((plannedSentences paragraphs).map Prod.fst) db := by
  have hrecorded := heditable.recorded
  have hpieces : (recordedSentences ids paragraphs).map Prod.snd =
      (plannedSentences paragraphs).map Prod.snd := by
    rw [← map_entry_placedSentences 0, recordedSentences, List.map_map, List.map_map]
    rfl
  rw [hpieces] at hrecorded
  have hnodup : (((joinedRows host db documentId).map ChunkTextRow.toScopeRow).map
      ScopeRow.chunkId).Nodup := by
    rw [List.map_map]
    exact nodup_joinedRows heditable.keys
  have hlength : (joinedRows host db documentId).length = (plannedSentences paragraphs).length := by
    have hsame := hrecorded.length_eq
    rwa [List.length_map, List.length_map] at hsame
  have hne : joinedRows host db documentId ≠ [] := by
    rw [← List.length_pos_iff, hlength, List.length_pos_iff]
    exact hplan.nonempty
  have hselected := hrecorded.selected
  refine ⟨?_, fun hall ↦ ?_, fun hnone ↦ ?_, fun hsome hlost maxChars limit hlimit ↦ ?_⟩
  · have hids := congrArg (List.map Prod.fst) heditable.places
    rw [List.map_map, List.map_map, recordedSentences, List.map_map] at hids
    rw [← map_entry_placedSentences 0, List.map_map, List.map_map]
    exact hids
  · have hkept : ∀ row ∈ (joinedRows host db documentId).map ChunkTextRow.toScopeRow,
        row.keepsPiece = true :=
      List.forall_mem_map.mpr hall
    have hscope := scopeText_of_kept hnodup hplan hrecorded hkept
    rw [List.map_map] at hscope
    rw [List.map_map]
    exact currentText_of_scopeText heditable.keys hne hscope
  · refine currentText_of_scopeText heditable.keys hne (scopeText_of_lost hnodup fun row hrow ↦ ?_)
    obtain ⟨piece, hpiece⟩ := hselected row hrow
    obtain ⟨joined, hjoined, rfl⟩ := List.mem_map.mp hrow
    rw [hpiece, hnone joined hjoined]
    rfl
  · have hmixed : selectExactPieces ((joinedRows host db documentId).map ChunkTextRow.toScopeRow) =
        .error (.value "mixed legacy and exact reconstruction metadata") := by
      refine scopeText_of_mixed hnodup (fun row hrow ↦ ?_) ?_ ?_
      · obtain ⟨piece, hpiece⟩ := hselected row hrow
        exact ⟨_, hpiece⟩
      · obtain ⟨row, hrow, hkeeps⟩ := hsome
        obtain ⟨piece, hpiece⟩ := hselected _ (List.mem_map_of_mem hrow)
        exact ⟨_, List.mem_map_of_mem hrow, piece, by rw [hpiece, hkeeps]; rfl⟩
      · obtain ⟨row, hrow, hloses⟩ := hlost
        obtain ⟨piece, hpiece⟩ := hselected _ (List.mem_map_of_mem hrow)
        exact ⟨_, List.mem_map_of_mem hrow, by rw [hpiece, hloses]; rfl⟩
    dsimp only [reconstructSourceFile]
    rw [List.take_of_length_le hlimit, List.isEmpty_eq_false_iff.mpr hne]
    show assemble host (joinedRows host db documentId) maxChars = _
    rw [assemble, hmixed]
    rfl

end EditedTexts

/-! ### Reading an edited document -/

section Reading

variable {host : Host} {ids : PublicationIds} {request : NormalizedRequest} {db next : Db}
  {paragraphChunks sentenceChunks : List RuntimeChunk} {publication : Publication}

/-- Tables with the same hierarchy can be edited alike. -/
theorem Editable.withEvidence {documentId : Uuid}
    {sentences : List ((Uuid × Uuid) × ExactReconstructionPiece)}
    (heditable : Editable host documentId sentences db) (processingRuns : List ProcessingRun)
    (temporalAssertions : History) :
    Editable host documentId sentences { db with processingRuns, temporalAssertions } := by
  obtain ⟨change, hchange, hsame⟩ := exists_map_self db.semanticChunks SamePlace.refl
  exact heditable.of_effect ⟨rfl, rfl, exists_map_self _ SameParagraph.refl,
    ⟨change, hchange, fun row _ ↦ hsame row⟩, fun _ hcovered ↦ hcovered,
    fun _ hrow ↦ .text hrow rfl, fun _ hrecord ↦ .version hrecord rfl⟩

/-- A publication with an exact plan leaves the hierarchy that it has written. -/
theorem hierarchy_of_publish (hdb : db.Consistent)
    (hlive : documentDeleted db request.documentId = false)
    {paragraphs : List PlannedParagraph} (hplan : ExactPlan request.textValue paragraphs)
    (hplanned : exactSentencePlan request.textValue paragraphChunks sentenceChunks = .ok paragraphs)
    (hpublish : publish host ids request paragraphChunks sentenceChunks db = .ok publication) :
    ∃ hierarchy processingRuns temporalAssertions,
      writeHierarchy host ids (mapPlan host request)
        (resolvePrimarySource host (mapPlan host request) db) paragraphs db = .ok hierarchy ∧
      publication.db = { hierarchy with processingRuns, temporalAssertions } := by
  obtain ⟨-, hpublish⟩ := raiseIf_bind_eq_ok.mp hpublish
  obtain ⟨-, hpublish⟩ := raiseIf_bind_eq_ok.mp hpublish
  obtain ⟨planned, hplan', hpublish⟩ := bind_eq_ok.mp hpublish
  obtain rfl : paragraphs = planned := Except.ok.inj (hplanned.symm.trans hplan')
  obtain ⟨hierarchy, hwrite, hpublish⟩ := bind_eq_ok.mp hpublish
  obtain ⟨reconstructed, hreconstructed, hconclude⟩ := bind_eq_ok.mp hpublish
  obtain rfl : request.textValue = reconstructed := Except.ok.inj
    ((reconstructedScopeText_of_writeHierarchy hdb hlive (getKey_docMeta host request _ _) hplan
      hwrite).symm.trans hreconstructed)
  obtain ⟨recorded, hrecord, hconclude⟩ := bind_eq_ok.mp hconclude
  cases hconclude
  obtain ⟨kept, runs, assertions, hnext, ⟨-, rfl⟩ | ⟨hnot, -⟩⟩ := tables_of_recordVerdict hrecord
  · exact ⟨kept, runs, assertions, hwrite, hnext⟩
  · exact absurd (congrArg Prod.fst (integrityVerdict_self request.textValue)) hnot

/-- **Reading an edited document.** Whatever edits follow the publication of accepted chunks, the
document keeps its chunks in their order, and it is read as its source around the current texts when
no text row has lost its record, as its joined texts when each has, and not at all otherwise. -/
theorem readsEdited_of_run (hdb : db.Consistent)
    (hkeys : (db.semanticChunks.map fun row ↦ row.id).Nodup)
    (hlive : documentDeleted db request.documentId = false)
    {sourceId : Uuid} {rawParagraphs : RawResponse} {rawBatches : RawBatches}
    (hparagraphs : validateRuntimeChunks rawParagraphs request.textValue sourceId =
      .ok paragraphChunks)
    (hsentences : sentenceChunksFromParagraphBatch paragraphChunks sourceId rawBatches =
      .ok sentenceChunks)
    (hnodup : (sentenceChunks.map RuntimeChunk.uuid).Nodup)
    (hpublish : publish host ids request paragraphChunks sentenceChunks db = .ok publication)
    (hrun : Steps (fun tables change ↦ toOption (TextChange.apply host change tables))
      (fun _ change ↦ change.IsEdit) publication.db next) :
    ReadsEdited host request.documentId request.textValue sentenceChunks next := by
  obtain ⟨paragraphs, hplanned, -, rfl, hplan⟩ :=
    exactSentencePlan_eq_ok hparagraphs hsentences hnodup
  obtain ⟨hierarchy, runs, assertions, hwrite, htables⟩ :=
    hierarchy_of_publish hdb hlive hplan hplanned hpublish
  have heditable := (editable_of_writeHierarchy hdb hkeys hlive (getKey_docMeta host request _ _)
    hplan hwrite).withEvidence runs assertions
  rw [← htables] at heditable
  exact (heditable.of_run hrun).reads hplan

/-! ### Updates of entities alone -/

/-- An edit that is an update of an entity. -/
def TextChange.IsUpdate : TextChange → Prop
  | .version _ => False
  | change => change.IsEdit

/-- The text row of a chunk has a record. -/
def Db.KeepsRecord (db : Db) (chunkUuid : Uuid) : Prop :=
  ∃ row, db.textRow chunkUuid = some row ∧ (pieceRecord row.blockMeta).isSome = true

/-- The metadata that an update writes with a text keeps a record. -/
theorem pieceRecord_resetTextMeta {textMeta : Dict} (hrecord : (pieceRecord textMeta).isSome = true)
    (chunkMeta : Dict) :
    pieceRecord (resetTextMeta chunkMeta (some textMeta)) = pieceRecord textMeta := by
  rw [resetTextMeta, pieceRecord_resetSemanticChunkBlockMeta]
  rintro rfl
  cases hrecord

/-- An update of an entity keeps the records of all chunks. -/
theorem keepsRecord_of_apply {change : TextChange} (hupdate : change.IsUpdate)
    (happly : change.apply host db = .ok next) {id : Uuid} (hkeeps : db.KeepsRecord id) :
    next.KeepsRecord id := by
  cases change with
  | version => exact hupdate.elim
  | updateChunk call chunkUuid values =>
    obtain ⟨row, hrow, hrecord⟩ := hkeeps
    obtain ⟨chunk, hfound⟩ := exists_chunk_of_updateChunkValues happly
    have htables := textTables_of_updateChunkValues hfound happly
    split at htables
    next =>
      obtain ⟨-, -, -, -, htexts⟩ := TextTables.mk.inj htables
      refine ⟨row, ?_, hrecord⟩
      rw [Db.textRow, htexts]
      exact hrow
    next text hsome =>
      obtain ⟨-, -, -, -, htexts⟩ := TextTables.mk.inj htables
      by_cases hsame : id = chunkUuid
      · subst hsame
        rw [hrow, Option.map_some] at htexts
        obtain ⟨stored, hstored, -, hmeta⟩ := @textRow_storeText_self host id
          (assignChunkValues id values db) text
          (resetSemanticChunkBlockMeta (values.blockMeta.getD chunk.blockMeta))
          (resetTextMeta (values.blockMeta.getD chunk.blockMeta) (some row.blockMeta))
        refine ⟨stored, ?_, ?_⟩
        · rw [Db.textRow, htexts]
          exact hstored
        · rw [hmeta, pieceRecord_resetTextMeta hrecord]
          exact hrecord
      · refine ⟨row, ?_, hrecord⟩
        rw [Db.textRow, htexts]
        exact (textRow_storeText_of_ne hsame text _ _).trans hrow
  | updateParagraph paragraphId values =>
    obtain ⟨-, happly⟩ := raiseIf_bind_eq_ok.mp happly
    obtain ⟨-, happly⟩ := raiseIf_bind_eq_ok.mp happly
    obtain ⟨-, -, happly⟩ := bind_eq_ok.mp happly
    obtain ⟨-, happly⟩ := raiseIf_bind_eq_ok.mp happly
    cases happly
    exact hkeeps

/-- A written plan has a record in each of its text rows. -/
theorem keepsRecord_of_writeHierarchy {plan : PersistencePlan}
    {paragraphs : List PlannedParagraph} (hdb : db.Consistent)
    (hlive : documentDeleted db plan.documentId = false) {primarySourceId : Uuid}
    (hwrite : writeHierarchy host ids plan primarySourceId paragraphs db = .ok next) :
    ∀ sentence ∈ recordedSentences ids paragraphs, next.KeepsRecord sentence.1.1 := by
  obtain ⟨middle, hprepare, hwrite⟩ := bind_eq_ok.mp hwrite
  have hmiddle := prepared_of_prepareHierarchy hdb hprepare
  obtain ⟨hnext, hgrown⟩ := grown_of_writeParagraphs hmiddle.consistent hmiddle.registered hwrite
  intro sentence hsentence
  obtain ⟨placed, hplaced, rfl⟩ := List.mem_map.mp hsentence
  obtain ⟨joined, hjoin, hrow⟩ :=
    Option.map_eq_some_iff.mp (joinChunk_of_grown hmiddle hgrown hnext hlive hplaced)
  obtain ⟨text, htext, -, hmeta⟩ := textRow_of_joinChunk hjoin
  refine ⟨text, htext, ?_⟩
  have hscope : joined.2.textBlockMeta = (placed.rows host ids plan).scopeRow.textBlockMeta :=
    congrArg (fun entry : OrderKey × ScopeRow ↦ entry.2.textBlockMeta) hrow
  rw [← hmeta, hscope]
  dsimp only [pieceRecord, SentenceRows.scopeRow, PlacedSentence.rows, sentenceRows]
  rw [mergePieceMetadata, getKey_setKey_self]
  rfl

/-- Rows of chunks that keep their records have pieces. -/
theorem keepsPiece_of_keepsRecord {documentId : Uuid} {row : ChunkTextRow}
    (hrow : row ∈ joinedRows host db documentId) (hkeeps : db.KeepsRecord row.chunkId) :
    row.keepsPiece = true := by
  obtain ⟨joined, hmem, rfl⟩ := List.mem_map.mp hrow
  rw [List.mem_insertionSort] at hmem
  obtain ⟨chunk, -, hjoin⟩ := List.mem_filterMap.mp hmem
  obtain ⟨text, htext, hid, hmeta⟩ := textRow_of_joinChunk hjoin
  obtain ⟨stored, hstored, hrecord⟩ := hkeeps
  rw [hid, htext] at hstored
  obtain rfl := Option.some.inj hstored
  rw [ScopeRow.keepsPiece, hmeta]
  exact hrecord

/-- **Updates of entities do not break a document.** As long as the chunks and the paragraphs of a
published document are changed by updates of entities alone, it is read as its source, with the text
of each chunk in its place. -/
theorem currentText_of_updates (hdb : db.Consistent)
    (hkeys : (db.semanticChunks.map fun row ↦ row.id).Nodup)
    (hlive : documentDeleted db request.documentId = false)
    {sourceId : Uuid} {rawParagraphs : RawResponse} {rawBatches : RawBatches}
    (hparagraphs : validateRuntimeChunks rawParagraphs request.textValue sourceId =
      .ok paragraphChunks)
    (hsentences : sentenceChunksFromParagraphBatch paragraphChunks sourceId rawBatches =
      .ok sentenceChunks)
    (hnodup : (sentenceChunks.map RuntimeChunk.uuid).Nodup)
    (hpublish : publish host ids request paragraphChunks sentenceChunks db = .ok publication)
    (hrun : Steps (fun tables change ↦ toOption (TextChange.apply host change tables))
      (fun _ change ↦ change.IsUpdate) publication.db next) :
    currentText host next request.documentId = some (spellEdited request.textValue 0
      ((sentenceChunks.map RuntimeChunk.exactInput).zip
        ((joinedRows host next request.documentId).map fun row ↦ row.text))) := by
  obtain ⟨paragraphs, hplanned, -, rfl, hplan⟩ :=
    exactSentencePlan_eq_ok hparagraphs hsentences hnodup
  obtain ⟨hierarchy, runs, assertions, hwrite, htables⟩ :=
    hierarchy_of_publish hdb hlive hplan hplanned hpublish
  have heditable := (editable_of_writeHierarchy hdb hkeys hlive (getKey_docMeta host request _ _)
    hplan hwrite).withEvidence runs assertions
  rw [← htables] at heditable
  have hedits : Steps (fun tables change ↦ toOption (TextChange.apply host change tables))
      (fun _ change ↦ change.IsEdit) publication.db next := by
    refine hrun.mono fun _ change hupdate ↦ ?_
    cases change with
    | version => exact hupdate.elim
    | updateChunk => exact hupdate
    | updateParagraph => exact hupdate
  have hfinal := heditable.of_run hedits
  have hkept : ∀ sentence ∈ recordedSentences ids paragraphs, next.KeepsRecord sentence.1.1 := by
    refine hrun.invariant (motive := fun tables ↦
      ∀ sentence ∈ recordedSentences ids paragraphs, tables.KeepsRecord sentence.1.1) ?_ ?_
    · have hwritten := keepsRecord_of_writeHierarchy hdb hlive hwrite
      rw [htables]
      exact hwritten
    · intro tables change result hkeeps hupdate hstep sentence hsentence
      exact keepsRecord_of_apply hupdate (toOption_eq_some.mp hstep) (hkeeps sentence hsentence)
  refine (hfinal.reads hplan).exact fun row hrow ↦ keepsPiece_of_keepsRecord hrow ?_
  have hplace : row.place ∈ (recordedSentences ids paragraphs).map Prod.fst :=
    hfinal.places ▸ List.mem_map_of_mem hrow
  obtain ⟨sentence, hsentence, hsame⟩ := List.mem_map.mp hplace
  rw [← show sentence.1.1 = row.chunkId from congrArg Prod.fst hsame]
  exact hkept sentence hsentence

end Reading

/-! ### Edits of the small document -/

/-- The small document as it was published. -/
def samplePublication : Publication :=
  (toOption (publish sampleHost (sampleIds 1) sampleRequest sampleParagraphChunks
    sampleSentenceChunks {})).getD
      { db := {}, integrityOutcome := .matching, firstDifferenceOffset := none }

/-- What an edit of it leaves. -/
def afterEdit (change : TextChange) (db : Db) : Db :=
  (toOption (change.apply sampleHost db)).getD db

/-- An update of its first sentence. -/
def updatesFirstSentence : TextChange :=
  .updateChunk { now := 2, versionId := sampleUuid 900 } (sampleUuid 5) { text := some (lit "Xy") }

/-- A new version of its last sentence. -/
def appendsToLastSentence : TextChange :=
  .version
    { chunkUuid := sampleUuid 7
      call := { now := 3, versionId := sampleUuid 901 }
      operation := .appendVersion (lit "e") none }

theorem publish_samplePublication : publish sampleHost (sampleIds 1) sampleRequest
    sampleParagraphChunks sampleSentenceChunks {} = .ok samplePublication := by
  rw [samplePublication]
  exact eq_ok_of_succeeds (by decide +kernel)

theorem toOption_apply_afterEdit {change : TextChange} {db : Db}
    (hsucceeds : succeeds (change.apply sampleHost db) = true) :
    toOption (change.apply sampleHost db) = some (afterEdit change db) := by
  rw [toOption_eq_some, afterEdit]
  exact eq_ok_of_succeeds hsucceeds

/-- The updated sentence stands in its place. -/
theorem currentText_of_updates_sample :
    currentText sampleHost (afterEdit updatesFirstSentence samplePublication.db)
      sampleRequest.documentId = some (lit " Xy c\n\nd ") := by
  refine (currentText_of_updates Db.consistent_empty List.nodup_nil rfl (eq_ok_of_succeeds ?_)
    (eq_ok_of_succeeds ?_) ?_ publish_samplePublication
    (Steps.single updatesFirstSentence ⟨rfl, rfl, rfl⟩ (toOption_apply_afterEdit ?_))).trans ?_
  all_goals decide +kernel

/-- With a new version of another sentence it cannot be read. -/
theorem readsEdited_sample :
    reconstructSourceFile sampleHost (afterEdit appendsToLastSentence
        (afterEdit updatesFirstSentence samplePublication.db)) sampleRequest.documentId 0 3 =
      .error (.value "mixed legacy and exact reconstruction metadata") := by
  have hreads : ReadsEdited sampleHost sampleRequest.documentId sampleRequest.textValue
      sampleSentenceChunks (afterEdit appendsToLastSentence
        (afterEdit updatesFirstSentence samplePublication.db)) := by
    refine readsEdited_of_run Db.consistent_empty List.nodup_nil rfl (eq_ok_of_succeeds ?_)
      (eq_ok_of_succeeds ?_) ?_ publish_samplePublication
      ((Steps.single updatesFirstSentence ⟨rfl, rfl, rfl⟩ (toOption_apply_afterEdit ?_)).trans
        (Steps.single appendsToLastSentence trivial (toOption_apply_afterEdit ?_)))
    all_goals decide +kernel
  refine hreads.mixed ?_ ?_ 0 3 ?_ <;> decide +kernel

end DocStore
