import DocStore.Runtime.MetadataDryRun
import DocStore.Runtime.TextUpdates

/-!
# Agreement of the classifiers

Four writers set the classifiers of a chunk. A publication sets all six in all three places, an
update of the metadata the ones that it names. An update of the text of a chunk resets the status
and the category; the same call may replace the metadata as a whole, and leaves the other columns
and assignments as they are. The chunk repository replaces the metadata and the type of a chunk by
what it is given, and sets columns and assignments only when the text has changed.

So the three places agree in every run in which the last two are given the values that the chunk has
already, or values that they reset. `DocStore.Runtime.ClassifierRuns` has the runs.

The tags are left as they are here, and so are the foreign keys of a chunk.
-/

set_option autoImplicit false
set_option relaxedAutoImplicit false

namespace DocStore

open Foundation

/-! ### The writers -/

/-- A state with the tables of another one in front of the dictionaries. -/
def ClassifiedDb.withTables (db : ClassifiedDb) (tables : Db) : ClassifiedDb :=
  { db with toEntityDb := { db.toEntityDb with toDb := tables } }

/-- A publication, whose assignments repeat the columns that it writes. -/
def ClassifiedDb.publish (host : Host) (call : IngestionCall) (db : ClassifiedDb) :
    Except Failure ClassifiedDb := do
  let entities ← db.ingest host call
  let written := entities.chunkDictionaries.drop db.chunkDictionaries.length
  return { db with
    toEntityDb := entities
    assignments := upsertAll ChunkAssignment.key
      (written.map fun column ↦ { toChunkDictionary := column }) db.assignments }

/-- The values that a new text resets. -/
def resetEntries : List (DictionaryTable × Text) :=
  [(.chunkStatuses, resetStatus), (.categories, resetCategory)]

/-- `_set_processing_required`, and the same part of `_replace_semantic_chunk_text`. -/
def resetClassifiers (entryId : DictionaryTable → Text → Uuid) (chunkUuid : Uuid)
    (versionId : Option Uuid) (db : ClassifiedDb) : Except Failure ClassifiedDb := do
  let (ids, entities) ← db.dictionaryIds entryId resetEntries
  return { db with
    toEntityDb := { entities with
      chunkDictionaries := setColumns chunkUuid ids entities.chunkDictionaries }
    assignments := setAssignments chunkUuid versionId ids db.assignments }

/-- Whether the values of a chunk replace its text. -/
def TextValues.replacesText (values : TextValues) (chunkUuid : Uuid) (db : Db) : Bool :=
  (values.text.or values.body).any fun textValue ↦ db.chunkText chunkUuid ≠ some textValue

/-- `update_entity` of a chunk. -/
def ClassifiedDb.updateChunk (host : Host) (entryId : DictionaryTable → Text → Uuid)
    (call : TextCall) (chunkUuid : Uuid) (values : TextValues) (db : ClassifiedDb) :
    Except Failure ClassifiedDb := do
  let tables ← updateChunkValues host call chunkUuid values db.toDb
  let updated := db.withTables tables
  if values.replacesText chunkUuid db.toDb then
    resetClassifiers entryId chunkUuid (some call.versionId) updated
  else return updated

/-- `SemanticChunkRepository.upsert`. -/
def ClassifiedDb.upsertChunk (host : Host) (entryId : DictionaryTable → Text → Uuid)
    (root : RootRow) (db : ClassifiedDb) : Except Failure ClassifiedDb := do
  let tables ← DocStore.upsertChunk host root db.toDb
  let stored := db.withTables tables
  if rootTextChanged root db.toDb then
    resetClassifiers entryId root.id (stored.currentVersionId root.id) stored
  else return stored

/-! ### Steps -/

/-- An operation on the classifiers of chunks. Every writer comes with the `uuid4()` of the
dictionary entries that are not there yet. -/
inductive ClassifierAction where
  | publish (call : IngestionCall)
  | updateMetadata (entryId : DictionaryTable → Text → Uuid) (request : MetadataRequest)
  | updateChunk (entryId : DictionaryTable → Text → Uuid) (call : TextCall) (chunkUuid : Uuid)
      (values : TextValues)
  | upsert (entryId : DictionaryTable → Text → Uuid) (root : RootRow)

section Steps

variable (host : Host) (parseFloat : Text → Option PyFloat)

/-- What an operation leaves when it succeeds. -/
def ClassifierAction.apply (action : ClassifierAction) (db : ClassifiedDb) :
    Except Failure ClassifiedDb :=
  match action with
  | .publish call => db.publish host call
  | .updateMetadata entryId request =>
    (updateBatch host parseFloat entryId request false db).map Prod.snd
  | .updateChunk entryId call chunkUuid values =>
    db.updateChunk host entryId call chunkUuid values
  | .upsert entryId root => db.upsertChunk host entryId root

/-- One operation. -/
def classifierStep (db : ClassifiedDb) (action : ClassifierAction) : Option ClassifiedDb :=
  toOption (action.apply host parseFloat db)

end Steps

/-! ### The property -/

/-- The three places of a classifier name the same entry of its dictionary, and for the type its own
column does so, too. -/
def FieldAgrees (db : ClassifiedDb) (chunk : SemanticChunkRow)
    (classifier : String × DictionaryTable) : Prop :=
  ∃ row ∈ db.dictionaries, row.table = classifier.2 ∧
    getKey chunk.blockMeta classifier.1 = some (.str row.descr) ∧
    db.column chunk.id classifier.2 = some row.id ∧
    db.assignment chunk.id classifier.2 = some row.id ∧
    (classifier.2 = .chunkTypes → chunk.chunkType = row.descr)

/-- The classifiers of all chunks agree. -/
def ClassifiersAgree (db : ClassifiedDb) : Prop :=
  ∀ chunk ∈ db.semanticChunks, ∀ classifier ∈ semanticClassifierDictionaries,
    FieldAgrees db chunk classifier

/-! ### The condition -/

/-- Whether a new text resets the values of a dictionary. -/
def DictionaryTable.isReset (table : DictionaryTable) : Bool :=
  resetEntries.any fun entry ↦ entry.1 = table

/-- Metadata give the classifiers of a chunk the values that it has, apart from those that are
reset. -/
def KeepsFields (chunk : SemanticChunkRow) (given : Dict) (resets : Bool) : Prop :=
  ∀ classifier ∈ semanticClassifierDictionaries, resets && classifier.2.isReset ∨
    getKey given classifier.1 = getKey chunk.blockMeta classifier.1

instance (chunk : SemanticChunkRow) (given : Dict) (resets : Bool) :
    Decidable (KeepsFields chunk given resets) :=
  List.decidableBAll _ _

/-- Metadata that are given to a chunk as a whole keep its classifiers, and the chunk repository is
given a stored chunk with its type. -/
def KeepsClassifiers (db : ClassifiedDb) : ClassifierAction → Prop
  | .publish _ | .updateMetadata _ _ => True
  | .updateChunk _ _ chunkUuid values =>
    ∀ given ∈ values.blockMeta, ∀ chunk ∈ db.semanticChunks, chunk.id = chunkUuid →
      KeepsFields chunk given (values.replacesText chunkUuid db.toDb)
  | .upsert _ root =>
    ∃ chunk ∈ db.semanticChunks, chunk.id = root.id ∧ chunk.chunkType = root.chunkType ∧
      KeepsFields chunk root.blockMeta (rootTextChanged root db.toDb)

/-! ### What a writer does to a chunk -/

/-- What holds in every state of a run: the classifiers agree, and the chunks and their columns are
under registered UUIDs. -/
structure Classified (db : ClassifiedDb) : Prop where
  agree : ClassifiersAgree db
  distinct : (db.semanticChunks.map fun row ↦ row.id).Nodup
  chunks : ∀ chunk ∈ db.semanticChunks, chunk.id ∈ db.registry
  columns : ∀ column ∈ db.chunkDictionaries, column.chunkUuid ∈ db.registry

/-- A classifier of a chunk is left alone in all places, or set in all of them to an entry. -/
def FieldWritten (dictionaries : List DictionaryRow) (ids : List (DictionaryTable × Uuid))
    (before after : SemanticChunkRow) (classifier : String × DictionaryTable) : Prop :=
  (getKey ids.reverse classifier.2 = none ∧
    getKey after.blockMeta classifier.1 = getKey before.blockMeta classifier.1 ∧
    (classifier.2 = .chunkTypes → after.chunkType = before.chunkType)) ∨
  ∃ row ∈ dictionaries, row.table = classifier.2 ∧ getKey ids.reverse classifier.2 = some row.id ∧
    getKey after.blockMeta classifier.1 = some (.str row.descr) ∧
    (classifier.2 = .chunkTypes → after.chunkType = row.descr)

/-- One chunk that is stored is written, with some of its columns and the assignments for the same
entries. -/
structure WritesOneChunk (db next : ClassifiedDb) (chunkUuid : Uuid)
    (change : SemanticChunkRow → SemanticChunkRow) (ids : List (DictionaryTable × Uuid))
    (versionId : Option Uuid) : Prop where
  stored : ∃ chunk ∈ db.semanticChunks, chunk.id = chunkUuid
  chunks : next.semanticChunks = updateWhere (fun row ↦ row.id = chunkUuid) change db.semanticChunks
  keeps : ∀ row, (change row).id = row.id
  registry : ∀ id ∈ db.registry, id ∈ next.registry
  dictionaries : ∀ row ∈ db.dictionaries, row ∈ next.dictionaries
  columns : next.chunkDictionaries = setColumns chunkUuid ids db.chunkDictionaries
  assignments : next.assignments = setAssignments chunkUuid versionId ids db.assignments
  fields : ∀ chunk ∈ db.semanticChunks, chunk.id = chunkUuid →
    ∀ classifier ∈ semanticClassifierDictionaries,
      FieldWritten next.dictionaries ids chunk (change chunk) classifier

section OneChunk

variable {db next : ClassifiedDb} {chunkUuid : Uuid} {change : SemanticChunkRow → SemanticChunkRow}
  {ids : List (DictionaryTable × Uuid)} {versionId : Option Uuid}

/-- The column of a chunk behind a write. -/
theorem WritesOneChunk.column (hwrites : WritesOneChunk db next chunkUuid change ids versionId)
    (other : Uuid) (table : DictionaryTable) : next.column other table =
      (if other = chunkUuid then getKey ids.reverse table else none).or (db.column other table) := by
  rw [ClassifiedDb.column, hwrites.columns]
  exact map_lookup_upsertAll ChunkDictionary.key ChunkDictionary.dictionaryId _ (fun _ ↦ rfl)
    (fun _ ↦ rfl) ids db.chunkDictionaries other table

/-- The assignment of a chunk behind a write. -/
theorem WritesOneChunk.assignment (hwrites : WritesOneChunk db next chunkUuid change ids versionId)
    (other : Uuid) (table : DictionaryTable) : next.assignment other table =
      (if other = chunkUuid then getKey ids.reverse table else none).or
        (db.assignment other table) := by
  rw [ClassifiedDb.assignment, hwrites.assignments]
  exact map_lookup_upsertAll ChunkAssignment.key (fun row ↦ row.dictionaryId) _ (fun _ ↦ rfl)
    (fun _ ↦ rfl) ids db.assignments other table

/-- A write of one chunk keeps the agreement. -/
theorem WritesOneChunk.classified (hwrites : WritesOneChunk db next chunkUuid change ids versionId)
    (hdb : Classified db) : Classified next := by
  refine ⟨fun chunk hchunk classifier hclassifier ↦ ?_, ?_, fun chunk hchunk ↦ ?_,
    fun column hcolumn ↦ ?_⟩
  · rw [hwrites.chunks] at hchunk
    obtain ⟨old, hold, rfl⟩ := mem_updateWhere.mp hchunk
    obtain ⟨row, hrow, htable, hmeta, hcolumn, hassignment, htype⟩ :=
      hdb.agree old hold classifier hclassifier
    by_cases hid : old.id = chunkUuid
    · simp only [hid, decide_true, if_true]
      have hchanged : (change old).id = chunkUuid := (hwrites.keeps old).trans hid
      rcases hwrites.fields old hold hid classifier hclassifier with
        ⟨hnone, hsame, hsameType⟩ | ⟨named, hnamed, hnamedTable, hsome, hvalue, hnamedType⟩
      · refine ⟨row, hwrites.dictionaries row hrow, htable, hsame.trans hmeta, ?_, ?_,
          fun hequal ↦ (hsameType hequal).trans (htype hequal)⟩
        · rw [hwrites.column, hnone, ite_self, Option.none_or, hchanged, ← hid, hcolumn]
        · rw [hwrites.assignment, hnone, ite_self, Option.none_or, hchanged, ← hid, hassignment]
      · refine ⟨named, hnamed, hnamedTable, hvalue, ?_, ?_, hnamedType⟩
        · rw [hwrites.column, if_pos hchanged, hsome, Option.some_or]
        · rw [hwrites.assignment, if_pos hchanged, hsome, Option.some_or]
    · simp only [hid, decide_false, Bool.false_eq_true, if_false]
      refine ⟨row, hwrites.dictionaries row hrow, htable, hmeta, ?_, ?_, htype⟩
      · rw [hwrites.column, if_neg hid, Option.none_or, hcolumn]
      · rw [hwrites.assignment, if_neg hid, Option.none_or, hassignment]
  · rw [hwrites.chunks, map_updateWhere hwrites.keeps]
    exact hdb.distinct
  · rw [hwrites.chunks] at hchunk
    obtain ⟨old, hold, rfl⟩ := mem_updateWhere.mp hchunk
    refine hwrites.registry _ ?_
    split
    · rw [hwrites.keeps]
      exact hdb.chunks old hold
    · exact hdb.chunks old hold
  · rw [hwrites.columns] at hcolumn
    refine hwrites.registry _ ?_
    rcases mem_of_mem_upsertAll hcolumn with hnew | hold
    · obtain ⟨named, -, rfl⟩ := List.mem_map.mp hnew
      obtain ⟨chunk, hchunk, rfl⟩ := hwrites.stored
      exact hdb.chunks chunk hchunk
    · exact hdb.columns column hold

end OneChunk

/-! ### Updates of metadata -/

/-- The value that an update names for a classifier. -/
def MetadataPatch.value (patch : MetadataPatch) : DictionaryTable → Option Text
  | .chunkTypes => patch.type
  | .chunkRoles => patch.role
  | .chunkStatuses => patch.status
  | .blockTypes => patch.blockType
  | .languages => patch.language
  | .categories => patch.category

theorem MetadataPatch.mem_classifiers {patch : MetadataPatch} {table : DictionaryTable}
    {text : Text} : (table, text) ∈ patch.classifiers ↔ patch.value table = some text := by
  cases table <;>
    simp [classifiers, value, Option.map_eq_some_iff, eq_comm]

/-- The fields of a record that have a value, under their names. -/
theorem named_sublist {κ α β : Type} (make : α → β) (fields : List (κ × Option α)) :
    ((fields.filterMap fun field ↦ field.2.map fun value ↦ (field.1, make value)).map
      Prod.fst).Sublist (fields.map Prod.fst) := by
  refine map_filterMap_sublist (fun {field entry} hentry ↦ ?_) fields
  obtain ⟨value, -, rfl⟩ := Option.map_eq_some_iff.mp hentry
  rfl

theorem getKey_named {κ α β : Type} [DecidableEq κ] (make : α → β) {fields : List (κ × Option α)}
    (hnodup : (fields.map Prod.fst).Nodup) (name : κ) :
    getKey (fields.filterMap fun field ↦ field.2.map fun value ↦ (field.1, make value)) name =
      (getKey fields name).join.map make := by
  induction fields with
  | nil => rfl
  | cons field fields ih =>
    rw [List.map_cons, List.nodup_cons] at hnodup
    obtain ⟨other, value⟩ := field
    by_cases hname : other = name
    · cases value with
      | some value => simp [getKey, hname]
      | none =>
        have habsent : getKey fields name = none := getKey_eq_none.mpr fun entry hentry hequal ↦
          hnodup.1 (List.mem_map.mpr ⟨entry, hentry, hequal.trans hname.symm⟩)
        rw [List.filterMap_cons_none rfl, ih hnodup.2, habsent]
        simp [getKey, hname]
    · have hrest : getKey ((other, value) :: fields) name = getKey fields name := by
        simp [getKey, hname]
      rw [hrest, ← ih hnodup.2]
      cases value <;> simp [getKey, hname]

theorem MetadataPatch.nodup_classifiers (patch : MetadataPatch) :
    (patch.classifiers.map Prod.fst).Nodup := by
  have hsublist : (patch.classifiers.map Prod.fst).Sublist
      [DictionaryTable.chunkTypes, .chunkRoles, .chunkStatuses, .blockTypes, .languages,
        .categories] := named_sublist id _
  exact hsublist.nodup (by decide)

/-- The classifiers of an update under the names of their fields. -/
def MetadataPatch.classifierFields (patch : MetadataPatch) : List (String × Option Text) :=
  [("type", patch.type), ("role", patch.role), ("status", patch.status),
    ("block_type", patch.blockType), ("language", patch.language), ("category", patch.category)]

/-- What an update merges besides the classifiers. -/
def MetadataPatch.otherEntries (patch : MetadataPatch) : Dict :=
  (match patch.tags with
    | none => []
    | some tags => [("tags", .arr (tags.map .str)), ("tags_flat", .str (joinTexts (lit ", ") tags))])
    ++
  ((patch.summary.map fun value ↦ ("summary", Json.ofOption value)).toList ++
  ((patch.title.map fun value ↦ ("title", Json.ofOption value)).toList ++
  (patch.classification.map fun value ↦ ("classification", Json.obj value)).toList))

theorem MetadataPatch.entries_eq (patch : MetadataPatch) : patch.entries =
    (patch.classifierFields.filterMap fun field ↦
      field.2.map fun value ↦ (field.1, Json.str value)) ++ patch.otherEntries := by
  unfold entries
  rw [List.append_assoc, List.append_assoc, List.append_assoc]
  rfl

theorem MetadataPatch.otherEntries_sublist (patch : MetadataPatch) :
    (patch.otherEntries.map Prod.fst).Sublist
      ["tags", "tags_flat", "summary", "title", "classification"] := by
  have hoption : ∀ {α : Type} (field : Option α) (name : String) (make : α → Json),
      ((field.map fun value ↦ (name, make value)).toList.map Prod.fst).Sublist [name] := by
    intro α field name make
    cases field with
    | none => exact List.nil_sublist _
    | some value => exact List.Sublist.refl _
  unfold otherEntries
  rw [List.map_append, List.map_append, List.map_append]
  have hothers := (hoption patch.summary "summary" Json.ofOption).append
    ((hoption patch.title "title" Json.ofOption).append
      (hoption patch.classification "classification" Json.obj))
  refine List.Sublist.append (show List.Sublist _ ["tags", "tags_flat"] from ?_) hothers
  cases patch.tags with
  | none => exact List.nil_sublist _
  | some tags => exact List.Sublist.refl _

/-- What an update merges for a classifier. -/
theorem MetadataPatch.getKey_entries (patch : MetadataPatch) {classifier : String × DictionaryTable}
    (hclassifier : classifier ∈ semanticClassifierDictionaries) :
    getKey patch.entries.reverse classifier.1 = (patch.value classifier.2).map Json.str := by
  have hfields : (patch.classifierFields.map Prod.fst).Sublist
      ["type", "role", "status", "block_type", "language", "category"] := List.Sublist.refl _
  have hnamed := ((named_sublist Json.str patch.classifierFields).trans hfields).append
    patch.otherEntries_sublist
  rw [← List.map_append, ← patch.entries_eq] at hnamed
  have hapart : ∀ classifier ∈ semanticClassifierDictionaries,
      classifier.1 ∉ ["tags", "tags_flat", "summary", "title", "classification"] := by decide
  have hothers : getKey patch.otherEntries classifier.1 = none := by
    rw [getKey_eq_none]
    intro entry hentry hequal
    have hname := patch.otherEntries_sublist.subset (List.mem_map_of_mem hentry)
    exact hapart classifier hclassifier (hequal ▸ hname)
  have hvalue : ∀ classifier ∈ semanticClassifierDictionaries,
      (getKey patch.classifierFields classifier.1).join = patch.value classifier.2 := by
    simp [semanticClassifierDictionaries, classifierFields, getKey, value]
  rw [getKey_reverse (hnamed.nodup (by decide)), patch.entries_eq, getKey_append, hothers,
    Option.or_none, getKey_named Json.str (hfields.nodup (by decide)),
    hvalue classifier hclassifier]

section Updates

variable {host : Host} {parseFloat : Text → Option PyFloat}
  {entryId : DictionaryTable → Text → Uuid} {target : Uuid × ValidatedUpdates}
  {db next : ClassifiedDb} {report : ItemReport}

/-- What an update of the metadata of a chunk leaves. -/
theorem updateOne_eq_ok (hupdate : updateOne host entryId false target db = .ok (report, next)) :
    ∃ chunk textValue ids entities, db.joinedChunk target.1 = some (chunk, textValue) ∧
      db.dictionaryIds entryId target.2.classifiers = .ok (ids, entities) ∧
      next = writtenMetadata target.1 target.2 (updateKeys chunk.blockMeta target.2.entries) ids
        { db with toEntityDb := entities } := by
  unfold updateOne at hupdate
  split at hupdate
  · cases hupdate
  next chunk textValue hchunk =>
    obtain ⟨⟨ids, entities⟩, hids, hupdate⟩ := bind_eq_ok.mp hupdate
    rw [if_neg Bool.false_ne_true] at hupdate
    obtain ⟨written, hwrite, hupdate⟩ := bind_eq_ok.mp hupdate
    cases hupdate
    obtain ⟨-, hwrite⟩ := raiseIf_bind_eq_ok.mp hwrite
    obtain ⟨-, hwrite⟩ := raiseIf_bind_eq_ok.mp hwrite
    cases hwrite
    exact ⟨chunk, textValue, ids, entities, hchunk, hids, rfl⟩

/-- What an update does to a classifier of a chunk. -/
theorem fieldWritten_assign {updates : ValidatedUpdates} {before after : EntityDb}
    {ids : List (DictionaryTable × Uuid)} (hlooked : before.LookedUp after updates.classifiers ids)
    (chunk : SemanticChunkRow) {classifier : String × DictionaryTable}
    (hclassifier : classifier ∈ semanticClassifierDictionaries) :
    FieldWritten after.dictionaries ids chunk
      (updates.assign (updateKeys chunk.blockMeta updates.entries) chunk) classifier := by
  have hmerged : getKey (updateKeys chunk.blockMeta updates.entries) classifier.1 =
      ((updates.value classifier.2).map Json.str).or (getKey chunk.blockMeta classifier.1) := by
    rw [getKey_updateKeys, updates.getKey_entries hclassifier]
  cases hvalue : updates.value classifier.2 with
  | none =>
    rw [hvalue, Option.map_none, Option.none_or] at hmerged
    refine .inl ⟨hlooked.getKey_eq_none fun hmem ↦ ?_, hmerged, fun htype ↦ ?_⟩
    · obtain ⟨⟨table, text⟩, hentry, rfl⟩ := List.mem_map.mp hmem
      rw [MetadataPatch.mem_classifiers.mp hentry] at hvalue
      cases hvalue
    · have hnone : updates.type = none := by rw [htype] at hvalue; exact hvalue
      simp [ValidatedUpdates.assign, hnone]
  | some text =>
    rw [hvalue, Option.map_some, Option.some_or] at hmerged
    obtain ⟨row, hrow, hentry, hid⟩ := hlooked.exists_named updates.nodup_classifiers
      (MetadataPatch.mem_classifiers.mpr hvalue)
    rw [Prod.mk.injEq] at hentry
    refine .inr ⟨row, hrow, hentry.1, hid, hentry.2.symm ▸ hmerged, fun htype ↦ ?_⟩
    have hsome : updates.type = some text := by rw [htype] at hvalue; exact hvalue
    simp [ValidatedUpdates.assign, hsome, hentry.2]

/-- An update of the metadata of a chunk keeps the agreement. -/
theorem Classified.updateOne (hdb : Classified db)
    (hupdate : updateOne host entryId false target db = .ok (report, next)) : Classified next := by
  obtain ⟨chunk, textValue, ids, entities, hchunk, hids, rfl⟩ := updateOne_eq_ok hupdate
  have hlooked := EntityDb.lookedUp_of_dictionaryIds hids
  obtain ⟨-, hentities⟩ := EntityDb.exists_dictionaryIds_iff.mp ⟨ids, hids⟩
  have hfound : lookup (fun row : SemanticChunkRow ↦ row.id) target.1 db.semanticChunks =
      some chunk := by
    obtain ⟨found, hfound, hjoin⟩ := Option.bind_eq_some_iff.mp hchunk
    obtain ⟨text, -, hpair⟩ := Option.map_eq_some_iff.mp hjoin
    cases hpair
    exact hfound
  obtain ⟨hmem, hid⟩ := mem_of_lookup hfound
  have hwrites : WritesOneChunk db (writtenMetadata target.1 target.2
      (updateKeys chunk.blockMeta target.2.entries) ids { db with toEntityDb := entities }) target.1
      (target.2.assign (updateKeys chunk.blockMeta target.2.entries)) ids
      (db.currentVersionId target.1) := by
    refine
      { stored := ⟨chunk, hmem, hid⟩
        chunks := by rw [hentities]; rfl
        keeps := fun _ ↦ rfl
        registry := fun id hregistered ↦ ?_
        dictionaries := hlooked.kept
        columns := by rw [hentities]; rfl
        assignments := by rw [hentities]; rfl
        fields := fun other hother hotherId classifier hclassifier ↦ ?_ }
    · rw [hentities]
      exact EntityDb.registry_withEntries ▸ List.mem_append_left _ hregistered
    · have hsame : other = chunk := by
        have hlookup := (lookup_eq_some hdb.distinct).mpr ⟨hother, hotherId⟩
        exact Option.some.inj (hlookup.symm.trans hfound)
      rw [hsame]
      exact fieldWritten_assign hlooked chunk hclassifier
  exact hwrites.classified hdb

/-- A batch of updates keeps the agreement. -/
theorem Classified.updateBatch (hdb : Classified db) {request : MetadataRequest} {reply : BatchReply}
    (hbatch : updateBatch host parseFloat entryId request false db = .ok (reply, next)) :
    Classified next := by
  obtain ⟨targets, -, hbatch⟩ := bind_eq_ok.mp hbatch
  obtain ⟨⟨items, last⟩, hitems, hbatch⟩ := bind_eq_ok.mp hbatch
  cases hbatch
  exact handleAll_invariant (fun _ _ _ _ _ hstate hitem ↦ hstate.updateOne hitem) hdb hitems

end Updates

/-! ### New texts and rows -/

/-- What a new text makes of a classifier in the metadata. -/
theorem getKey_resetSemanticChunkBlockMeta (blockMeta : Dict)
    {classifier : String × DictionaryTable}
    (hclassifier : classifier ∈ semanticClassifierDictionaries) :
    getKey (resetSemanticChunkBlockMeta blockMeta) classifier.1 =
      ((getKey resetEntries classifier.2).map Json.str).or (getKey blockMeta classifier.1) := by
  have hall : ∀ classifier ∈ semanticClassifierDictionaries,
      (classifier.1 = "category" ∧ getKey resetEntries classifier.2 = some resetCategory) ∨
      (classifier.1 = "status" ∧ getKey resetEntries classifier.2 = some resetStatus) ∨
      (classifier.1 ∉ "category" :: "status" :: resetBlockMetaFields ∧
        getKey resetEntries classifier.2 = none) := by decide
  unfold resetSemanticChunkBlockMeta
  rcases hall classifier hclassifier with ⟨hname, hentry⟩ | ⟨hname, hentry⟩ | ⟨hname, hentry⟩
  · rw [hname, hentry, getKey_setKey_self]
    rfl
  · rw [hname, hentry, getKey_setKey_of_ne _ _ (by decide), getKey_setKey_self]
    rfl
  · simp only [List.mem_cons, not_or] at hname
    rw [hentry, getKey_setKey_of_ne _ _ hname.1, getKey_setKey_of_ne _ _ hname.2.1,
      getKey_popKeys_of_notMem]
    · rfl
    · simpa [resetBlockMetaFields] using hname.2.2

theorem DictionaryTable.isReset_eq (table : DictionaryTable) :
    table.isReset = (getKey resetEntries table).isSome := by
  cases table <;> rfl

/-- The row of a stored chunk is rewritten, with its classifiers kept or reset in the metadata. -/
structure RewritesChunk (db tables : Db) (chunkUuid : Uuid)
    (change : SemanticChunkRow → SemanticChunkRow) (resets : Bool) : Prop where
  stored : ∃ chunk ∈ db.semanticChunks, chunk.id = chunkUuid
  chunks : tables.semanticChunks =
    updateWhere (fun row ↦ row.id = chunkUuid) change db.semanticChunks
  keeps : ∀ row, (change row).id = row.id
  registry : tables.entityUuidRegistry = db.entityUuidRegistry
  types : ∀ chunk ∈ db.semanticChunks, chunk.id = chunkUuid →
    (change chunk).chunkType = chunk.chunkType
  fields : ∀ chunk ∈ db.semanticChunks, chunk.id = chunkUuid →
    ∀ classifier ∈ semanticClassifierDictionaries, getKey (change chunk).blockMeta classifier.1 =
      ((if resets then getKey resetEntries classifier.2 else none).map Json.str).or
        (getKey chunk.blockMeta classifier.1)

section Rewriting

variable {host : Host} {entryId : DictionaryTable → Text → Uuid} {db next : ClassifiedDb}
  {tables : Db} {chunkUuid : Uuid} {change : SemanticChunkRow → SemanticChunkRow}

/-- A rewritten row without a new text keeps the agreement. -/
theorem RewritesChunk.classified (hrewrites : RewritesChunk db.toDb tables chunkUuid change false)
    (hdb : Classified db) : Classified (db.withTables tables) := by
  have hwrites : WritesOneChunk db (db.withTables tables) chunkUuid change [] none :=
    { stored := hrewrites.stored
      chunks := hrewrites.chunks
      keeps := hrewrites.keeps
      registry := fun id hid ↦ by
        change id ∈ tables.registry
        rw [Db.registry, hrewrites.registry]
        exact hid
      dictionaries := fun _ hrow ↦ hrow
      columns := rfl
      assignments := rfl
      fields := fun chunk hchunk hid classifier hclassifier ↦ .inl ⟨rfl,
        hrewrites.fields chunk hchunk hid classifier hclassifier,
        fun _ ↦ hrewrites.types chunk hchunk hid⟩ }
  exact hwrites.classified hdb

/-- A rewritten row with a new text keeps the agreement, once the classifiers are reset. -/
theorem RewritesChunk.classified_of_reset
    (hrewrites : RewritesChunk db.toDb tables chunkUuid change true) (hdb : Classified db)
    {versionId : Option Uuid}
    (hreset : resetClassifiers entryId chunkUuid versionId (db.withTables tables) = .ok next) :
    Classified next := by
  obtain ⟨⟨ids, entities⟩, hids, hreset⟩ := bind_eq_ok.mp hreset
  cases hreset
  have hlooked := EntityDb.lookedUp_of_dictionaryIds hids
  obtain ⟨-, hentities⟩ := EntityDb.exists_dictionaryIds_iff.mp ⟨ids, hids⟩
  have hwrites : WritesOneChunk db
      { db with
        toEntityDb := { entities with
          chunkDictionaries := setColumns chunkUuid ids entities.chunkDictionaries }
        assignments := setAssignments chunkUuid versionId ids db.assignments } chunkUuid change ids
      versionId :=
    { stored := hrewrites.stored
      chunks := by rw [← hrewrites.chunks, hentities]; rfl
      keeps := hrewrites.keeps
      registry := fun id hid ↦ by
        change id ∈ entities.registry
        rw [hentities, EntityDb.registry_withEntries]
        refine List.mem_append_left _ ?_
        change id ∈ tables.registry
        rw [Db.registry, hrewrites.registry]
        exact hid
      dictionaries := hlooked.kept
      columns := by rw [hentities]; rfl
      assignments := rfl
      fields := fun chunk hchunk hid classifier hclassifier ↦ by
        have hmeta := hrewrites.fields chunk hchunk hid classifier hclassifier
        rw [if_pos rfl] at hmeta
        cases hentry : getKey resetEntries classifier.2 with
        | none =>
          rw [hentry, Option.map_none, Option.none_or] at hmeta
          refine .inl ⟨hlooked.getKey_eq_none ?_, hmeta, fun _ ↦ hrewrites.types chunk hchunk hid⟩
          intro hmem
          obtain ⟨entry, hentries, htable⟩ := List.mem_map.mp hmem
          exact getKey_eq_none.mp hentry entry hentries htable
        | some descr =>
          rw [hentry, Option.map_some, Option.some_or] at hmeta
          have hmem := (getKey_eq_some (by decide)).mp hentry
          obtain ⟨row, hrow, hspec, hnamed⟩ := hlooked.exists_named (by decide) hmem
          rw [Prod.mk.injEq] at hspec
          refine .inr ⟨row, hrow, hspec.1, hnamed, hspec.2.symm ▸ hmeta, fun htype ↦ ?_⟩
          rw [htype] at hentry
          cases hentry }
  exact hwrites.classified hdb

end Rewriting

/-! ### Updates of a chunk -/

section ChunkUpdates

variable {host : Host} {entryId : DictionaryTable → Text → Uuid} {call : TextCall}
  {chunkUuid : Uuid} {values : TextValues} {db : Db} {tables : Db}

theorem registry_of_updateChunkValues
    (hupdate : updateChunkValues host call chunkUuid values db = .ok tables) :
    tables.entityUuidRegistry = db.entityUuidRegistry := by
  obtain ⟨-, hupdate⟩ := raiseIf_bind_eq_ok.mp hupdate
  obtain ⟨_, -, hupdate⟩ := bind_eq_ok.mp hupdate
  obtain ⟨-, hupdate⟩ := raiseIf_bind_eq_ok.mp hupdate
  obtain ⟨_, -, hupdate⟩ := bind_eq_ok.mp hupdate
  split at hupdate
  · cases hupdate
    rfl
  · obtain ⟨chunk, -, hreplace⟩ := bind_eq_ok.mp hupdate
    split at hreplace
    · cases hreplace
      rfl
    · obtain ⟨inserted, hinsert, hreplace⟩ := bind_eq_ok.mp hreplace
      obtain ⟨-, rfl⟩ := Db.insertVersion_eq_ok.mp hinsert
      obtain ⟨pointing, hpoint, hnext⟩ := bind_eq_ok.mp hreplace
      obtain ⟨-, hpoint⟩ := raiseIf_bind_eq_ok.mp hpoint
      obtain ⟨-, hpointing⟩ := raiseIf_bind_eq_ok.mp hpoint
      cases hpointing
      cases hnext
      rfl

/-- Given metadata that keep the classifiers, or none. -/
theorem getKey_given {chunk : SemanticChunkRow} {resets : Bool}
    (hkeeps : ∀ given ∈ values.blockMeta, KeepsFields chunk given resets)
    {classifier : String × DictionaryTable}
    (hclassifier : classifier ∈ semanticClassifierDictionaries) :
    (resets = true ∧ classifier.2.isReset = true) ∨
      getKey (values.blockMeta.getD chunk.blockMeta) classifier.1 =
        getKey chunk.blockMeta classifier.1 := by
  cases hgiven : values.blockMeta with
  | none => exact .inr rfl
  | some given =>
    rcases hkeeps given hgiven classifier hclassifier with hreset | hsame
    · exact .inl (Bool.and_eq_true_iff.mp hreset)
    · exact .inr hsame

/-- What an update does to the row of a chunk, when it keeps the classifiers. -/
theorem exists_rewritesChunk_of_update (hdistinct : (db.semanticChunks.map fun row ↦ row.id).Nodup)
    (hkeeps : ∀ given ∈ values.blockMeta, ∀ chunk ∈ db.semanticChunks, chunk.id = chunkUuid →
      KeepsFields chunk given (values.replacesText chunkUuid db))
    (hupdate : updateChunkValues host call chunkUuid values db = .ok tables) :
    ∃ change, RewritesChunk db tables chunkUuid change (values.replacesText chunkUuid db) := by
  obtain ⟨chunk, hfound⟩ := exists_chunk_of_updateChunkValues hupdate
  have htables := textTables_of_updateChunkValues hfound hupdate
  have hregistry := registry_of_updateChunkValues hupdate
  have hchunk := mem_of_lookup hfound
  have hsame : ∀ other ∈ db.semanticChunks, other.id = chunkUuid → other = chunk := by
    intro other hother hid
    have hlookup := (lookup_eq_some hdistinct).mpr ⟨hother, hid⟩
    exact Option.some.inj (hlookup.symm.trans hfound)
  have hgiven : ∀ classifier ∈ semanticClassifierDictionaries,
      (values.replacesText chunkUuid db = true ∧ classifier.2.isReset = true) ∨
        getKey (values.blockMeta.getD chunk.blockMeta) classifier.1 =
          getKey chunk.blockMeta classifier.1 :=
    fun classifier hclassifier ↦ getKey_given
      (fun given hmem ↦ hkeeps given hmem chunk hchunk.1 hchunk.2) hclassifier
  cases hnew : (values.text.or values.body).filter fun text ↦ db.chunkText chunkUuid ≠ some text with
  | none =>
    have hreplaces : values.replacesText chunkUuid db = false := by
      rw [TextValues.replacesText, Option.any_eq_false]
      intro text htext
      rw [Option.filter_eq_none_iff] at hnew
      exact Bool.eq_false_iff.mpr (hnew text htext)
    rw [hnew] at htables
    rw [hreplaces] at hgiven ⊢
    refine ⟨values.assignChunk, ⟨chunk, hchunk⟩, (TextTables.mk.inj htables).2.2.2.1, fun _ ↦ rfl,
      hregistry, fun _ _ _ ↦ rfl, fun other hother hid classifier hclassifier ↦ ?_⟩
    rw [hsame other hother hid]
    rcases hgiven classifier hclassifier with ⟨hfalse, -⟩ | hkept
    · cases hfalse
    · exact hkept
  | some text =>
    have hreplaces : values.replacesText chunkUuid db = true := by
      obtain ⟨htext, hother⟩ := Option.filter_eq_some_iff.mp hnew
      rw [TextValues.replacesText, htext, Option.any_some]
      exact hother
    rw [hnew] at htables
    rw [hreplaces] at hgiven ⊢
    let storeRow (row : SemanticChunkRow) : SemanticChunkRow :=
      { row with
        text := []
        charCount := text.length
        blockMeta := resetSemanticChunkBlockMeta (values.blockMeta.getD chunk.blockMeta) }
    have htwice := (TextTables.mk.inj htables).2.2.2.1.trans (@updateWhere_updateWhere
      SemanticChunkRow (fun row ↦ row.id = chunkUuid) values.assignChunk storeRow
      (fun _ hselected ↦ hselected) db.semanticChunks)
    refine ⟨_, ⟨chunk, hchunk⟩, htwice, fun _ ↦ rfl, hregistry, fun _ _ _ ↦ rfl,
      fun other hother hid classifier hclassifier ↦ ?_⟩
    rw [hsame other hother hid, if_pos rfl]
    refine (getKey_resetSemanticChunkBlockMeta _ hclassifier).trans ?_
    rcases hgiven classifier hclassifier with ⟨-, hreset⟩ | hkept
    · rw [DictionaryTable.isReset_eq] at hreset
      obtain ⟨descr, hdescr⟩ := Option.isSome_iff_exists.mp hreset
      rw [hdescr]
      rfl
    · rw [hkept]

/-- An update of a chunk keeps the agreement, when it keeps the classifiers. -/
theorem Classified.updateChunk {db next : ClassifiedDb} (hdb : Classified db)
    (hkeeps : ∀ given ∈ values.blockMeta, ∀ chunk ∈ db.semanticChunks, chunk.id = chunkUuid →
      KeepsFields chunk given (values.replacesText chunkUuid db.toDb))
    (hupdate : db.updateChunk host entryId call chunkUuid values = .ok next) : Classified next := by
  obtain ⟨tables, htables, hupdate⟩ := bind_eq_ok.mp hupdate
  obtain ⟨change, hrewrites⟩ := exists_rewritesChunk_of_update hdb.distinct hkeeps htables
  dsimp only at hupdate
  split at hupdate
  next hreplaces =>
    rw [hreplaces] at hrewrites
    exact hrewrites.classified_of_reset hdb hupdate
  next hreplaces =>
    rw [Bool.not_eq_true] at hreplaces
    rw [hreplaces] at hrewrites
    cases hupdate
    exact hrewrites.classified hdb

end ChunkUpdates

/-! ### Upserts -/

section Upserts

variable {host : Host} {entryId : DictionaryTable → Text → Uuid} {root : RootRow}

/-- What an upsert of a stored chunk does to its row, when it keeps the classifiers. -/
theorem exists_rewritesChunk_of_upsert {db tables : Db}
    (hdistinct : (db.semanticChunks.map fun row ↦ row.id).Nodup) {chunk : SemanticChunkRow}
    (hchunk : chunk ∈ db.semanticChunks) (hid : chunk.id = root.id)
    (htype : chunk.chunkType = root.chunkType)
    (hkeeps : KeepsFields chunk root.blockMeta (rootTextChanged root db))
    (hupsert : upsertChunk host root db = .ok tables) :
    ∃ change, RewritesChunk db tables root.id change (rootTextChanged root db) := by
  obtain ⟨rooted, hroot, hnext⟩ := bind_eq_ok.mp hupsert
  cases hnext
  have hsame : ∀ other ∈ db.semanticChunks, other.id = root.id → other = chunk :=
    fun other hother hother' ↦ List.inj_on_of_nodup_map hdistinct hother hchunk (hother'.trans hid.symm)
  have hthere : hasKey (fun row : SemanticChunkRow ↦ row.id) root.id db.semanticChunks = true :=
    hasKey_eq_true.mpr ⟨chunk, hchunk, hid⟩
  have hrooted : rooted.entityUuidRegistry = db.entityUuidRegistry ∧ rooted.semanticChunks =
      updateWhere (fun row ↦ row.id = root.id)
        (if rootTextChanged root db then root.reset else root).assign db.semanticChunks := by
    have hroots : (if rootTextChanged root db then root.reset else root).id = root.id := by
      split <;> rfl
    rw [upsertRoot, hroots, if_pos hthere] at hroot
    obtain ⟨-, hroot⟩ := raiseIf_bind_eq_ok.mp hroot
    obtain ⟨-, hroot⟩ := raiseIf_bind_eq_ok.mp hroot
    cases hroot
    exact ⟨rfl, rfl⟩
  refine ⟨_, ⟨chunk, hchunk, hid⟩, hrooted.2, fun _ ↦ rfl, hrooted.1, fun other hother hother' ↦ ?_,
    fun other hother hother' classifier hclassifier ↦ ?_⟩
  · rw [hsame other hother hother', htype]
    dsimp only [RootRow.assign]
    split <;> rfl
  · rw [hsame other hother hother']
    have hkept := hkeeps classifier hclassifier
    dsimp only [RootRow.assign]
    cases hchanged : rootTextChanged root db with
    | false =>
      rw [hchanged] at hkept
      rcases hkept with hfalse | hkept
      · cases hfalse
      · exact hkept
    | true =>
      refine (getKey_resetSemanticChunkBlockMeta _ hclassifier).trans ?_
      rw [hchanged] at hkept
      rcases hkept with hreset | hkept
      · rw [Bool.true_and, DictionaryTable.isReset_eq] at hreset
        obtain ⟨descr, hdescr⟩ := Option.isSome_iff_exists.mp hreset
        rw [if_pos rfl, hdescr]
        rfl
      · rw [if_pos rfl, hkept]

/-- An upsert keeps the agreement, when it keeps the classifiers of a stored chunk. -/
theorem Classified.upsertChunk {db next : ClassifiedDb} (hdb : Classified db)
    {chunk : SemanticChunkRow} (hchunk : chunk ∈ db.semanticChunks) (hid : chunk.id = root.id)
    (htype : chunk.chunkType = root.chunkType)
    (hkeeps : KeepsFields chunk root.blockMeta (rootTextChanged root db.toDb))
    (hupsert : db.upsertChunk host entryId root = .ok next) : Classified next := by
  obtain ⟨tables, htables, hupsert⟩ := bind_eq_ok.mp hupsert
  obtain ⟨change, hrewrites⟩ :=
    exists_rewritesChunk_of_upsert hdb.distinct hchunk hid htype hkeeps htables
  dsimp only at hupsert
  split at hupsert
  next hchanged =>
    rw [hchanged] at hrewrites
    exact hrewrites.classified_of_reset hdb hupsert
  next hchanged =>
    rw [Bool.not_eq_true] at hchanged
    rw [hchanged] at hrewrites
    cases hupsert
    exact hrewrites.classified hdb

end Upserts

end DocStore
