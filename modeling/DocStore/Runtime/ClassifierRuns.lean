import DocStore.Ingestion.RechunkedText
import DocStore.Runtime.ClassifierAgreement
import DocStore.Runtime.PublicationFrame

/-!
# Runs of the classifier writers

A publication gives every new chunk six values, looks up or makes their entries, and writes the
values and the entries in all places. The UUIDs of the new chunks are not registered before, so none
of them has a column yet. With what `DocStore.Runtime.ClassifierAgreement` says of the other writers
this carries the agreement through every run that keeps the classifiers.
-/

set_option autoImplicit false
set_option relaxedAutoImplicit false

namespace DocStore

open Foundation

/-! ### The values of a sentence -/

section Values

variable {host : Host} {plan : PersistencePlan}

theorem typeClassifier_mem :
    (("type", .chunkTypes) : String × DictionaryTable) ∈ semanticClassifierDictionaries := by
  decide

/-- The value of a classifier in the features, or its default. -/
def classifierValue (features : Dict) (field : String) (default : Text) : Text :=
  match getKey features field with
  | some (.str candidate) => if (strip candidate).isEmpty then default else strip candidate
  | _ => default

/-- A sentence has a stripped value for every classifier. -/
theorem exists_classifierValue (features : Dict) {classifier : String × DictionaryTable}
    (hclassifier : classifier ∈ semanticClassifierDictionaries) :
    ∃ value, getKey (semanticClassifierValues features) classifier.1 = some value ∧
      strip value = value := by
  have hdefaults : ∀ classifier ∈ semanticClassifierDictionaries,
      ∃ default ∈ getKey semanticClassifierDefaults classifier.1, strip default = default := by
    decide
  obtain ⟨default, hdefault, hstrip⟩ := hdefaults classifier hclassifier
  have hvalue := getKey_mapValues (classifierValue features) semanticClassifierDefaults classifier.1
  refine ⟨_, hvalue.trans (congrArg _ hdefault), ?_⟩
  unfold classifierValue
  split
  · split
    · exact hstrip
    · exact strip_strip _
  · exact hstrip

/-- The metadata of a sentence chunk have its classifiers. -/
theorem getKey_chunkMeta_classifier (chapterId paragraphId : Uuid) (inherited : Dict)
    (sentence : RuntimeChunk) {field : String} {value : Text}
    (hvalue : getKey (semanticClassifierValues (sentenceFeatures host plan sentence)) field =
      some value) :
    getKey (chunkMeta host plan chapterId paragraphId inherited sentence) field =
      some (.str value) := by
  have hmapped := getKey_mapValues (fun _ value ↦ Json.str value)
    (semanticClassifierValues (sentenceFeatures host plan sentence)) field
  have hnodup : (((semanticClassifierValues (sentenceFeatures host plan sentence)).map
      fun entry ↦ (entry.1, Json.str entry.2)).map Prod.fst).Nodup := by
    have hnames : (((semanticClassifierValues (sentenceFeatures host plan sentence)).map
      fun entry ↦ (entry.1, Json.str entry.2)).map Prod.fst) =
        semanticClassifierDefaults.map Prod.fst := rfl
    rw [hnames]
    decide
  rw [hvalue, Option.map_some] at hmapped
  unfold chunkMeta
  rw [List.foldl_cons, List.foldl_cons, List.foldl_cons, List.foldl_nil,
    getKey_updateKeys_of_nodup hnodup, hmapped, Option.some_or]

end Values

/-! ### The chunks of a publication -/

/-- The row of a sentence has the values of its classifiers. -/
structure CarriesValues (host : Host) (plan : PersistencePlan) (row : SemanticChunkRow)
    (sentence : RuntimeChunk) : Prop where
  id : row.id = sentence.uuid
  fields : ∀ classifier ∈ semanticClassifierDictionaries, ∀ value,
    getKey (semanticClassifierValues (sentenceFeatures host plan sentence)) classifier.1 =
      some value → getKey row.blockMeta classifier.1 = some (.str value)
  type : getKey (semanticClassifierValues (sentenceFeatures host plan sentence)) "type" =
    some row.chunkType

/-- The tables have grown by the chunks of some sentences, with UUIDs that were not registered. -/
structure AddsChunks (host : Host) (plan : PersistencePlan) (db next : Db)
    (sentences : List RuntimeChunk) : Prop where
  rows : ∃ rows, next.semanticChunks = db.semanticChunks ++ rows ∧
    rows.map (fun row ↦ row.id) = sentences.map RuntimeChunk.uuid ∧
    ∀ row ∈ rows, ∃ sentence ∈ sentences, CarriesValues host plan row sentence
  fresh : ∀ sentence ∈ sentences, sentence.uuid ∉ db.registry
  distinct : (sentences.map RuntimeChunk.uuid).Nodup
  registered : ∀ sentence ∈ sentences, sentence.uuid ∈ next.registry
  registry : ∀ id ∈ db.registry, id ∈ next.registry

section Growing

variable {host : Host} {ids : PublicationIds} {plan : PersistencePlan} {db middle next : Db}
  {sentences later : List RuntimeChunk}

/-- The chunks are the same. -/
theorem AddsChunks.of_same (hchunks : next.semanticChunks = db.semanticChunks)
    (hregistry : ∀ id ∈ db.registry, id ∈ next.registry) : AddsChunks host plan db next [] where
  rows := ⟨[], by rw [hchunks, List.append_nil], rfl, by simp⟩
  fresh := by simp
  distinct := List.nodup_nil
  registered := by simp
  registry := hregistry

theorem AddsChunks.trans (hfirst : AddsChunks host plan db middle sentences)
    (hsecond : AddsChunks host plan middle next later) :
    AddsChunks host plan db next (sentences ++ later) where
  rows := by
    obtain ⟨earlier, hearlier, hids, hvalues⟩ := hfirst.rows
    obtain ⟨others, hothers, hotherIds, hotherValues⟩ := hsecond.rows
    refine ⟨earlier ++ others, by rw [hothers, hearlier, List.append_assoc],
      by rw [List.map_append, List.map_append, hids, hotherIds], fun row hrow ↦ ?_⟩
    rcases List.mem_append.mp hrow with hrow | hrow
    · obtain ⟨sentence, hsentence, hcarries⟩ := hvalues row hrow
      exact ⟨sentence, List.mem_append_left _ hsentence, hcarries⟩
    · obtain ⟨sentence, hsentence, hcarries⟩ := hotherValues row hrow
      exact ⟨sentence, List.mem_append_right _ hsentence, hcarries⟩
  fresh := List.forall_mem_append.mpr ⟨hfirst.fresh, fun sentence hsentence hregistered ↦
    hsecond.fresh sentence hsentence (hfirst.registry _ hregistered)⟩
  distinct := by
    rw [List.map_append, List.nodup_append]
    refine ⟨hfirst.distinct, hsecond.distinct, fun id hid other hother hequal ↦ ?_⟩
    obtain ⟨sentence, hsentence, rfl⟩ := List.mem_map.mp hid
    obtain ⟨second, hlater, rfl⟩ := List.mem_map.mp hother
    exact hsecond.fresh second hlater (hequal ▸ hfirst.registered sentence hsentence)
  registered := List.forall_mem_append.mpr ⟨fun sentence hsentence ↦
    hsecond.registry _ (hfirst.registered sentence hsentence), hsecond.registered⟩
  registry id hid := hsecond.registry id (hfirst.registry id hid)

/-- The row of a sentence that is written. -/
theorem carriesValues_sentenceRows (orderIndex : ℕ) (paragraph : RuntimeChunk)
    (entry : RuntimeChunk × ExactReconstructionPiece) :
    CarriesValues host plan (sentenceRows host ids plan orderIndex paragraph entry).chunk entry.1 where
  id := by simp only [sentenceRows]
  fields classifier _ value hvalue := by
    have hmeta : (sentenceRows host ids plan orderIndex paragraph entry).chunk.blockMeta =
        chunkMeta host plan ids.chapterId (ids.paragraphId orderIndex)
          (paragraphMeta host plan orderIndex paragraph) entry.1 := by
      simp only [sentenceRows]
    rw [hmeta]
    exact getKey_chunkMeta_classifier _ _ _ _ hvalue
  type := by
    obtain ⟨value, hvalue, -⟩ := exists_classifierValue (sentenceFeatures host plan entry.1)
      typeClassifier_mem
    have htype : (sentenceRows host ids plan orderIndex paragraph entry).chunk.chunkType =
        (getKey (semanticClassifierValues (sentenceFeatures host plan entry.1)) "type").getD [] := by
      simp only [sentenceRows]
    rw [htype, hvalue, Option.getD_some]

theorem addsChunks_of_writeSemanticChunk {orderIndex : ℕ} {paragraph : RuntimeChunk}
    {entry : RuntimeChunk × ExactReconstructionPiece}
    (hwrite : writeSemanticChunk host ids plan orderIndex paragraph entry db = .ok next) :
    AddsChunks host plan db next [entry.1] := by
  obtain ⟨-, -, hwrite⟩ := bind_eq_ok.mp hwrite
  obtain ⟨chunked, hchunk, hwrite⟩ := bind_eq_ok.mp hwrite
  obtain ⟨texted, htext, hversion⟩ := bind_eq_ok.mp hwrite
  obtain ⟨-, hfresh, -, rfl⟩ := Db.insertSemanticChunk_eq_ok.mp hchunk
  obtain ⟨-, rfl⟩ := Db.insertText_eq_ok.mp htext
  have hsame : next.semanticChunks = db.semanticChunks ++
      [(sentenceRows host ids plan orderIndex paragraph entry).chunk] ∧ next.entityUuidRegistry =
        db.entityUuidRegistry ++ [(.semanticChunks, entry.1.uuid)] := by
    unfold insertInitialVersion at hversion
    split at hversion
    · obtain ⟨-, rfl⟩ := Db.setCurrent_eq_ok.mp hversion
      exact ⟨rfl, rfl⟩
    · obtain ⟨inserted, hinsert, hcurrent⟩ := bind_eq_ok.mp hversion
      obtain ⟨-, rfl⟩ := Db.insertVersion_eq_ok.mp hinsert
      obtain ⟨-, rfl⟩ := Db.setCurrent_eq_ok.mp hcurrent
      exact ⟨rfl, rfl⟩
  exact
    { rows := ⟨_, hsame.1, rfl, List.forall_mem_singleton.mpr
        ⟨entry.1, List.mem_singleton_self _, carriesValues_sentenceRows orderIndex paragraph entry⟩⟩
      fresh := List.forall_mem_singleton.mpr hfresh
      distinct := List.nodup_singleton _
      registered := List.forall_mem_singleton.mpr (Db.mem_registry_self hsame.2)
      registry := fun _ hid ↦ Db.mem_registry_of_append hsame.2 hid }

theorem addsChunks_of_writeSentences {orderIndex : ℕ} {paragraph : RuntimeChunk}
    {entries : List (RuntimeChunk × ExactReconstructionPiece)}
    (hwrite : writeSentences host ids plan orderIndex paragraph entries db = .ok next) :
    AddsChunks host plan db next (entries.map Prod.fst) := by
  induction entries generalizing db with
  | nil =>
    cases hwrite
    exact .of_same rfl fun _ hid ↦ hid
  | cons entry entries ih =>
    obtain ⟨middle, hfirst, hrest⟩ := bind_eq_ok.mp hwrite
    exact (addsChunks_of_writeSemanticChunk hfirst).trans (ih hrest)

theorem addsChunks_of_writeParagraphs {orderIndex : ℕ} {paragraphs : List PlannedParagraph}
    (hwrite : writeParagraphs host ids plan orderIndex paragraphs db = .ok next) :
    AddsChunks host plan db next ((plannedSentences paragraphs).map Prod.fst) := by
  induction paragraphs generalizing db orderIndex with
  | nil =>
    cases hwrite
    exact .of_same rfl fun _ hid ↦ hid
  | cons planned rest ih =>
    obtain ⟨paragraph, entries⟩ := planned
    obtain ⟨inserted, hparagraph, hwrite⟩ := bind_eq_ok.mp hwrite
    obtain ⟨written, hsentences, hrest⟩ := bind_eq_ok.mp hwrite
    have hinserted : AddsChunks host plan db inserted [] := by
      obtain ⟨-, -, rfl⟩ := Db.insertParagraph_eq_ok.mp hparagraph
      exact .of_same rfl fun _ hid ↦ Db.mem_registry_of_append rfl hid
    have hall := (hinserted.trans (addsChunks_of_writeSentences hsentences)).trans (ih hrest)
    rw [plannedSentences, List.flatMap_cons, List.map_append]
    exact hall

/-- Registered UUIDs stay registered when a file is written. -/
theorem mem_registry_of_writeFile {primarySourceId id : Uuid}
    (hwrite : writeFile plan primarySourceId db = .ok next) (hid : id ∈ db.registry) :
    id ∈ next.registry := by
  unfold writeFile at hwrite
  split at hwrite
  · cases hwrite
    exact hid
  · obtain ⟨-, hwrite⟩ := Db.register_bind_eq_ok.mp hwrite
    obtain ⟨-, hnext⟩ := raiseIf_bind_eq_ok.mp hwrite
    cases hnext
    exact Db.mem_registry_of_append rfl hid

/-- Registered UUIDs stay registered when a document is written. -/
theorem mem_registry_of_writeDocument {id : Uuid} (hwrite : writeDocument plan db = .ok next)
    (hid : id ∈ db.registry) : id ∈ next.registry := by
  obtain ⟨-, hwrite⟩ := raiseIf_bind_eq_ok.mp hwrite
  split at hwrite
  · cases hwrite
    exact hid
  · obtain ⟨-, hnext⟩ := Db.register_bind_eq_ok.mp hwrite
    cases hnext
    exact Db.mem_registry_of_append rfl hid

/-- A hierarchy marks the chunks of its document and adds the chunks of its sentences. -/
theorem addsChunks_of_writeHierarchy {primarySourceId : Uuid} {paragraphs : List PlannedParagraph}
    (hwrite : writeHierarchy host ids plan primarySourceId paragraphs db = .ok next) :
    AddsChunks host plan (markHierarchy ids.now plan.documentId db) next
      ((plannedSentences paragraphs).map Prod.fst) := by
  obtain ⟨prepared, hprepare, hparagraphs⟩ := bind_eq_ok.mp hwrite
  obtain ⟨marked, hmark, hprepare⟩ := bind_eq_ok.mp hprepare
  obtain ⟨filed, hfiled, hprepare⟩ := bind_eq_ok.mp hprepare
  obtain ⟨documented, hdocument, hchapter⟩ := bind_eq_ok.mp hprepare
  have hprepared : AddsChunks host plan (markHierarchy ids.now plan.documentId db) prepared [] := by
    obtain ⟨-, -, rfl⟩ := Db.insertChapter_eq_ok.mp hchapter
    obtain ⟨-, hmarked⟩ := raiseIf_bind_eq_ok.mp hmark
    cases hmarked
    refine .of_same ?_ fun id hid ↦ Db.mem_registry_of_append rfl
      (mem_registry_of_writeDocument hdocument (mem_registry_of_writeFile hfiled hid))
    obtain ⟨_, _, rfl⟩ := exists_of_writeDocument hdocument
    obtain ⟨_, _, rfl⟩ := exists_of_writeFile hfiled
    rfl
  exact hprepared.trans (addsChunks_of_writeParagraphs hparagraphs)

end Growing

/-! ### The columns of a publication -/

/-- What some dictionary columns of chunks leave when they are written. -/
structure ClassifiersWritten (db next : EntityDb) (entries : List (Uuid × DictionaryTable × Text))
    (written : List ChunkDictionary) : Prop where
  columns : next.chunkDictionaries = db.chunkDictionaries ++ written
  keys : written.map ChunkDictionary.key = entries.map fun entry ↦ (entry.1, entry.2.1)
  dictionaries : ∀ row ∈ db.dictionaries, row ∈ next.dictionaries
  registry : ∀ id ∈ db.registry, id ∈ next.registry
  found : ∀ entry ∈ entries, ∃ row ∈ next.dictionaries, row.table = entry.2.1 ∧
    row.descr = entry.2.2 ∧
      { chunkUuid := entry.1, table := entry.2.1, dictionaryId := row.id } ∈ written

section Columns

variable {entryId : DictionaryTable → Text → Uuid} {db next : EntityDb}

theorem classifiersWritten_of_writeClassifier {entry : Uuid × DictionaryTable × Text}
    (hwrite : writeClassifier entryId entry.1 entry.2 db = .ok next) :
    ∃ column, ClassifiersWritten db next [entry] [column] := by
  unfold writeClassifier at hwrite
  split at hwrite
  next row hrow =>
    cases hwrite
    have hfound := List.find?_some hrow
    rw [Bool.and_eq_true, decide_eq_true_eq, decide_eq_true_eq] at hfound
    exact ⟨_, rfl, rfl, fun _ hother ↦ hother, fun _ hid ↦ hid, List.forall_mem_singleton.mpr
      ⟨row, List.mem_of_find?_eq_some hrow, hfound.1, hfound.2, List.mem_singleton_self _⟩⟩
  next =>
    obtain ⟨-, hnext⟩ := Db.register_bind_eq_ok.mp hwrite
    cases hnext
    exact ⟨_, rfl, rfl, fun _ hother ↦ List.mem_append_left _ hother,
      fun _ hid ↦ Db.mem_registry_of_append rfl hid, List.forall_mem_singleton.mpr
        ⟨_, List.mem_append_right _ (List.mem_singleton_self _), rfl, rfl,
          List.mem_singleton_self _⟩⟩

theorem ClassifiersWritten.trans {middle : EntityDb}
    {first second : List (Uuid × DictionaryTable × Text)} {earlier later : List ChunkDictionary}
    (hfirst : ClassifiersWritten db middle first earlier)
    (hsecond : ClassifiersWritten middle next second later) :
    ClassifiersWritten db next (first ++ second) (earlier ++ later) where
  columns := by rw [hsecond.columns, hfirst.columns, List.append_assoc]
  keys := by rw [List.map_append, List.map_append, hfirst.keys, hsecond.keys]
  dictionaries row hrow := hsecond.dictionaries row (hfirst.dictionaries row hrow)
  registry id hid := hsecond.registry id (hfirst.registry id hid)
  found := by
    refine List.forall_mem_append.mpr ⟨fun entry hentry ↦ ?_, fun entry hentry ↦ ?_⟩
    · obtain ⟨row, hrow, htable, hdescr, hcolumn⟩ := hfirst.found entry hentry
      exact ⟨row, hsecond.dictionaries row hrow, htable, hdescr, List.mem_append_left _ hcolumn⟩
    · obtain ⟨row, hrow, htable, hdescr, hcolumn⟩ := hsecond.found entry hentry
      exact ⟨row, hrow, htable, hdescr, List.mem_append_right _ hcolumn⟩

theorem classifiersWritten_of_writeClassifiers {entries : List (Uuid × DictionaryTable × Text)}
    (hwrite : writeClassifiers entryId entries db = .ok next) :
    ∃ written, ClassifiersWritten db next entries written := by
  induction entries generalizing db with
  | nil =>
    cases hwrite
    exact ⟨[], (List.append_nil _).symm, rfl, fun _ hrow ↦ hrow, fun _ hid ↦ hid, by simp⟩
  | cons entry entries ih =>
    obtain ⟨middle, hfirst, hrest⟩ := bind_eq_ok.mp hwrite
    obtain ⟨column, hcolumn⟩ := classifiersWritten_of_writeClassifier hfirst
    obtain ⟨written, hwritten⟩ := ih hrest
    exact ⟨column :: written, hcolumn.trans hwritten⟩

end Columns

/-- The columns that are written for some sentences. -/
def sentenceColumns (host : Host) (plan : PersistencePlan) (sentences : List RuntimeChunk) :
    List (Uuid × DictionaryTable × Text) :=
  sentences.flatMap fun sentence ↦ (classifierEntries host plan sentence).map fun entry ↦
    (sentence.uuid, entry)

section SentenceColumns

variable {host : Host} {plan : PersistencePlan} {sentences : List RuntimeChunk}

theorem map_sentenceColumns : (sentenceColumns host plan sentences).map
      (fun entry ↦ (entry.1, entry.2.1)) =
    sentences.flatMap fun sentence ↦ semanticClassifierDictionaries.map fun classifier ↦
      (sentence.uuid, classifier.2) := by
  simp only [sentenceColumns, classifierEntries, List.map_flatMap, List.map_map,
    Function.comp_def]

/-- No column is written twice. -/
theorem nodup_sentenceColumns (hdistinct : (sentences.map RuntimeChunk.uuid).Nodup) :
    ((sentenceColumns host plan sentences).map fun entry ↦ (entry.1, entry.2.1)).Nodup := by
  have htables : (semanticClassifierDictionaries.map Prod.snd).Nodup := by decide
  rw [map_sentenceColumns, List.nodup_flatMap]
  refine ⟨fun sentence _ ↦ List.Nodup.of_map Prod.snd (by rwa [List.map_map]), ?_⟩
  refine (List.pairwise_map.mp hdistinct).imp fun hne ↦ ?_
  intro key hfirst hsecond
  obtain ⟨_, -, rfl⟩ := List.mem_map.mp hfirst
  obtain ⟨_, -, hequal⟩ := List.mem_map.mp hsecond
  exact hne (congrArg Prod.fst hequal).symm

/-- A sentence has a column for every classifier, with its value. -/
theorem exists_mem_sentenceColumns {sentence : RuntimeChunk} (hsentence : sentence ∈ sentences)
    {classifier : String × DictionaryTable}
    (hclassifier : classifier ∈ semanticClassifierDictionaries) : ∃ value,
      getKey (semanticClassifierValues (sentenceFeatures host plan sentence)) classifier.1 =
        some value ∧
      (sentence.uuid, classifier.2, value) ∈ sentenceColumns host plan sentences := by
  obtain ⟨value, hvalue, hstrip⟩ :=
    exists_classifierValue (sentenceFeatures host plan sentence) hclassifier
  refine ⟨value, hvalue, List.mem_flatMap.mpr ⟨sentence, hsentence, List.mem_map.mpr
    ⟨(classifier.2, value), List.mem_map.mpr ⟨classifier, hclassifier, ?_⟩, rfl⟩⟩⟩
  change (classifier.2, strip ((getKey (semanticClassifierValues (sentenceFeatures host plan
    sentence)) classifier.1).getD [])) = _
  rw [hvalue, Option.getD_some, hstrip]

/-- Every column is of a sentence. -/
theorem exists_of_mem_written {db next : EntityDb} {written : List ChunkDictionary}
    (hwritten : ClassifiersWritten db next (sentenceColumns host plan sentences) written)
    {column : ChunkDictionary} (hcolumn : column ∈ written) :
    ∃ sentence ∈ sentences, column.chunkUuid = sentence.uuid := by
  have hkey := List.mem_map_of_mem (f := ChunkDictionary.key) hcolumn
  rw [hwritten.keys, map_sentenceColumns] at hkey
  obtain ⟨sentence, hsentence, hkey⟩ := List.mem_flatMap.mp hkey
  obtain ⟨_, -, hequal⟩ := List.mem_map.mp hkey
  exact ⟨sentence, hsentence, (congrArg Prod.fst hequal).symm⟩

end SentenceColumns

/-! ### Publications -/

/-- A publication that passed the gate: the hierarchy with its chunks, and their columns with the
same assignments. -/
structure PublishesChunks (host : Host) (plan : PersistencePlan) (db next : ClassifiedDb)
    (sentences : List RuntimeChunk) (written : List ChunkDictionary) : Prop where
  chunks : ∃ marked : Db, AddsChunks host plan marked next.toDb sentences ∧
    marked.registry = db.registry ∧
    marked.semanticChunks.map (fun row ↦ row.id) = db.semanticChunks.map (fun row ↦ row.id) ∧
    ∀ chunk ∈ marked.semanticChunks, ∃ old ∈ db.semanticChunks, chunk.id = old.id ∧
      chunk.chunkType = old.chunkType ∧ chunk.blockMeta = old.blockMeta
  columns : ClassifiersWritten db.toEntityDb next.toEntityDb (sentenceColumns host plan sentences)
    written
  assignments : next.assignments = upsertAll ChunkAssignment.key
    (written.map fun column ↦ { toChunkDictionary := column }) db.assignments

section Publishing

variable {host : Host} {plan : PersistencePlan} {db next : ClassifiedDb}
  {sentences : List RuntimeChunk} {written : List ChunkDictionary}

/-- The column of a chunk behind a publication. -/
theorem PublishesChunks.column (hpublishes : PublishesChunks host plan db next sentences written)
    (chunkUuid : Uuid) (table : DictionaryTable) : next.column chunkUuid table =
      (db.column chunkUuid table).or
        ((lookup ChunkDictionary.key (chunkUuid, table) written).map
          ChunkDictionary.dictionaryId) := by
  rw [ClassifiedDb.column, hpublishes.columns.columns, lookup_append, Option.map_or]
  rfl

/-- The assignment of a chunk behind a publication. -/
theorem PublishesChunks.assignment
    (hpublishes : PublishesChunks host plan db next sentences written)
    (hdistinct : (written.map ChunkDictionary.key).Nodup) (chunkUuid : Uuid)
    (table : DictionaryTable) : next.assignment chunkUuid table =
      ((lookup ChunkDictionary.key (chunkUuid, table) written).map
        ChunkDictionary.dictionaryId).or (db.assignment chunkUuid table) := by
  have hreverse : lookup ChunkDictionary.key (chunkUuid, table) written.reverse =
      lookup ChunkDictionary.key (chunkUuid, table) written :=
    lookup_reverse hdistinct _
  have hmap : ∀ columns : List ChunkDictionary,
      (lookup ChunkAssignment.key (chunkUuid, table) (columns.map fun column ↦
        { toChunkDictionary := column })).map (fun row ↦ row.dictionaryId) =
        (lookup ChunkDictionary.key (chunkUuid, table) columns).map
          ChunkDictionary.dictionaryId := by
    intro columns
    rw [lookup, List.find?_map, Option.map_map]
    rfl
  rw [ClassifiedDb.assignment, hpublishes.assignments, lookup_upsertAll, Option.map_or,
    ← List.map_reverse, hmap, hreverse]
  rfl

/-- A publication that passed the gate keeps the agreement. -/
theorem PublishesChunks.classified
    (hpublishes : PublishesChunks host plan db next sentences written) (hdb : Classified db) :
    Classified next := by
  obtain ⟨marked, hadds, hregistry, hids, hmarked⟩ := hpublishes.chunks
  obtain ⟨rows, hchunks, hrowIds, hcarries⟩ := hadds.rows
  have hkeys : (written.map ChunkDictionary.key).Nodup :=
    hpublishes.columns.keys ▸ nodup_sentenceColumns hadds.distinct
  have hfresh : ∀ sentence ∈ sentences, sentence.uuid ∉ db.registry :=
    fun sentence hsentence ↦ hregistry ▸ hadds.fresh sentence hsentence
  have hgrown : ∀ id ∈ db.registry, id ∈ next.registry := hpublishes.columns.registry
  have hwrittenOf : ∀ {column}, column ∈ written →
      ∃ sentence ∈ sentences, column.chunkUuid = sentence.uuid :=
    exists_of_mem_written hpublishes.columns
  refine ⟨fun chunk hchunk classifier hclassifier ↦ ?_, ?_, fun chunk hchunk ↦ ?_,
    fun column hcolumn ↦ ?_⟩
  · rw [hchunks] at hchunk
    rcases List.mem_append.mp hchunk with hold | hnew
    · obtain ⟨old, hold, hid, htype, hmeta⟩ := hmarked chunk hold
      obtain ⟨row, hrow, htable, hvalue, hcolumn, hassignment, hrowType⟩ :=
        hdb.agree old hold classifier hclassifier
      have hnone : lookup ChunkDictionary.key (old.id, classifier.2) written = none := by
        refine lookup_eq_none.mpr fun column hcolumn hkey ↦ ?_
        obtain ⟨sentence, hsentence, huuid⟩ := hwrittenOf hcolumn
        have hsame : column.chunkUuid = old.id := congrArg Prod.fst hkey
        exact hfresh sentence hsentence (huuid ▸ hsame ▸ hdb.chunks old hold)
      refine ⟨row, hpublishes.columns.dictionaries row hrow, htable, hmeta ▸ hvalue, ?_, ?_,
        fun hequal ↦ htype.trans (hrowType hequal)⟩
      · rw [hid, hpublishes.column, hcolumn, Option.some_or]
      · rw [hid, hpublishes.assignment hkeys, hnone, Option.map_none, Option.none_or, hassignment]
    · obtain ⟨sentence, hsentence, hcarried⟩ := hcarries chunk hnew
      obtain ⟨value, hvalue, hentry⟩ :=
        @exists_mem_sentenceColumns host plan _ _ hsentence _ hclassifier
      obtain ⟨row, hrow, htable, hdescr, hcolumn⟩ := hpublishes.columns.found _ hentry
      have hfound : lookup ChunkDictionary.key (chunk.id, classifier.2) written =
          some { chunkUuid := sentence.uuid, table := classifier.2, dictionaryId := row.id } := by
        rw [lookup_eq_some hkeys]
        exact ⟨hcolumn, by rw [hcarried.id]; rfl⟩
      have hnone : db.column chunk.id classifier.2 = none := by
        rw [ClassifiedDb.column, Option.map_eq_none_iff]
        refine lookup_eq_none.mpr fun column hcolumn hkey ↦ ?_
        have hsame : column.chunkUuid = chunk.id := congrArg Prod.fst hkey
        exact hfresh sentence hsentence
          (hcarried.id ▸ hsame ▸ hdb.columns column hcolumn)
      refine ⟨row, hrow, htable, hdescr.symm ▸ hcarried.fields classifier hclassifier value hvalue,
        ?_, ?_, fun hequal ↦ ?_⟩
      · rw [hpublishes.column, hnone, hfound, Option.none_or]
        rfl
      · rw [hpublishes.assignment hkeys, hfound]
        rfl
      · have hfield : classifier.1 = "type" := by
          have hall : ∀ classifier ∈ semanticClassifierDictionaries, classifier.2 = .chunkTypes →
            classifier.1 = "type" := by decide
          exact hall classifier hclassifier hequal
        rw [hfield, hcarried.type] at hvalue
        exact (Option.some.inj hvalue).trans hdescr.symm
  · rw [hchunks, List.map_append, hids, hrowIds, List.nodup_append]
    refine ⟨hdb.distinct, hadds.distinct, fun id hid other hother hequal ↦ ?_⟩
    obtain ⟨chunk, hchunk, rfl⟩ := List.mem_map.mp hid
    obtain ⟨sentence, hsentence, rfl⟩ := List.mem_map.mp hother
    exact hfresh sentence hsentence (hequal ▸ hdb.chunks chunk hchunk)
  · rw [hchunks] at hchunk
    rcases List.mem_append.mp hchunk with hold | hnew
    · obtain ⟨old, hold, hid, -, -⟩ := hmarked chunk hold
      exact hgrown _ (hid ▸ hdb.chunks old hold)
    · obtain ⟨sentence, hsentence, hcarried⟩ := hcarries chunk hnew
      exact hcarried.id ▸ hadds.registered sentence hsentence
  · rw [hpublishes.columns.columns] at hcolumn
    rcases List.mem_append.mp hcolumn with hold | hnew
    · exact hgrown _ (hdb.columns column hold)
    · obtain ⟨sentence, hsentence, huuid⟩ := hwrittenOf hnew
      exact huuid ▸ hadds.registered sentence hsentence

/-- What a publication leaves: the same chunks with their classifiers, or the chunks of a hierarchy
that passed the gate. -/
theorem Classified.publish {call : IngestionCall} (hdb : Classified db)
    (hpublish : db.publish host call = .ok next) : Classified next := by
  obtain ⟨entities, hingest, hnext⟩ := bind_eq_ok.mp hpublish
  cases hnext
  obtain ⟨publication, hpublication, hingest⟩ := bind_eq_ok.mp hingest
  obtain ⟨paragraphs, hierarchy, kept, runs, assertions, hplan, hwrite, htables, hkept⟩ :=
    tables_of_publish hpublication
  rcases hkept with ⟨hmatch, rfl⟩ | ⟨hnot, rfl⟩
  · dsimp only at hingest
    rw [if_pos hmatch] at hingest
    obtain ⟨planned, hplanned, hclassify⟩ := bind_eq_ok.mp hingest
    obtain rfl : paragraphs = planned := Except.ok.inj (hplan.symm.trans hplanned)
    have hadds := addsChunks_of_writeHierarchy hwrite
    obtain ⟨⟨registry, hregistry⟩, -⟩ := writesOnly_of_writeClassifiers hclassify
    obtain ⟨written, hwritten⟩ := classifiersWritten_of_writeClassifiers hclassify
    have hcolumns : (plannedSentences paragraphs).flatMap (fun entry ↦
        (classifierEntries host (mapPlan host call.request) entry.1).map fun value ↦
          (entry.1.uuid, value)) = sentenceColumns host (mapPlan host call.request)
            ((plannedSentences paragraphs).map Prod.fst) := by
      rw [sentenceColumns, List.flatMap_map]
    have haccepted : ∀ id ∈ kept.registry, id ∈ entities.registry := by
      intro id hid
      refine hwritten.registry id ?_
      rw [Db.registry, htables]
      exact hid
    have hsame : AddsChunks host (mapPlan host call.request) kept entities.toDb [] :=
      .of_same (by rw [hregistry, htables]) haccepted
    have hdrop : entities.chunkDictionaries.drop db.chunkDictionaries.length = written := by
      rw [hwritten.columns]
      exact List.drop_left
    have hpublishes : PublishesChunks host (mapPlan host call.request) db
        { db with
          toEntityDb := entities
          assignments := upsertAll ChunkAssignment.key
            (written.map fun column ↦ { toChunkDictionary := column }) db.assignments }
        ((plannedSentences paragraphs).map Prod.fst) written :=
      { chunks := by
          refine ⟨markHierarchy call.ids.now (mapPlan host call.request).documentId db.toDb,
            by simpa using hadds.trans hsame, rfl, ?_, fun chunk hchunk ↦ ?_⟩
          · exact map_updateWhere (by intro _; rfl) _
          obtain ⟨old, hold, rfl⟩ := mem_updateWhere.mp hchunk
          refine ⟨old, hold, ?_⟩
          split <;> exact ⟨rfl, rfl, rfl⟩
        columns := hcolumns ▸
          { columns := hwritten.columns
            keys := hwritten.keys
            dictionaries := hwritten.dictionaries
            registry := fun id hid ↦ haccepted id (hadds.registry id hid)
            found := hwritten.found }
        assignments := rfl }
    rw [hdrop]
    exact hpublishes.classified hdb
  · dsimp only at hingest
    rw [if_neg hnot] at hingest
    cases hingest
    rw [htables, List.drop_length]
    exact ⟨hdb.agree, hdb.distinct, hdb.chunks, hdb.columns⟩

end Publishing

/-! ### Runs -/

/-- Every operation that keeps the classifiers of the metadata keeps the agreement. -/
theorem Classified.step {host : Host} {parseFloat : Text → Option PyFloat} {db next : ClassifiedDb}
    {action : ClassifierAction} (hdb : Classified db) (hkeeps : KeepsClassifiers db action)
    (hstep : classifierStep host parseFloat db action = some next) : Classified next := by
  have happly := toOption_eq_some.mp hstep
  cases action with
  | publish call => exact hdb.publish happly
  | updateMetadata entryId request =>
    cases hbatch : DocStore.updateBatch host parseFloat entryId request false db with
    | error failure =>
      rw [ClassifierAction.apply, hbatch] at happly
      cases happly
    | ok result =>
      rw [ClassifierAction.apply, hbatch] at happly
      cases happly
      exact hdb.updateBatch hbatch
  | updateChunk entryId call chunkUuid values => exact hdb.updateChunk hkeeps happly
  | upsert entryId root =>
    obtain ⟨chunk, hchunk, hid, htype, hfields⟩ := hkeeps
    exact hdb.upsertChunk hchunk hid htype hfields happly

instance (db : ClassifiedDb) (action : ClassifierAction) : Decidable (KeepsClassifiers db action) :=
  match action with
  | .publish _ | .updateMetadata _ _ => isTrue trivial
  | .updateChunk _ _ _ _ => inferInstanceAs (Decidable (∀ given ∈ _, _))
  | .upsert _ _ => inferInstanceAs (Decidable (∃ chunk ∈ _, _))

instance (db : ClassifiedDb) (chunk : SemanticChunkRow) (classifier : String × DictionaryTable) :
    Decidable (FieldAgrees db chunk classifier) :=
  inferInstanceAs (Decidable (∃ row ∈ _, _))

instance (db : ClassifiedDb) : Decidable (ClassifiersAgree db) :=
  inferInstanceAs (Decidable (∀ chunk ∈ _, _))

/-- The chunk of the letter as the chunk repository gets it. -/
def letterRoot (textValue chunkType : Text) (blockMeta : Dict) : RootRow where
  id := sampleUuid 151
  documentId := sampleRequest.documentId
  paragraphId := (sampleIds 1).paragraphId 0
  chapterId := (sampleIds 1).chapterId
  orderIndex := 0
  text := textValue
  sourceStart := 0
  sourceEnd := 1
  chunkType
  blockMeta

/-- The letter, with another type, then with another text, then as it is from the chunk
repository. -/
def keptLetter : List ClassifierAction :=
  [.publish (letterIngestion 1),
    .updateMetadata sampleEntryId
      { updates := some (.obj [("type", .str (lit "Note"))]), select := fun _ ↦ .ok [sampleUuid 151] },
    .updateChunk sampleEntryId { now := 3, versionId := sampleUuid 3 } (sampleUuid 151)
      { text := some (lit "e") },
    .upsert sampleEntryId (letterRoot (lit "e") (lit "Note")
      [("type", .str (lit "Note")), ("role", .str (lit "system")), ("status", .str resetStatus),
        ("block_type", .str (lit "sentence")), ("language", .str (lit "UNKNOWN")),
        ("category", .str resetCategory)])]

/-- The letter, from the chunk repository with the same text and another status. -/
def readyLetter : List ClassifierAction :=
  [.publish (letterIngestion 1),
    .upsert sampleEntryId
      (letterRoot (lit "d") (lit "DocBlock") [("status", .str (lit "ready"))])]

end DocStore
