import DocStore.Runtime.EntityUpdate

/-!
# Partial updates

An update assigns the columns that its values name and the columns that the values were completed
with. The defaults that complete them are those of a new row, so an update leaves the columns that
it does not name as they were exactly when the row already holds these defaults. Other tables than
`documents` and `files` have no defaults, and there nothing else is assigned: what the reset after a
change of a chunk text writes is described apart.
-/

set_option autoImplicit false
set_option relaxedAutoImplicit false

namespace DocStore

open Foundation

variable {host : Host} {call : UpdateCall} {table : EntityTable} {id : Uuid}
  {values payload : Dict} {db next : ColumnDb}

/-! ### The completed values -/

theorem nodup_defaultColumns (table : EntityTable) (values : Dict) :
    ((defaultColumns table values).map Prod.fst).Nodup := by
  cases table <;> simp only [defaultColumns, List.map_nil, List.nodup_nil]
  · simp
  · unfold sourceHashDefaults
    split <;> simp

/-- Defaults are neither UUIDs nor the time of the update. -/
theorem notMem_of_defaultColumns {entry : String × Json}
    (hmem : entry ∈ defaultColumns table values) :
    entry.1 ∉ uuidFields ∧ entry.1 ≠ "updated_at" := by
  have hnames : entry.1 ∈ ["processing_status", "processing_attempt", "block_meta",
      "checksum_algorithm", "body_sha256", "content_sha256", "needs_rechunk",
      "needs_revectorize"] := by
    cases table <;> simp only [defaultColumns, List.not_mem_nil] at hmem
    · revert entry
      simp
    · unfold sourceHashDefaults at hmem
      split at hmem <;> revert entry <;> simp
  generalize entry.1 = name at hnames
  revert name
  decide

/-- The completed values of a column that the values do not name are its default. -/
theorem getKey_completedValues {column : String} (hunnamed : getKey values column = none) :
    getKey (completedValues table values).reverse column =
      getKey (defaultColumns table values) column := by
  have hnodup := nodup_defaultColumns table values
  have hadded : (((defaultColumns table values).filter fun entry ↦
      (getKey values entry.1).isNone).map Prod.fst).Nodup :=
    (List.filter_sublist.map Prod.fst).nodup hnodup
  have hreverse : getKey values.reverse column = none := by
    rw [getKey_eq_none] at hunnamed ⊢
    exact fun entry hmem ↦ hunnamed entry (List.mem_reverse.mp hmem)
  rw [completedValues, foldl_setDefault hnodup, List.reverse_append, getKey_append, hreverse,
    Option.or_none, getKey_reverse hadded]
  exact getKey_filter (fun key ↦ (getKey values key).isNone) (by simp [hunnamed]) _

/-- Values are changed in UUID columns only. -/
theorem eq_of_normalizedValue {entry result : String × Json}
    (hnormalized : normalizedValue host entry = .ok result) :
    result.1 = entry.1 ∧ (entry.1 ∉ uuidFields → result = entry) := by
  unfold normalizedValue at hnormalized
  split at hnormalized
  next huuid =>
    have hmem : entry.1 ∈ uuidFields := by simpa using huuid
    refine ⟨?_, fun hnot ↦ absurd hmem hnot⟩
    split at hnormalized
    · cases hnormalized
      rfl
    · split at hnormalized
      · cases hnormalized
        rfl
      · cases hnormalized
  next =>
    cases hnormalized
    exact ⟨rfl, fun _ ↦ rfl⟩

/-- Normalized values are read as they were, in columns without UUIDs. -/
theorem getKey_of_normalized {entries results : Dict} (hall : List.Forall₂
    (fun entry result ↦ normalizedValue host entry = .ok result) entries results)
    (column : String) :
    (getKey results column = none ↔ getKey entries column = none) ∧
      (column ∉ uuidFields → getKey results column = getKey entries column) := by
  induction hall with
  | nil => exact ⟨Iff.rfl, fun _ ↦ rfl⟩
  | cons hfirst _ ih =>
    obtain ⟨hkey, hsame⟩ := eq_of_normalizedValue hfirst
    simp only [getKey, hkey]
    split
    next hcolumn =>
      refine ⟨by simp, fun hnot ↦ ?_⟩
      rw [hsame (hcolumn ▸ hnot)]
    next => exact ih

/-- What `_validated_values` returns. -/
theorem validatedValues_eq_ok (hvalid : validatedValues host table values = .ok payload) :
    (∀ entry ∈ values, entry.1 ∈ writableFields table) ∧
      List.Forall₂ (fun entry result ↦ normalizedValue host entry = .ok result)
        (completedValues table values) payload := by
  obtain ⟨hwritable, hvalid⟩ := raiseIf_bind_eq_ok.mp hvalid
  obtain ⟨normalized, hnormalized, hvalid⟩ := bind_eq_ok.mp hvalid
  obtain ⟨-, hvalid⟩ := raiseIf_bind_eq_ok.mp hvalid
  obtain ⟨-, hvalid⟩ := raiseIf_bind_eq_ok.mp hvalid
  obtain ⟨-, hvalid⟩ := raiseIf_bind_eq_ok.mp hvalid
  cases hvalid
  exact ⟨by simpa using hwritable, mapM_eq_ok.mp hnormalized⟩

/-- What an update assigns to a column that its values do not name is the default of the column. -/
theorem getKey_validatedValues (hvalid : validatedValues host table values = .ok payload)
    {column : String} (hunnamed : getKey values column = none) :
    getKey payload.reverse column = getKey (defaultColumns table values) column := by
  have hall := List.forall₂_reverse_iff.mpr (validatedValues_eq_ok hvalid).2
  obtain ⟨hnone, hsame⟩ := getKey_of_normalized hall column
  rw [← getKey_completedValues hunnamed]
  by_cases huuid : column ∈ uuidFields
  · have hdefault : getKey (completedValues table values).reverse column = none := by
      rw [getKey_completedValues hunnamed, getKey_eq_none]
      rintro entry hmem rfl
      exact (notMem_of_defaultColumns hmem).1 huuid
    rw [hdefault, hnone.mpr hdefault]
  · exact hsame huuid

/-! ### What an update keeps -/

/-- What `_replace_semantic_chunk_text` writes. -/
def resetColumnNames : List String :=
  ["text", "char_count", "status_id", "category_id", "block_meta"]

/-- Whether an update changes the text of a chunk. -/
def textChanges (host : Host) (table : EntityTable) (id : Uuid) (values : Dict) (db : ColumnDb) :
    Bool :=
  table = .semanticChunks && (newChunkText host values).any fun text ↦ db.chunkText id ≠ some text

/-- A row after an update whose values name some of its columns: the others are as they were, apart
from the time of the update and, when the text changed, the metadata that went with the old text. -/
structure KeepsUnnamed (values : Dict) (textChanged : Bool) (before after : ColumnRow) : Prop where
  column : ∀ column, getKey values column = none → column ≠ "updated_at" →
    ¬(textChanged = true ∧ column ∈ resetColumnNames) →
    getKey after.2 column = getKey before.2 column
  blockMeta : textChanged = true → getKey values "block_meta" = none →
    getKey after.2 "block_meta" = some (.obj (resetSemanticChunkBlockMeta
      (asMapping ((getKey before.2 "block_meta").getD .null))))

/-- A row holds the defaults of the columns that the values do not name. -/
def DefaultsHeld (table : EntityTable) (values : Dict) (row : ColumnRow) : Prop :=
  ∀ entry ∈ defaultColumns table values, getKey values entry.1 = none →
    getKey row.2 entry.1 = some entry.2

/-- An assignment writes the time of the update, and otherwise only what the payload names. -/
theorem getKey_assignColumns (now : Instant) (payload : Dict) (row : ColumnRow) {column : String}
    (hcolumn : column ≠ "updated_at") :
    getKey (assignColumns now payload row).2 column =
      (getKey payload.reverse column).or (getKey row.2 column) := by
  unfold assignColumns
  rw [getKey_updateKeys, List.reverse_append, getKey_append]
  split <;> simp [getKey, hcolumn.symm]

/-- An assignment keeps the unnamed columns exactly when the row holds their defaults. -/
theorem keepsUnnamed_assignColumns_iff (hvalid : validatedValues host table values = .ok payload)
    (now : Instant) (row : ColumnRow) :
    KeepsUnnamed values false row (assignColumns now payload row) ↔
      DefaultsHeld table values row := by
  have hassigned : ∀ column, getKey values column = none → column ≠ "updated_at" →
      getKey (assignColumns now payload row).2 column =
        (getKey (defaultColumns table values) column).or (getKey row.2 column) := by
    intro column hunnamed hcolumn
    rw [getKey_assignColumns now payload row hcolumn, getKey_validatedValues hvalid hunnamed]
  constructor
  · rintro ⟨hkeeps, -⟩ entry hmem hunnamed
    have hcolumn := (notMem_of_defaultColumns hmem).2
    have hdefault : getKey (defaultColumns table values) entry.1 = some entry.2 :=
      (getKey_eq_some (nodup_defaultColumns table values)).mpr hmem
    rw [← hkeeps entry.1 hunnamed hcolumn (by simp), hassigned entry.1 hunnamed hcolumn, hdefault,
      Option.some_or]
  · intro hheld
    refine ⟨fun column hunnamed hcolumn _ ↦ ?_, by simp⟩
    rw [hassigned column hunnamed hcolumn]
    cases hdefault : getKey (defaultColumns table values) column with
    | none => rw [Option.none_or]
    | some value =>
      have hmem := (getKey_eq_some (nodup_defaultColumns table values)).mp hdefault
      rw [Option.some_or, hheld (column, value) hmem hunnamed]

/-! ### The text of a chunk -/

/-- A dictionary entry is found or added, and nothing else happens. -/
theorem dictionaryId_rows (freshId : Uuid) (dictionary : DictionaryTable) (descr : Text)
    (db : ColumnDb) :
    (dictionaryId freshId dictionary descr db).2.chunkTexts = db.chunkTexts ∧
      ∃ added, (dictionaryId freshId dictionary descr db).2.rows = db.rows ++ added ∧
        ∀ row ∈ added, row.1 = .dictionary dictionary := by
  unfold dictionaryId
  split
  · exact ⟨rfl, [], (List.append_nil _).symm, by simp⟩
  · exact ⟨rfl, _, rfl, by simp⟩

/-- A new text resets the columns of the chunk, and may add the entries that they refer to. -/
theorem replaceChunkColumns_rows (call : UpdateCall) {text : Text} {db : ColumnDb}
    (hchanged : db.chunkText id ≠ some text) :
    ∃ statusId categoryId added,
      (replaceChunkColumns call id text db).rows =
        updateWhere (addressed .semanticChunks id)
          (fun row ↦ (row.1, updateKeys row.2 (resetColumns text statusId categoryId row.2)))
          db.rows ++ added ∧
      ∀ row ∈ added, ∃ dictionary, row.1 = .dictionary dictionary := by
  obtain ⟨-, statuses, hstatuses, hstatus⟩ :=
    dictionaryId_rows call.statusId .chunkStatuses resetStatus db
  unfold replaceChunkColumns
  rw [if_neg hchanged]
  rcases hfound : dictionaryId call.statusId .chunkStatuses resetStatus db with
    ⟨statusId, withStatus⟩
  rw [hfound] at hstatuses
  obtain ⟨-, categories, hcategories, hcategory⟩ :=
    dictionaryId_rows call.categoryId .categories resetCategory withStatus
  rcases hboth : dictionaryId call.categoryId .categories resetCategory withStatus with
    ⟨categoryId, withBoth⟩
  rw [hboth] at hcategories
  have hadded : ∀ row ∈ statuses ++ categories, ∃ dictionary, row.1 = .dictionary dictionary := by
    intro row hmem
    rcases List.mem_append.mp hmem with hmem | hmem
    · exact ⟨_, hstatus row hmem⟩
    · exact ⟨_, hcategory row hmem⟩
  refine ⟨statusId, categoryId, statuses ++ categories, ?_, hadded⟩
  dsimp only at hstatuses hcategories ⊢
  rw [hboth]
  dsimp only
  rw [hcategories, hstatuses, List.append_assoc, updateWhere_append]
  congr 1
  refine updateWhere_of_forall_not fun row hmem ↦ ?_
  obtain ⟨dictionary, hrow⟩ := hadded row hmem
  simp [addressed, hrow]

/-- A reset writes the columns that it names. -/
theorem getKey_resetColumns (text : Text) (statusId categoryId : Json) (columns : Dict)
    {column : String} (hcolumn : column ∉ resetColumnNames) :
    getKey (updateKeys columns (resetColumns text statusId categoryId columns)) column =
      getKey columns column := by
  refine getKey_updateKeys_of_forall_ne ?_ columns
  rintro entry hmem rfl
  refine hcolumn ?_
  revert entry
  simp [resetColumns, resetColumnNames]

/-- What is assigned to a chunk is what the values name. -/
theorem getKey_chunkPayload (hvalid : validatedValues host .semanticChunks values = .ok payload)
    {column : String} (hunnamed : getKey values column = none) :
    getKey (popKeys payload ["text", "body"]).reverse column = none := by
  have hnone : getKey payload.reverse column = none := getKey_validatedValues hvalid hunnamed
  rw [getKey_eq_none] at hnone ⊢
  intro entry hmem
  exact hnone entry (List.mem_reverse.mpr (List.mem_of_mem_filter (List.mem_reverse.mp hmem)))

/-- The text that a chunk gets is the one of the values. -/
theorem newChunkText_validatedValues
    (hvalid : validatedValues host .semanticChunks values = .ok payload) :
    newChunkText host payload = newChunkText host values := by
  have hsame : ∀ column, column ∉ uuidFields → getKey payload column = getKey values column :=
    fun column ↦ (getKey_of_normalized (validatedValues_eq_ok hvalid).2 column).2
  rw [newChunkText, newChunkText, getValue, getValue, getValue, getValue, hsame "text" (by decide),
    hsame "body" (by decide)]

/-- A chunk whose text stays keeps the unnamed columns. -/
theorem keepsUnnamed_chunk (hvalid : validatedValues host .semanticChunks values = .ok payload)
    (now : Instant) (row : ColumnRow) :
    KeepsUnnamed values false row (assignColumns now (popKeys payload ["text", "body"]) row) := by
  refine ⟨fun column hunnamed hcolumn _ ↦ ?_, by simp⟩
  rw [getKey_assignColumns now _ row hcolumn, getKey_chunkPayload hvalid hunnamed, Option.none_or]

/-- A chunk whose text changes keeps the unnamed columns but those of the reset, and its metadata
but the reset fields. -/
theorem KeepsUnnamed.reset {before after : ColumnRow}
    (hkeeps : KeepsUnnamed values false before after) (text : Text) (statusId categoryId : Json) :
    KeepsUnnamed values true before
      (after.1, updateKeys after.2 (resetColumns text statusId categoryId after.2)) := by
  constructor
  · intro column hunnamed hcolumn hnot
    have hreset : column ∉ resetColumnNames := fun hmem ↦ hnot ⟨rfl, hmem⟩
    show getKey (updateKeys after.2 _) column = _
    rw [getKey_resetColumns text statusId categoryId after.2 hreset]
    exact hkeeps.column column hunnamed hcolumn (by simp)
  · intro _ hunnamed
    have hsame := hkeeps.column "block_meta" hunnamed (by decide) (by simp)
    rw [getKey_updateKeys, ← hsame]
    simp [resetColumns, getKey]

/-! ### Updates -/

/-- An update does not move a row whose UUID it does not name. -/
theorem addressed_assignColumns (now : Instant) (hnone : getKey payload.reverse "id" = none)
    (row : ColumnRow) :
    addressed table id (assignColumns now payload row) = addressed table id row := by
  unfold addressed
  rw [getKey_assignColumns now payload row (by decide), hnone, Option.none_or]
  rfl

/-- An update of a chunk rewrites the row of the chunk and keeps its unnamed columns. -/
theorem updateSemanticChunk_rows
    (hvalid : validatedValues host .semanticChunks values = .ok payload)
    (hupdate : updateSemanticChunk host call id payload db = .ok next) :
    ∃ (change : ColumnRow → ColumnRow) (added : List ColumnRow),
      next.rows = updateWhere (addressed .semanticChunks id) change db.rows ++ added ∧
      (∀ row ∈ added, ∃ dictionary, row.1 = .dictionary dictionary) ∧
      ∀ row, KeepsUnnamed values (textChanges host .semanticChunks id values db) row
        (change row) := by
  obtain ⟨-, hnext⟩ := raiseIf_bind_eq_ok.mp hupdate
  rw [pure_eq_ok, newChunkText_validatedValues hvalid] at hnext
  set assigned := updatePlainEntity call .semanticChunks id (popKeys payload ["text", "body"]) db
    with hassigned
  have hkeeps := fun row ↦ keepsUnnamed_chunk hvalid call.now row
  have htexts : assigned.chunkText id = db.chunkText id := rfl
  by_cases hchanges : textChanges host .semanticChunks id values db = true
  · obtain ⟨text, htext, hchanged⟩ : ∃ text, newChunkText host values = some text ∧
        assigned.chunkText id ≠ some text := by
      simpa [textChanges, Option.any_eq_true, htexts] using hchanges
    obtain ⟨statusId, categoryId, added, hrows, hadded⟩ := replaceChunkColumns_rows call hchanged
    have hid : getKey values "id" = none := by
      rw [getKey_eq_none]
      rintro entry hmem hentry
      have hwritable := (validatedValues_eq_ok hvalid).1 entry hmem
      rw [hentry] at hwritable
      revert hwritable
      decide
    have hstays : ∀ row, addressed .semanticChunks id row = true → addressed .semanticChunks id
        (assignColumns call.now (popKeys payload ["text", "body"]) row) = true := by
      intro row hrow
      rw [addressed_assignColumns call.now (getKey_chunkPayload hvalid hid), hrow]
    rw [show (replaceChunkColumns call id text assigned).rows = next.rows by rw [hnext, htext],
      hassigned, updatePlainEntity, updateWhere_updateWhere hstays] at hrows
    refine ⟨_, added, hrows, hadded, fun row ↦ ?_⟩
    rw [hchanges]
    exact (hkeeps row).reset text statusId categoryId
  · have hplain : next = assigned := by
      rw [hnext]
      split
      next text htext =>
        refine if_pos (Decidable.byContradiction fun hchanged ↦ hchanges ?_)
        simpa [textChanges, htext, htexts] using hchanged
      next => rfl
    refine ⟨_, [], by rw [hplain, List.append_nil]; rfl, by simp, ?_⟩
    rw [Bool.eq_false_iff.mpr hchanges]
    exact hkeeps

/-- An update keeps the columns that its values do not name, the time of the update and the reset
after a change of a chunk text apart, exactly when the row already holds the defaults that complete
the values. All other rows stay; a reset may add entries of dictionaries. -/
theorem keepsUnnamed_iff_of_updateEntity
    (hupdate : updateEntity host call table id values db = .ok next) :
    ∃ (after : ColumnRow → ColumnRow) (added : List ColumnRow),
      next.rows = db.rows.map after ++ added ∧
      (∀ row ∈ added, ∃ dictionary, row.1 = .dictionary dictionary) ∧
      ∀ row ∈ db.rows,
        (addressed table id row = false → after row = row) ∧
        (addressed table id row = true →
          (KeepsUnnamed values (textChanges host table id values db) row (after row) ↔
            DefaultsHeld table values row)) := by
  obtain ⟨-, hupdate⟩ := raiseIf_bind_eq_ok.mp hupdate
  obtain ⟨payload, hvalid, hupdate⟩ := bind_eq_ok.mp hupdate
  obtain ⟨-, hupdate⟩ := raiseIf_bind_eq_ok.mp hupdate
  obtain ⟨-, hupdate⟩ := raiseIf_bind_eq_ok.mp hupdate
  obtain ⟨-, hwritten⟩ := raiseIf_bind_eq_ok.mp hupdate
  split at hwritten
  next hchunks =>
    subst hchunks
    obtain ⟨change, added, hrows, hadded, hkeeps⟩ := updateSemanticChunk_rows hvalid hwritten
    refine ⟨_, added, hrows, hadded, fun row _ ↦ ⟨fun hnot ↦ by simp [hnot], fun haddressed ↦ ?_⟩⟩
    have hheld : DefaultsHeld .semanticChunks values row := by simp [DefaultsHeld, defaultColumns]
    simp only [haddressed, if_true, hheld, iff_true]
    exact hkeeps row
  next hplain =>
    cases hwritten
    refine ⟨_, [], (List.append_nil _).symm, by simp,
      fun row _ ↦ ⟨fun hnot ↦ by simp [hnot], fun haddressed ↦ ?_⟩⟩
    have hsame : textChanges host table id values db = false := by simp [textChanges, hplain]
    rw [if_pos haddressed, hsame]
    exact keepsUnnamed_assignColumns_iff hvalid call.now row

/-- A processed document. -/
def processedDocument : ColumnRow :=
  (.documents, [("id", .str (uuidText 1)), ("owner_id", .null), ("title", .str (lit "a")),
    ("processing_status", .str (lit "completed")), ("processing_attempt", .num 1),
    ("block_meta", .obj [("pages", .num 3)]), ("checksum_algorithm", .str (lit "sha256")),
    ("needs_revectorize", .bool true), ("updated_at", .num 0)])

/-- A new project name is an update that keeps the other columns. -/
theorem exists_renamed_project :
    let call : UpdateCall := { now := 1, statusId := 2, categoryId := 3 }
    let project : ColumnRow :=
      (.projects, [("id", .str (uuidText 1)), ("name", .str (lit "a")), ("updated_at", .num 0)])
    let values : Dict := [("name", .str (lit "b"))]
    ∃ next after added,
      updateEntity sampleHost call .projects 1 values { rows := [project] } = .ok next ∧
      next.rows = after :: added ∧ KeepsUnnamed values false project after := by
  intro call project values
  obtain ⟨next, hupdate⟩ : ∃ next,
      updateEntity sampleHost call .projects 1 values { rows := [project] } = .ok next :=
    exists_of_succeeds (by decide +kernel)
  obtain ⟨after, added, hrows, -, hafter⟩ := keepsUnnamed_iff_of_updateEntity hupdate
  obtain ⟨-, hkeeps⟩ := hafter project (by simp)
  have hheld : DefaultsHeld .projects values project := by simp [DefaultsHeld, defaultColumns]
  exact ⟨next, after project, added, hupdate, hrows, (hkeeps (by decide +kernel)).mpr hheld⟩

/-- A new title takes a processed document back to a draft. -/
theorem exists_title_that_resets_document :
    let call : UpdateCall := { now := 1, statusId := 2, categoryId := 3 }
    let values : Dict := [("title", .str (lit "b"))]
    ∃ next after, updateEntity sampleHost call .documents 1 values
        { rows := [processedDocument] } = .ok next ∧
      next.rows = [after] ∧
      getKey after.2 "processing_status" = some (.str (lit "draft")) ∧
      ¬KeepsUnnamed values false processedDocument after := by
  refine ⟨_, _, rfl, rfl, rfl, fun hkeeps ↦ ?_⟩
  have hstatus : some (Json.str (lit "draft")) = some (Json.str (lit "completed")) :=
    hkeeps.column "processing_status" rfl (by decide) (by simp)
  exact absurd (Json.str.inj (Option.some.inj hstatus)) (by decide)

end DocStore
