import DocStore.Database.SemanticChunkMapper
import DocStore.Domain.UuidText
import DocStore.Foundation.Grouping

/-!
# What the rows of a chunk say

A `Content` is what is stored of a chunk: the columns of the root row, the metrics, and the
sequences that the child tables keep row by row. The rows that the mapper makes of a payload are the
rows of some content (`exists_content`). Metadata that are taken apart and put together again have
the same entries (`getKey_mergeBlockMeta`).
-/

set_option autoImplicit false
set_option relaxedAutoImplicit false

namespace DocStore.SemanticChunkMapper

open Foundation

/-! ### Values that are read back -/

mutual

/-- Whether the keys of every dict in a value are distinct, as those of a Python dict are. -/
def keysDistinct : Json → Bool
  | .arr items => itemsDistinct items
  | .obj fields => fieldsDistinct fields
  | _ => true

/-- `keysDistinct` of every item. -/
def itemsDistinct : List Json → Bool
  | [] => true
  | value :: rest => keysDistinct value && itemsDistinct rest

/-- `keysDistinct` of every value, where no key is there twice. -/
def fieldsDistinct : List (String × Json) → Bool
  | [] => true
  | (key, value) :: rest =>
    (getKey rest key).isNone && keysDistinct value && fieldsDistinct rest

end

/-- The fields behind others keep their values. -/
theorem fieldsDistinct_getKey {fields : Dict} (hfields : fieldsDistinct fields = true)
    {key : String} {value : Json} (hfound : getKey fields key = some value) :
    keysDistinct value = true := by
  induction fields with
  | nil => cases hfound
  | cons entry rest ih =>
    obtain ⟨name, first⟩ := entry
    simp only [fieldsDistinct, Bool.and_eq_true] at hfields
    rw [getKey] at hfound
    split at hfound
    · cases hfound
      exact hfields.1.2
    · exact ih hfields.2 hfound

mutual

/-- A value whose keys are distinct equals itself. -/
theorem same_self : (value : Json) → keysDistinct value = true → value.same value = true
  | .null, _ => rfl
  | .bool _, _ => by simp [Json.same]
  | .num _, _ => by simp [Json.same]
  | .str _, _ => by simp [Json.same]
  | .arr items, hdistinct => by
    rw [keysDistinct] at hdistinct
    exact sameItems_self items hdistinct
  | .obj fields, hdistinct => by
    rw [keysDistinct] at hdistinct
    rw [Json.same, Bool.and_eq_true]
    exact ⟨decide_eq_true rfl, sameFields_self fields hdistinct fields fun _ _ hfound ↦ hfound⟩

theorem sameItems_self : (items : List Json) → itemsDistinct items = true →
    sameItems items items = true
  | [], _ => rfl
  | value :: rest, hdistinct => by
    rw [itemsDistinct, Bool.and_eq_true] at hdistinct
    rw [sameItems, Bool.and_eq_true]
    exact ⟨same_self value hdistinct.1, sameItems_self rest hdistinct.2⟩

/-- A dict has the fields of a part of it. -/
theorem sameFields_self : (part : List (String × Json)) → fieldsDistinct part = true →
    (fields : Dict) → (∀ key value, getKey part key = some value → getKey fields key = some value) →
    sameFields part fields = true
  | [], _, _, _ => rfl
  | (key, value) :: rest, hdistinct, fields, hpart => by
    simp only [fieldsDistinct, Bool.and_eq_true, Option.isNone_iff_eq_none] at hdistinct
    obtain ⟨⟨hnew, hvalue⟩, hrest⟩ := hdistinct
    have hfound : getKey fields key = some value := hpart key value (by simp [getKey])
    have hothers : ∀ other found, getKey rest other = some found →
        getKey fields other = some found := by
      intro other found hother
      refine hpart other found ?_
      have hne : key ≠ other := by
        rintro rfl
        cases hnew.symm.trans hother
      rwa [getKey, if_neg hne]
    simp only [sameFields, hfound, Bool.and_eq_true]
    exact ⟨same_self value hvalue, sameFields_self rest hrest fields hothers⟩

end

variable {host : Host} {numerals : Numerals} {arguments : EmbeddingArguments}

theorem field_of_getKey {payload : Dict} {key : String} {value : Json}
    (hfound : getKey payload key = some value) : field payload key = value := by
  rw [field, hfound, Option.getD_some]

/-- What a Python dict has under a key equals itself. -/
theorem same_field {payload : Dict} (hpayload : fieldsDistinct payload = true) (key : String) :
    (field payload key).same (field payload key) = true := by
  rw [field]
  cases hfound : getKey payload key with
  | none => rfl
  | some value => exact same_self value (fieldsDistinct_getKey hpayload hfound)

theorem fieldsDistinct_asMapping {payload : Dict} (hpayload : fieldsDistinct payload = true)
    (key : String) : fieldsDistinct (asMapping (field payload key)) = true := by
  cases hfound : getKey payload key with
  | none =>
    rw [field, hfound]
    rfl
  | some value =>
    have hvalue := fieldsDistinct_getKey hpayload hfound
    rw [field_of_getKey hfound]
    cases value with
    | obj fields => exact hvalue
    | _ => rfl

/-- A UUID is read back from its text. -/
theorem uuidField_uuidText (id : Uuid) (name : String) :
    uuidField host (.str (uuidText id)) name = .ok id := by
  rw [uuidField, Host.strOf, parseUuid_uuidText]

theorem toInt_intCast (value : ℤ) : toInt numerals (.num value) = .ok value := by
  simp [toInt]

/-- A number that is zero is replaced by zero. -/
theorem toInt_orElse_zero (value : ℤ) :
    toInt numerals (orElse (.num value) (.num 0)) = .ok value := by
  by_cases hzero : value = 0
  · subst hzero
    rfl
  · have htruthy : truthy (.num (value : ℚ)) = true := by simp [truthy, hzero]
    rw [orElse, if_pos htruthy, toInt_intCast]

theorem orElse_obj (fields : Dict) : orElse (.obj fields) (.obj []) = .obj fields := by
  cases fields with
  | nil => rfl
  | cons entry rest => rfl

/-- A list that is empty is written as `None` and read as an empty list again. -/
theorem iterate_orNull (items : List Json) :
    iterate (orElse (orNull items) (.arr [])) = .ok items := by
  cases items with
  | nil => rfl
  | cons value rest => rfl

theorem map_strOf_map_str (texts : List Text) : (texts.map Json.str).map host.strOf = texts := by
  rw [List.map_map]
  exact List.map_id texts

/-- A link is read back from its relation and its target. -/
theorem linkOf_append {relation : Text} (hrelation : ':' ∉ relation) (target : Uuid) :
    linkOf host (.str (relation ++ ':' :: uuidText target)) = .ok (relation, target) := by
  have hcolon : ((relation ++ ':' :: uuidText target).contains ':') = true := by simp
  have hall : ∀ character ∈ relation, decide (character ≠ ':') = true := by
    intro character hmem
    exact decide_eq_true fun heq ↦ hrelation (heq ▸ hmem)
  have htake : (relation ++ ':' :: uuidText target).takeWhile (· ≠ ':') = relation := by
    rw [List.takeWhile_append_of_pos hall]
    simp
  have hdrop : ((relation ++ ':' :: uuidText target).dropWhile (· ≠ ':')).drop 1 =
      uuidText target := by
    rw [List.dropWhile_append_of_pos hall]
    simp
  simp only [linkOf, hcolon, htake, hdrop, uuidField_uuidText]
  rfl

theorem not_mem_of_linkOf {value : Json} {link : Text × Uuid}
    (hlink : linkOf host value = .ok link) : ':' ∉ link.1 := by
  cases value with
  | str text =>
    obtain ⟨-, hlink⟩ := raiseIf_bind_eq_ok.mp hlink
    obtain ⟨target, -, hlink⟩ := bind_eq_ok.mp hlink
    cases hlink
    intro hmem
    have hne := List.mem_takeWhile_imp (p := fun character ↦ decide (character ≠ ':')) hmem
    cases hne
  | _ => cases hlink

/-! ### Metadata that are taken apart -/

section Metadata

/-- The entries of a dict under some keys. -/
theorem getKey_filterMap_keys (keys : List String) (values : Dict) (key : String) :
    getKey (keys.filterMap fun name ↦ (getKey values name).map (Prod.mk name)) key =
      if key ∈ keys then getKey values key else none := by
  induction keys with
  | nil => rfl
  | cons name rest ih =>
    cases hname : getKey values name with
    | none =>
      rw [List.filterMap_cons_none (by rw [hname]; rfl), ih]
      by_cases hkey : key = name
      · subst hkey
        simp [hname]
      · simp [hkey]
    | some value =>
      rw [List.filterMap_cons_some (by rw [hname]; rfl), getKey]
      by_cases hkey : key = name
      · subst hkey
        simp [hname]
      · rw [if_neg (Ne.symm hkey), ih]
        simp [hkey]

theorem map_fst_filterMap_sublist (keys : List String) (values : Dict) :
    ((keys.filterMap fun name ↦ (getKey values name).map (Prod.mk name)).map Prod.fst).Sublist
      keys := by
  induction keys with
  | nil => exact List.Sublist.refl []
  | cons name rest ih =>
    cases hname : getKey values name with
    | none =>
      rw [List.filterMap_cons_none (by rw [hname]; rfl)]
      exact ih.cons name
    | some value =>
      rw [List.filterMap_cons_some (by rw [hname]; rfl)]
      exact ih.cons_cons name

variable (blockMeta : Dict)

theorem getKey_promotedMeta (key : String) : getKey (promotedMeta blockMeta) key =
    if key ∈ knownBlockMetaKeys then getKey blockMeta key else none :=
  getKey_filterMap_keys knownBlockMetaKeys blockMeta key

theorem getKey_extensionMeta (key : String) : getKey (extensionMeta blockMeta) key =
    if key ∈ knownBlockMetaKeys then none else getKey blockMeta key := by
  by_cases hkey : key ∈ knownBlockMetaKeys
  · rw [if_pos hkey, getKey_eq_none]
    rintro entry hentry rfl
    have hnot := (List.mem_filter.mp hentry).2
    simp [hkey] at hnot
  · rw [if_neg hkey]
    have hkeep : (!knownBlockMetaKeys.contains key) = true := by simpa using hkey
    exact getKey_filter (fun name ↦ !knownBlockMetaKeys.contains name) hkeep blockMeta

/-- What was taken apart is put together as the extensions and the known keys behind them. -/
theorem mergeBlockMeta_split :
    mergeBlockMeta (promotedMeta blockMeta) (extensionMeta blockMeta) =
      extensionMeta blockMeta ++ promotedMeta blockMeta := by
  have hsublist := map_fst_filterMap_sublist knownBlockMetaKeys blockMeta
  have hknown : ∀ entry ∈ promotedMeta blockMeta, entry.1 ∈ knownBlockMetaKeys := fun entry hentry ↦
    hsublist.subset (List.mem_map_of_mem hentry)
  have hall : (promotedMeta blockMeta).filter (fun entry ↦ knownBlockMetaKeys.contains entry.1) =
      promotedMeta blockMeta :=
    List.filter_eq_self.mpr fun entry hentry ↦ List.contains_iff_mem.mpr (hknown entry hentry)
  rw [mergeBlockMeta, hall]
  refine updateKeys_eq_append (hsublist.nodup (by decide)) fun entry hentry ↦ ?_
  rw [getKey_extensionMeta, if_pos (hknown entry hentry)]

/-- **Metadata that are taken apart and put together** have the same entries. -/
theorem getKey_mergeBlockMeta (key : String) :
    getKey (mergeBlockMeta (promotedMeta blockMeta) (extensionMeta blockMeta)) key =
      getKey blockMeta key := by
  rw [mergeBlockMeta_split, getKey_append, getKey_extensionMeta, getKey_promotedMeta]
  by_cases hkey : key ∈ knownBlockMetaKeys
  · rw [if_pos hkey, if_pos hkey, Option.none_or]
  · rw [if_neg hkey, if_neg hkey, Option.or_none]

theorem promotedMeta_congr {blockMeta other : Dict}
    (hsame : ∀ key, getKey blockMeta key = getKey other key) :
    promotedMeta blockMeta = promotedMeta other :=
  List.filterMap_congr fun key _ ↦ congrArg (Option.map (Prod.mk key)) (hsame key)

/-- They are taken apart in the same way again. -/
theorem extensionMeta_mergeBlockMeta :
    extensionMeta (mergeBlockMeta (promotedMeta blockMeta) (extensionMeta blockMeta)) =
      extensionMeta blockMeta := by
  have hnone : (promotedMeta blockMeta).filter
      (fun entry ↦ !knownBlockMetaKeys.contains entry.1) = [] := by
    refine List.filter_eq_nil_iff.mpr fun entry hentry ↦ ?_
    have hmem := (map_fst_filterMap_sublist knownBlockMetaKeys blockMeta).subset
      (List.mem_map_of_mem hentry)
    simpa using hmem
  rw [mergeBlockMeta_split, extensionMeta, List.filter_append, hnone, List.append_nil,
    extensionMeta, List.filter_filter]
  simp

/-- The chapter depends on the entries alone. -/
theorem chapterOf_congr {blockMeta other : Dict}
    (hsame : ∀ key, getKey blockMeta key = getKey other key) :
    chapterOf blockMeta = chapterOf other := by
  rw [chapterOf, chapterOf, field, field, getKey_extensionMeta, getKey_extensionMeta,
    getKey_promotedMeta, getKey_promotedMeta, hsame, hsame]

end Metadata

/-! ### What the rows of a chunk say -/

/-- What is stored of a chunk. -/
structure Content where
  root : RootRow
  metrics : Option Dict
  feedback : Option Dict
  tokens : String → List Text
  tags : List Text
  links : List (Text × Uuid)
  embedding : Option (List ℚ × Text)

namespace Content

variable (content : Content)

/-- The rows of the tokens, kind by kind. -/
def tokenRows : List TokenRow :=
  tokenKinds.flatMap fun kind ↦ enumerate (TokenRow.mk content.root.id kind) (content.tokens kind)

def tagRows : List TagRow := enumerate (TagRow.mk content.root.id) content.tags

def linkRows : List LinkRow :=
  enumerate (fun ordinal link ↦ LinkRow.mk content.root.id link.1 link.2 ordinal []) content.links

def embeddingRows (arguments : EmbeddingArguments) : List EmbeddingRow :=
  content.embedding.toList.map fun embedding ↦ {
    chunkUuid := content.root.id
    vector := embedding.1
    model := embedding.2
    dimension := embedding.1.length
    provider := arguments.provider
    modelVersion := arguments.modelVersion
    createdAt := arguments.createdAt
    active := arguments.active }

/-- The rows of a chunk. -/
def rows (arguments : EmbeddingArguments) : SemanticChunkRows where
  root := content.root
  metrics := content.metrics.map (MetricsRow.mk content.root.id)
  feedback := content.feedback.map (FeedbackRow.mk content.root.id)
  tokens := content.tokenRows
  tags := content.tagRows
  links := content.linkRows
  embeddings := content.embeddingRows arguments
  blockMeta :=
    ⟨content.root.id, promotedMeta content.root.blockMeta, extensionMeta content.root.blockMeta⟩

/-- The metadata as they are read. -/
def blockMeta : Dict :=
  mergeBlockMeta (promotedMeta content.root.blockMeta) (extensionMeta content.root.blockMeta)

/-- The feedback among the metrics. -/
def feedbackFields : Dict := content.feedback.toList.map fun columns ↦ ("feedback", .obj columns)

/-- The tokens among the metrics. -/
def tokenFields : Dict :=
  tokenKinds.map fun kind ↦ (kind, .arr ((content.tokens kind).map .str))

/-- The metrics as they are read. -/
def metricsPayload : Option Dict :=
  content.metrics.map fun columns ↦ columns ++ content.feedbackFields ++ content.tokenFields

/-- The fields of the payload behind those of the root. -/
def furtherFields : List Dict :=
  [metricFields content.metricsPayload, linkField content.linkRows "related" "link_related",
    linkField content.linkRows "parent" "link_parent",
    embeddingFields (content.embeddingRows {}).head?]

/-- The payload as it is read. -/
def payload : Dict :=
  rootFields content.root content.blockMeta content.tagRows content.linkRows ++
    content.furtherFields.flatten

/-- What holds of the rows that the mapper makes. -/
structure Valid (host : Host) : Prop where
  charCount : content.root.charCount = content.root.text.length
  searchWeight : content.root.searchWeight = 1
  chapter : uuidField host (chapterOf content.root.blockMeta)
    "SemanticChunk.block_meta.chapter_id" = .ok content.root.chapterId
  named : chapterOf content.root.blockMeta ≠ .null
  metrics : ∀ columns ∈ content.metrics, columns.map Prod.fst = metricKeys
  metricsSame : ∀ columns ∈ content.metrics, ∀ key,
    (field columns key).same (field columns key) = true
  measured : content.metrics = none →
    content.feedback = none ∧ ∀ kind ∈ tokenKinds, content.tokens kind = []
  feedback : ∀ columns ∈ content.feedback, columns.map Prod.fst = feedbackAliases.map Prod.fst
  feedbackSame : ∀ columns ∈ content.feedback, ∀ key,
    (field columns key).same (field columns key) = true
  links : ∀ link ∈ content.links, ':' ∉ link.1
  model : ∀ embedding ∈ content.embedding, embedding.2 ≠ []

end Content

/-! ### The rows of a payload -/

section Stored

variable {payload : Dict} {chunkId : Uuid}

theorem tokenRows_eq_ok {rows : List TokenRow} (hrows : tokenRows host chunkId payload = .ok rows) :
    ∃ texts : String → List Text,
      (∀ kind ∈ tokenKinds, tokenTexts host payload kind = .ok (texts kind)) ∧
        rows = tokenKinds.flatMap fun kind ↦ enumerate (TokenRow.mk chunkId kind) (texts kind) := by
  obtain ⟨groups, hgroups, hflatten⟩ := bind_eq_ok.mp hrows
  cases hflatten
  have hstep : ∀ kind (group : List TokenRow),
      (do return enumerate (TokenRow.mk chunkId kind) (← tokenTexts host payload kind)) =
          Except.ok group ↔
        succeeds (tokenTexts host payload kind) = true ∧
          group = enumerate (TokenRow.mk chunkId kind)
            ((toOption (tokenTexts host payload kind)).getD []) := by
    intro kind group
    cases tokenTexts host payload kind with
    | error failure => simp [succeeds, bind, Except.bind]
    | ok texts => simp [succeeds, bind, Except.bind, pure, Except.pure, eq_comm]
  obtain ⟨hall, rfl⟩ := (mapM_eq_ok_iff hstep).mp hgroups
  exact ⟨_, fun kind hkind ↦ eq_ok_of_succeeds (hall kind hkind), List.flatMap_def.symm⟩

/-- The token texts of a payload without metrics. -/
theorem tokenTexts_of_null {kind : String} {texts : List Text}
    (hmetrics : field payload "metrics" = .null)
    (htexts : tokenTexts host payload kind = .ok texts) : texts = [] := by
  rw [tokenTexts, hmetrics] at htexts
  cases htexts
  rfl

theorem map_fst_columnsOf (keys : List String) (values : Dict) :
    (columnsOf keys values).map Prod.fst = keys := by
  rw [columnsOf, List.map_map]
  exact List.map_id keys

/-- A column has what the dict has under its key. -/
theorem field_columnsOf {keys : List String} {key : String} (hkey : key ∈ keys) (values : Dict) :
    field (columnsOf keys values) key = field values key :=
  field_of_getKey (getKey_map_of_mem (fun name ↦ field values name) hkey)

theorem same_field_columnsOf {values : Dict} (hvalues : fieldsDistinct values = true)
    (keys : List String) (key : String) :
    (field (columnsOf keys values) key).same (field (columnsOf keys values) key) = true := by
  by_cases hkey : key ∈ keys
  · rw [field_columnsOf hkey]
    exact same_field hvalues key
  · rw [field, columnsOf, getKey_map_of_not_mem _ hkey]
    rfl

/-- What the root row of a payload is made of. -/
theorem root_of_rootRow {root : RootRow} (hroot : rootRow host numerals payload = .ok root) :
    root.charCount = root.text.length ∧ root.searchWeight = 1 ∧
      uuidField host (chapterOf root.blockMeta) "SemanticChunk.block_meta.chapter_id" =
        .ok root.chapterId ∧ chapterOf root.blockMeta ≠ .null := by
  obtain ⟨_, -, hroot⟩ := bind_eq_ok.mp hroot
  obtain ⟨_, -, hroot⟩ := bind_eq_ok.mp hroot
  obtain ⟨blockMeta, -, hroot⟩ := bind_eq_ok.mp hroot
  obtain ⟨hnamed, hroot⟩ := raiseIf_bind_eq_ok.mp hroot
  obtain ⟨_, -, hroot⟩ := bind_eq_ok.mp hroot
  obtain ⟨_, -, hroot⟩ := bind_eq_ok.mp hroot
  obtain ⟨_, -, hroot⟩ := bind_eq_ok.mp hroot
  obtain ⟨_, -, hroot⟩ := bind_eq_ok.mp hroot
  obtain ⟨chapterId, hchapter, hroot⟩ := bind_eq_ok.mp hroot
  obtain ⟨_, -, hroot⟩ := bind_eq_ok.mp hroot
  obtain ⟨_, -, hroot⟩ := bind_eq_ok.mp hroot
  obtain ⟨_, -, hroot⟩ := bind_eq_ok.mp hroot
  obtain ⟨_, -, hroot⟩ := bind_eq_ok.mp hroot
  cases hroot
  exact ⟨rfl, rfl, hchapter, of_decide_eq_false hnamed⟩

/-- What the metrics and the feedback of a payload are. -/
theorem columns_of_metricRows {metrics : Option MetricsRow} {feedback : Option FeedbackRow}
    (hrows : metricRows chunkId payload = .ok (metrics, feedback)) :
    (metrics = none ∧ feedback = none ∧ field payload "metrics" = .null) ∨
      ∃ values, metrics = some ⟨chunkId, columnsOf metricKeys values⟩ ∧
        values = asMapping (field payload "metrics") ∧
        feedback.map (FeedbackRow.mk chunkId ∘ FeedbackRow.columns) = feedback ∧
        ∀ row ∈ feedback, row.columns =
          columnsOf (feedbackAliases.map Prod.fst) (asMapping (field values "feedback")) := by
  rw [metricRows] at hrows
  split at hrows
  next hnull =>
    cases hrows
    exact .inl ⟨rfl, rfl, hnull⟩
  next =>
    obtain ⟨_, -, hrows⟩ := bind_eq_ok.mp hrows
    obtain ⟨found, hfeedback, hrows⟩ := bind_eq_ok.mp hrows
    cases hrows
    refine .inr ⟨_, rfl, rfl, ?_⟩
    rw [feedbackRow] at hfeedback
    split at hfeedback
    · cases hfeedback
      exact ⟨rfl, by simp⟩
    · obtain ⟨_, -, hfeedback⟩ := bind_eq_ok.mp hfeedback
      cases hfeedback
      refine ⟨rfl, ?_⟩
      rintro row hrow
      cases hrow
      rfl

theorem linkRows_eq_ok {rows : List LinkRow} (hrows : linkRows host chunkId payload = .ok rows) :
    ∃ links : List (Text × Uuid), (∀ link ∈ links, ':' ∉ link.1) ∧
      rows = enumerate (fun ordinal link ↦ LinkRow.mk chunkId link.1 link.2 ordinal []) links := by
  obtain ⟨values, -, hrows⟩ := bind_eq_ok.mp hrows
  obtain ⟨links, hlinks, hrows⟩ := bind_eq_ok.mp hrows
  cases hrows
  refine ⟨links, fun link hlink ↦ ?_, rfl⟩
  obtain ⟨value, -, hvalue⟩ := exists_of_mapM_eq_ok hlinks hlink
  exact not_mem_of_linkOf hvalue

/-- The vector of a payload and its model. -/
theorem embeddingRows_eq_ok {rows : List EmbeddingRow}
    (hstr : ∀ value, truthy value = true → host.strOf value ≠ [])
    (hrows : embeddingRows host numerals arguments chunkId payload = .ok rows) :
    ∃ embedding : Option (List ℚ × Text), (∀ found ∈ embedding, found.2 ≠ []) ∧
      rows = embedding.toList.map fun found ↦ {
        chunkUuid := chunkId
        vector := found.1
        model := found.2
        dimension := found.1.length
        provider := arguments.provider
        modelVersion := arguments.modelVersion
        createdAt := arguments.createdAt
        active := arguments.active } := by
  rw [embeddingRows] at hrows
  split at hrows
  · cases hrows
    exact ⟨none, by simp, rfl⟩
  · obtain ⟨hsupplied, hrows⟩ := raiseIf_bind_eq_ok.mp hrows
    obtain ⟨values, -, hrows⟩ := bind_eq_ok.mp hrows
    obtain ⟨vector, -, hrows⟩ := bind_eq_ok.mp hrows
    cases hrows
    have htruthy := (Bool.or_eq_false_iff.mp hsupplied).2
    rw [Bool.not_eq_eq_eq_not, Bool.not_false] at htruthy
    refine ⟨some (vector, host.strOf (field payload "embedding_model")), ?_, rfl⟩
    rintro found hfound
    cases hfound
    exact hstr _ htruthy

/-- **Every row is accounted for**: what the mapper makes of a payload are the rows of some valid
content. -/
theorem exists_content {rows : SemanticChunkRows} (hpayload : fieldsDistinct payload = true)
    (hstr : ∀ value, truthy value = true → host.strOf value ≠ [])
    (hrows : toRows host numerals arguments payload = .ok rows) :
    ∃ content : Content, content.Valid host ∧ rows = content.rows arguments := by
  obtain ⟨root, hroot, hrows⟩ := bind_eq_ok.mp hrows
  obtain ⟨⟨metrics, feedback⟩, hmetrics, hrows⟩ := bind_eq_ok.mp hrows
  obtain ⟨tokens, htokens, hrows⟩ := bind_eq_ok.mp hrows
  obtain ⟨tags, htags, hrows⟩ := bind_eq_ok.mp hrows
  obtain ⟨links, hlinks, hrows⟩ := bind_eq_ok.mp hrows
  obtain ⟨embeddings, hembeddings, hrows⟩ := bind_eq_ok.mp hrows
  cases hrows
  obtain ⟨hchars, hweight, hchapter, hnamed⟩ := root_of_rootRow hroot
  obtain ⟨texts, htexts, rfl⟩ := tokenRows_eq_ok htokens
  obtain ⟨tagTexts, -, htags⟩ := bind_eq_ok.mp htags
  cases htags
  obtain ⟨named, hcolons, rfl⟩ := linkRows_eq_ok hlinks
  obtain ⟨embedding, hmodel, rfl⟩ := embeddingRows_eq_ok hstr hembeddings
  refine ⟨{
    root
    metrics := metrics.map MetricsRow.columns
    feedback := feedback.map FeedbackRow.columns
    tokens := texts
    tags := tagTexts
    links := named
    embedding }, ?_, ?_⟩
  · rcases columns_of_metricRows hmetrics with
      ⟨rfl, rfl, hnull⟩ | ⟨values, rfl, rfl, -, hcolumns⟩
    · exact {
        charCount := hchars
        searchWeight := hweight
        chapter := hchapter
        named := hnamed
        metrics := by simp
        metricsSame := by simp
        measured := fun _ ↦ ⟨rfl, fun kind hkind ↦ tokenTexts_of_null hnull (htexts kind hkind)⟩
        feedback := by simp
        feedbackSame := by simp
        links := hcolons
        model := hmodel }
    · have hvalues := fieldsDistinct_asMapping hpayload "metrics"
      have hgiven := fieldsDistinct_asMapping hvalues "feedback"
      refine {
        charCount := hchars
        searchWeight := hweight
        chapter := hchapter
        named := hnamed
        metrics := ?_
        metricsSame := ?_
        measured := fun hnone ↦ by cases hnone
        feedback := ?_
        feedbackSame := ?_
        links := hcolons
        model := hmodel }
      · rintro columns hmem
        cases hmem
        exact map_fst_columnsOf metricKeys _
      · rintro columns hmem
        cases hmem
        exact same_field_columnsOf hvalues metricKeys
      · rintro columns hmem
        obtain ⟨row, hrow, rfl⟩ := Option.map_eq_some_iff.mp hmem
        rw [hcolumns row hrow, map_fst_columnsOf]
      · rintro columns hmem
        obtain ⟨row, hrow, rfl⟩ := Option.map_eq_some_iff.mp hmem
        rw [hcolumns row hrow]
        exact same_field_columnsOf hgiven _
  · rcases columns_of_metricRows hmetrics with ⟨rfl, rfl, -⟩ | ⟨values, rfl, -, hfeedback, -⟩
    · rfl
    · rw [← hfeedback]
      cases feedback <;> rfl

end Stored

end DocStore.SemanticChunkMapper
