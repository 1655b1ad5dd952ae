import DocStore.Foundation.Rehearsal
import DocStore.Runtime.EntityLifecycle

/-!
# Classifiers

A chunk has a value for each of six classifiers, and three places hold it: a column of the chunk
with the UUID of a dictionary entry, a row of the assignment table with the same UUID, and the value
itself in the metadata of the chunk. The type is in a column of its own besides.

A `ClassifiedDb` adds the assignments and the tags to the tables of the entities, which have the
dictionaries and the columns. `dictionaryId` is the lookup that all writers share: it makes an entry
for a value that has none.
-/

set_option autoImplicit false
set_option relaxedAutoImplicit false

namespace DocStore

open Foundation

/-! ### Tables -/

/-- A row of one of the six assignment tables. -/
structure ChunkAssignment extends ChunkDictionary where
  chunkVersionId : Option Uuid := none

/-- A row of `semantic_chunk_tags`. -/
structure ChunkTag where
  chunkUuid : Uuid
  chunkVersionId : Option Uuid := none
  ordinal : ℕ
  tagValue : Text

/-- The tables with the assignments and the tags. -/
structure ClassifiedDb extends EntityDb where
  assignments : List ChunkAssignment := []
  tags : List ChunkTag := []

/-- What addresses a column or an assignment. -/
def ChunkDictionary.key (row : ChunkDictionary) : Uuid × DictionaryTable :=
  (row.chunkUuid, row.table)

/-- What addresses an assignment. -/
def ChunkAssignment.key (row : ChunkAssignment) : Uuid × DictionaryTable :=
  row.toChunkDictionary.key

/-- The dictionary column of a chunk, unless it is `NULL`. -/
def ClassifiedDb.column (db : ClassifiedDb) (chunkUuid : Uuid) (table : DictionaryTable) :
    Option Uuid :=
  (lookup ChunkDictionary.key (chunkUuid, table) db.chunkDictionaries).map
    ChunkDictionary.dictionaryId

/-- The entry that is assigned to a chunk. -/
def ClassifiedDb.assignment (db : ClassifiedDb) (chunkUuid : Uuid) (table : DictionaryTable) :
    Option Uuid :=
  (lookup ChunkAssignment.key (chunkUuid, table) db.assignments).map fun row ↦ row.dictionaryId

/-! ### Dictionaries -/

/-- The width of `descr`. -/
def dictionaryWidth : ℕ := 100

/-- The character that neither a text nor a JSON value of the database can hold. -/
def nul : Char := Char.ofNat 0

/-- Whether a row is the entry of a dictionary for a value. -/
def DictionaryRow.isEntry (entry : DictionaryTable × Text) (row : DictionaryRow) : Bool :=
  row.table = entry.1 && row.descr = entry.2

/-- Whether a dictionary has an entry for a value. -/
def EntityDb.hasEntry (db : EntityDb) (entry : DictionaryTable × Text) : Bool :=
  db.dictionaries.any (DictionaryRow.isEntry entry)

/-- The row that an insertion makes. -/
def newEntry (id : Uuid) (entry : DictionaryTable × Text) : DictionaryRow :=
  { id, ownerId := none, table := entry.1, descr := entry.2 }

/-- `_dictionary_id`: the UUID of the entry for a value, which is made with a `uuid4()` when it is
not there. -/
def EntityDb.dictionaryId (entryId : DictionaryTable → Text → Uuid)
    (entry : DictionaryTable × Text) (db : EntityDb) : Except Failure (Uuid × EntityDb) := do
  raiseIf (entry.2.contains nul) (.outOfRange "descr")
  match db.dictionaries.find? (DictionaryRow.isEntry entry) with
  | some row => return (row.id, db)
  | none => do
    raiseIf (dictionaryWidth < entry.2.length) (.outOfRange "descr")
    let id := entryId entry.1 entry.2
    let registered ← db.register (.dictionary entry.1) id
    return (id, { db with
      toDb := registered
      dictionaries := db.dictionaries ++ [newEntry id entry] })

/-- The entries for some values, each with its dictionary. -/
def EntityDb.dictionaryIds (entryId : DictionaryTable → Text → Uuid) :
    List (DictionaryTable × Text) → EntityDb → Except Failure (List (DictionaryTable × Uuid) × EntityDb) :=
  handleAll fun entry db ↦ do
    let (id, next) ← db.dictionaryId entryId entry
    return ((entry.1, id), next)

/-! ### What a lookup makes -/

/-- The tables with new entries for some values. -/
def EntityDb.withEntries (entryId : DictionaryTable → Text → Uuid)
    (entries : List (DictionaryTable × Text)) (db : EntityDb) : EntityDb :=
  { db with
    entityUuidRegistry := db.entityUuidRegistry ++ entries.map fun entry ↦
      (.dictionary entry.1, entryId entry.1 entry.2)
    dictionaries := db.dictionaries ++ entries.map fun entry ↦
      newEntry (entryId entry.1 entry.2) entry }

/-- The values among some that have no entry, each of them once. -/
def EntityDb.missingEntries (db : EntityDb) (entries : List (DictionaryTable × Text)) :
    List (DictionaryTable × Text) :=
  (entries.filter fun entry ↦ !db.hasEntry entry).eraseDups

/-- Entries can be found or made for some values: the database can hold the values, and the UUIDs
drawn for those without an entry are not in use. -/
structure EntityDb.CanLookUp (entryId : DictionaryTable → Text → Uuid) (db : EntityDb)
    (entries : List (DictionaryTable × Text)) : Prop where
  plain : ∀ entry ∈ entries, nul ∉ entry.2
  narrow : ∀ entry ∈ db.missingEntries entries, entry.2.length ≤ dictionaryWidth
  unused : ∀ entry ∈ db.missingEntries entries, entryId entry.1 entry.2 ∉ db.registry
  distinct : ((db.missingEntries entries).map fun entry ↦ entryId entry.1 entry.2).Nodup

section Lookups

variable {entryId : DictionaryTable → Text → Uuid} {entry : DictionaryTable × Text}
  {entries : List (DictionaryTable × Text)} {db next : EntityDb}

theorem DictionaryRow.isEntry_eq_true {row : DictionaryRow} :
    row.isEntry entry = true ↔ (row.table, row.descr) = entry := by
  rw [isEntry, Bool.and_eq_true, decide_eq_true_eq, decide_eq_true_eq, Prod.mk.injEq]

theorem EntityDb.hasEntry_eq_true : db.hasEntry entry = true ↔
    ∃ row ∈ db.dictionaries, (row.table, row.descr) = entry := by
  simp only [hasEntry, List.any_eq_true, DictionaryRow.isEntry_eq_true]

theorem EntityDb.withEntries_nil : db.withEntries entryId [] = db := by
  simp [withEntries]

/-- Only without new entries the tables are as they were. -/
theorem EntityDb.withEntries_eq_self : db.withEntries entryId entries = db ↔ entries = [] := by
  constructor
  · intro hself
    have hdictionaries := congrArg EntityDb.dictionaries hself
    simpa [withEntries] using hdictionaries
  · rintro rfl
    exact withEntries_nil

theorem EntityDb.withEntries_cons (entry : DictionaryTable × Text)
    (entries : List (DictionaryTable × Text)) : db.withEntries entryId (entry :: entries) =
    (db.withEntries entryId [entry]).withEntries entryId entries := by
  simp [withEntries]

@[simp] theorem EntityDb.registry_withEntries : (db.withEntries entryId entries).registry =
    db.registry ++ entries.map fun entry ↦ entryId entry.1 entry.2 := by
  simp [withEntries, Db.registry, List.map_map, Function.comp_def]

/-- A new entry is the only value that has an entry afterwards and had none before. -/
theorem EntityDb.hasEntry_withEntries {other : DictionaryTable × Text} :
    (db.withEntries entryId [entry]).hasEntry other = (db.hasEntry other || other == entry) := by
  rw [Bool.eq_iff_iff, Bool.or_eq_true, hasEntry_eq_true, hasEntry_eq_true, beq_iff_eq]
  simp only [withEntries, List.map_singleton, List.mem_append, List.mem_singleton, or_and_right,
    exists_or, exists_eq_left, newEntry]
  rw [eq_comm (a := other)]

theorem EntityDb.missingEntries_eq_nil :
    db.missingEntries entries = [] ↔ ∀ entry ∈ entries, db.hasEntry entry = true := by
  rw [missingEntries, List.eq_nil_iff_forall_not_mem]
  simp only [List.mem_eraseDups, List.mem_filter, Bool.not_eq_true', not_and, Bool.not_eq_false]

theorem EntityDb.missingEntries_cons_of_hasEntry (hentry : db.hasEntry entry = true) :
    db.missingEntries (entry :: entries) = db.missingEntries entries := by
  rw [missingEntries, List.filter_cons_of_neg (by simp [hentry]), missingEntries]

theorem EntityDb.missingEntries_cons (hentry : db.hasEntry entry = false) :
    db.missingEntries (entry :: entries) =
      entry :: (db.withEntries entryId [entry]).missingEntries entries := by
  rw [missingEntries, List.filter_cons_of_pos (by simp [hentry]), List.eraseDups_cons,
    List.filter_filter, missingEntries]
  congr 2
  refine List.filter_congr fun other _ ↦ ?_
  rw [hasEntry_withEntries]
  cases db.hasEntry other <;> simp

/-- When a value is looked up, and what that leaves. -/
theorem EntityDb.dictionaryId_eq_ok {id : Uuid} :
    db.dictionaryId entryId entry = .ok (id, next) ↔ nul ∉ entry.2 ∧
      ((db.dictionaries.find? (DictionaryRow.isEntry entry)).map (fun row ↦ row.id) = some id ∧
          next = db ∨
        db.hasEntry entry = false ∧ entry.2.length ≤ dictionaryWidth ∧
          entryId entry.1 entry.2 ∉ db.registry ∧ id = entryId entry.1 entry.2 ∧
          next = db.withEntries entryId [entry]) := by
  rw [dictionaryId, raiseIf_bind_eq_ok, List.contains_eq_mem, decide_eq_false_iff_not]
  refine and_congr Iff.rfl ?_
  cases hfind : db.dictionaries.find? (DictionaryRow.isEntry entry) with
  | some row =>
    have hentry : db.hasEntry entry = true :=
      List.any_eq_true.mpr ⟨row, List.mem_of_find?_eq_some hfind, List.find?_some hfind⟩
    simp [hentry, pure, Except.pure, eq_comm]
  | none =>
    have hentry : db.hasEntry entry = false := by
      rw [hasEntry, List.any_eq_false]
      exact List.find?_eq_none.mp hfind
    dsimp only
    rw [raiseIf_bind_eq_ok, decide_eq_false_iff_not, not_lt]
    constructor
    · rintro ⟨hnarrow, hmade⟩
      obtain ⟨registered, hregister, hmade⟩ := bind_eq_ok.mp hmade
      obtain ⟨hunused, rfl⟩ := Db.register_eq_ok.mp hregister
      cases hmade
      exact .inr ⟨hentry, hnarrow, hunused, rfl, rfl⟩
    · rintro (⟨hfound, -⟩ | ⟨-, hnarrow, hunused, rfl, rfl⟩)
      · cases hfound
      · exact ⟨hnarrow, bind_eq_ok.mpr ⟨_, Db.register_eq_ok.mpr ⟨hunused, rfl⟩, rfl⟩⟩

theorem EntityDb.canLookUp_cons_of_hasEntry (hentry : db.hasEntry entry = true) :
    db.CanLookUp entryId (entry :: entries) ↔ nul ∉ entry.2 ∧ db.CanLookUp entryId entries := by
  have hmissing : db.missingEntries (entry :: entries) = db.missingEntries entries :=
    missingEntries_cons_of_hasEntry hentry
  constructor
  · intro hcan
    refine ⟨hcan.plain entry List.mem_cons_self, ?_, ?_, ?_, ?_⟩
    · exact fun other hother ↦ hcan.plain other (List.mem_cons_of_mem _ hother)
    · exact hmissing ▸ hcan.narrow
    · exact hmissing ▸ hcan.unused
    · exact hmissing ▸ hcan.distinct
  · rintro ⟨hplain, hcan⟩
    refine ⟨List.forall_mem_cons.mpr ⟨hplain, hcan.plain⟩, ?_, ?_, ?_⟩
    · exact hmissing.symm ▸ hcan.narrow
    · exact hmissing.symm ▸ hcan.unused
    · exact hmissing.symm ▸ hcan.distinct

theorem EntityDb.canLookUp_cons (hentry : db.hasEntry entry = false) :
    db.CanLookUp entryId (entry :: entries) ↔ nul ∉ entry.2 ∧ entry.2.length ≤ dictionaryWidth ∧
      entryId entry.1 entry.2 ∉ db.registry ∧
        (db.withEntries entryId [entry]).CanLookUp entryId entries := by
  have hmissing : db.missingEntries (entry :: entries) =
      entry :: (db.withEntries entryId [entry]).missingEntries entries := missingEntries_cons hentry
  constructor
  · intro hcan
    have hnarrow := hcan.narrow
    have hunused := hcan.unused
    have hdistinct := hcan.distinct
    rw [hmissing, List.forall_mem_cons] at hnarrow hunused
    rw [hmissing, List.map_cons, List.nodup_cons] at hdistinct
    refine ⟨hcan.plain entry List.mem_cons_self, hnarrow.1, hunused.1, ?_, hnarrow.2, ?_,
      hdistinct.2⟩
    · exact fun other hother ↦ hcan.plain other (List.mem_cons_of_mem _ hother)
    · intro other hother
      rw [registry_withEntries, List.map_singleton, List.mem_append, List.mem_singleton, not_or]
      exact ⟨hunused.2 other hother, fun hequal ↦
        hdistinct.1 (List.mem_map.mpr ⟨other, hother, hequal⟩)⟩
  · rintro ⟨hplain, hnarrow, hunused, hcan⟩
    have hrest : ∀ other ∈ (db.withEntries entryId [entry]).missingEntries entries,
        entryId other.1 other.2 ∉ db.registry ∧
          entryId other.1 other.2 ≠ entryId entry.1 entry.2 := by
      intro other hother
      have hfree := hcan.unused other hother
      rwa [registry_withEntries, List.map_singleton, List.mem_append, List.mem_singleton,
        not_or] at hfree
    refine ⟨List.forall_mem_cons.mpr ⟨hplain, hcan.plain⟩, ?_, ?_, ?_⟩
    · rw [hmissing, List.forall_mem_cons]
      exact ⟨hnarrow, hcan.narrow⟩
    · rw [hmissing, List.forall_mem_cons]
      exact ⟨hunused, fun other hother ↦ (hrest other hother).1⟩
    · rw [hmissing, List.map_cons, List.nodup_cons, List.mem_map]
      exact ⟨fun ⟨other, hother, hequal⟩ ↦ (hrest other hother).2 hequal, hcan.distinct⟩

theorem EntityDb.dictionaryIds_cons_eq_ok {ids : List (DictionaryTable × Uuid)} :
    db.dictionaryIds entryId (entry :: entries) = .ok (ids, next) ↔
      ∃ id middle rest, db.dictionaryId entryId entry = .ok (id, middle) ∧
        middle.dictionaryIds entryId entries = .ok (rest, next) ∧ ids = (entry.1, id) :: rest := by
  rw [dictionaryIds, handleAll_cons_eq_ok]
  constructor
  · rintro ⟨classifier, middle, rest, hfirst, hrest, rfl⟩
    obtain ⟨⟨id, made⟩, hid, hfirst⟩ := bind_eq_ok.mp hfirst
    cases hfirst
    exact ⟨id, middle, rest, hid, hrest, rfl⟩
  · rintro ⟨id, middle, rest, hid, hrest, rfl⟩
    exact ⟨(entry.1, id), middle, rest, bind_eq_ok.mpr ⟨(id, middle), hid, rfl⟩, hrest, rfl⟩

/-- When some values are looked up, and what that leaves. -/
theorem EntityDb.exists_dictionaryIds_iff :
    (∃ ids, db.dictionaryIds entryId entries = .ok (ids, next)) ↔ db.CanLookUp entryId entries ∧
      next = db.withEntries entryId (db.missingEntries entries) := by
  induction entries generalizing db with
  | nil =>
    have hmissing : db.missingEntries [] = [] := rfl
    rw [hmissing, withEntries_nil]
    constructor
    · rintro ⟨ids, hids⟩
      cases hids
      exact ⟨⟨by simp, by simp [hmissing], by simp [hmissing], by simp [hmissing]⟩, rfl⟩
    · rintro ⟨-, rfl⟩
      exact ⟨[], rfl⟩
  | cons entry entries ih =>
    have hcons : (∃ ids, db.dictionaryIds entryId (entry :: entries) = .ok (ids, next)) ↔
        ∃ id middle, db.dictionaryId entryId entry = .ok (id, middle) ∧
          middle.CanLookUp entryId entries ∧
            next = middle.withEntries entryId (middle.missingEntries entries) := by
      simp only [dictionaryIds_cons_eq_ok, ← ih]
      constructor
      · rintro ⟨_, id, middle, rest, hid, hrest, -⟩
        exact ⟨id, middle, hid, rest, hrest⟩
      · rintro ⟨id, middle, hid, rest, hrest⟩
        exact ⟨_, id, middle, rest, hid, hrest, rfl⟩
    rw [hcons]
    by_cases hentry : db.hasEntry entry = true
    · rw [canLookUp_cons_of_hasEntry hentry, missingEntries_cons_of_hasEntry hentry]
      obtain ⟨row, hrow⟩ : ∃ row, db.dictionaries.find? (DictionaryRow.isEntry entry) = some row :=
        Option.isSome_iff_exists.mp (List.find?_isSome.mpr (List.any_eq_true.mp hentry))
      constructor
      · rintro ⟨id, middle, hid, hcan, rfl⟩
        obtain ⟨hplain, ⟨-, rfl⟩ | ⟨hmissing, -⟩⟩ := dictionaryId_eq_ok.mp hid
        · exact ⟨⟨hplain, hcan⟩, rfl⟩
        · exact absurd hentry (by simp [hmissing])
      · rintro ⟨⟨hplain, hcan⟩, rfl⟩
        exact ⟨row.id, db, dictionaryId_eq_ok.mpr ⟨hplain, .inl ⟨by rw [hrow]; rfl, rfl⟩⟩, hcan, rfl⟩
    · rw [Bool.not_eq_true] at hentry
      have hmissing : db.missingEntries (entry :: entries) =
          entry :: (db.withEntries entryId [entry]).missingEntries entries :=
        missingEntries_cons hentry
      rw [canLookUp_cons hentry, hmissing,
        withEntries_cons entry ((db.withEntries entryId [entry]).missingEntries entries)]
      constructor
      · rintro ⟨id, middle, hid, hcan, rfl⟩
        obtain ⟨hplain, ⟨hfound, -⟩ | ⟨-, hnarrow, hunused, -, rfl⟩⟩ := dictionaryId_eq_ok.mp hid
        · obtain ⟨row, hrow, -⟩ := Option.map_eq_some_iff.mp hfound
          have hhas : db.hasEntry entry = true :=
            List.any_eq_true.mpr ⟨row, List.mem_of_find?_eq_some hrow, List.find?_some hrow⟩
          exact absurd hhas (by simp [hentry])
        · exact ⟨⟨hplain, hnarrow, hunused, hcan⟩, rfl⟩
      · rintro ⟨⟨hplain, hnarrow, hunused, hcan⟩, rfl⟩
        exact ⟨_, _, dictionaryId_eq_ok.mpr ⟨hplain, .inr ⟨hentry, hnarrow, hunused, rfl, rfl⟩⟩,
          hcan, rfl⟩

/-- Two states in which the same values are looked up in the same way. -/
structure SameLookups (first second : EntityDb) : Prop where
  dictionaries : second.dictionaries = first.dictionaries
  registry : second.entityUuidRegistry = first.entityUuidRegistry

theorem SameLookups.dictionaryId {first second : EntityDb} (hsame : SameLookups first second)
    (entry : DictionaryTable × Text) : Alike SameLookups (first.dictionaryId entryId entry)
      (second.dictionaryId entryId entry) := by
  have hregistry : second.registry = first.registry := by rw [Db.registry, hsame.registry, Db.registry]
  unfold EntityDb.dictionaryId Db.register
  rw [hsame.dictionaries, hregistry]
  cases raiseIf (entry.2.contains nul) (Failure.outOfRange "descr") with
  | error failure => exact .inl ⟨failure, rfl, rfl⟩
  | ok =>
    rw [ok_bind, ok_bind]
    cases first.dictionaries.find? (DictionaryRow.isEntry entry) with
    | some row => exact .inr ⟨row.id, first, second, rfl, rfl, hsame⟩
    | none =>
      dsimp only
      cases raiseIf (decide (dictionaryWidth < entry.2.length)) (Failure.outOfRange "descr") with
      | error failure => exact .inl ⟨failure, rfl, rfl⟩
      | ok =>
        rw [ok_bind, ok_bind]
        cases raiseIf (first.registry.contains (entryId entry.1 entry.2))
            (Failure.integrity "entity_uuid_registry") with
        | error failure => exact .inl ⟨failure, rfl, rfl⟩
        | ok =>
          refine .inr ⟨entryId entry.1 entry.2, _, _, rfl, rfl, rfl, ?_⟩
          exact congrArg (· ++ _) hsame.registry

theorem SameLookups.dictionaryIds {first second : EntityDb} (hsame : SameLookups first second)
    (entries : List (DictionaryTable × Text)) :
    Alike SameLookups (first.dictionaryIds entryId entries)
      (second.dictionaryIds entryId entries) := by
  refine alike_handleAll (fun entry state other hrelated ↦ ?_) entries hsame
  rcases hrelated.dictionaryId entry with
    ⟨failure, hfirst, hsecond⟩ | ⟨id, next, after, hfirst, hsecond, hnext⟩
  · rw [hfirst, hsecond]
    exact .inl ⟨failure, rfl, rfl⟩
  · rw [hfirst, hsecond]
    exact .inr ⟨(entry.1, id), next, after, rfl, rfl, hnext⟩

/-- What a lookup may raise. -/
def isLookupFailure : Failure → Prop
  | .outOfRange column => column = "descr"
  | .integrity constraint => constraint = "entity_uuid_registry"
  | _ => False

theorem EntityDb.isLookupFailure_of_dictionaryId {failure : Failure}
    (hfails : db.dictionaryId entryId entry = .error failure) : isLookupFailure failure := by
  rw [dictionaryId] at hfails
  rcases bind_eq_error.mp hfails with hplain | ⟨-, -, hfails⟩
  · obtain ⟨-, rfl⟩ := raiseIf_eq_error.mp hplain
    rfl
  · split at hfails
    · cases hfails
    · rcases bind_eq_error.mp hfails with hwide | ⟨-, -, hfails⟩
      · obtain ⟨-, rfl⟩ := raiseIf_eq_error.mp hwide
        rfl
      · rcases bind_eq_error.mp hfails with hregister | ⟨registered, -, hmade⟩
        · rcases bind_eq_error.mp hregister with hused | ⟨-, -, hmade⟩
          · obtain ⟨-, rfl⟩ := raiseIf_eq_error.mp hused
            rfl
          · cases hmade
        · cases hmade

theorem EntityDb.isLookupFailure_of_dictionaryIds {failure : Failure}
    (hfails : db.dictionaryIds entryId entries = .error failure) : isLookupFailure failure := by
  obtain ⟨entry, before, hentry⟩ := exists_of_handleAll_eq_error hfails
  rcases bind_eq_error.mp hentry with hid | ⟨result, -, hmade⟩
  · exact isLookupFailure_of_dictionaryId hid
  · cases hmade

/-- What is found or made for some values. -/
structure EntityDb.LookedUp (db next : EntityDb) (entries : List (DictionaryTable × Text))
    (ids : List (DictionaryTable × Uuid)) : Prop where
  kept : ∀ row ∈ db.dictionaries, row ∈ next.dictionaries
  tables : ids.map Prod.fst = entries.map Prod.fst
  found : ∀ entry ∈ entries, ∃ row ∈ next.dictionaries, (row.table, row.descr) = entry ∧
    (entry.1, row.id) ∈ ids

theorem EntityDb.lookedUp_of_dictionaryIds {ids : List (DictionaryTable × Uuid)}
    (hids : db.dictionaryIds entryId entries = .ok (ids, next)) : db.LookedUp next entries ids := by
  induction entries generalizing db ids with
  | nil =>
    cases hids
    exact ⟨fun _ hrow ↦ hrow, rfl, by simp⟩
  | cons entry entries ih =>
    obtain ⟨id, middle, rest, hid, hrest, rfl⟩ := dictionaryIds_cons_eq_ok.mp hids
    obtain ⟨hkept, htables, hfound⟩ := ih hrest
    have hfirst : (∀ row ∈ db.dictionaries, row ∈ middle.dictionaries) ∧
        ∃ row ∈ middle.dictionaries, (row.table, row.descr) = entry ∧ row.id = id := by
      obtain ⟨-, ⟨hthere, rfl⟩ | ⟨-, -, -, rfl, rfl⟩⟩ := dictionaryId_eq_ok.mp hid
      · obtain ⟨row, hrow, rfl⟩ := Option.map_eq_some_iff.mp hthere
        exact ⟨fun _ hrow ↦ hrow, row, List.mem_of_find?_eq_some hrow,
          DictionaryRow.isEntry_eq_true.mp (List.find?_some hrow), rfl⟩
      · exact ⟨fun _ hrow ↦ List.mem_append_left _ hrow, _,
          List.mem_append_right _ (List.mem_singleton_self _), rfl, rfl⟩
    obtain ⟨hmiddle, row, hrow, hentry, rfl⟩ := hfirst
    refine ⟨fun other hother ↦ hkept other (hmiddle other hother), ?_, ?_⟩
    · rw [List.map_cons, List.map_cons, htables]
    · refine List.forall_mem_cons.mpr ⟨⟨row, hkept row hrow, hentry, List.mem_cons_self⟩, ?_⟩
      intro other hother
      obtain ⟨found, hmem, hspec, hnamed⟩ := hfound other hother
      exact ⟨found, hmem, hspec, List.mem_cons_of_mem _ hnamed⟩

/-- What is found for a value, when no dictionary is named twice. -/
theorem EntityDb.LookedUp.exists_named {ids : List (DictionaryTable × Uuid)}
    (hlooked : db.LookedUp next entries ids) (hnodup : (entries.map Prod.fst).Nodup)
    (hmem : entry ∈ entries) : ∃ row ∈ next.dictionaries, (row.table, row.descr) = entry ∧
      getKey ids.reverse entry.1 = some row.id := by
  have hdistinct : (ids.map Prod.fst).Nodup := hlooked.tables ▸ hnodup
  obtain ⟨row, hrow, hentry, hnamed⟩ := hlooked.found entry hmem
  refine ⟨row, hrow, hentry, ?_⟩
  rw [getKey_reverse hdistinct, getKey_eq_some hdistinct]
  exact hnamed

/-- Nothing is found for a dictionary that no value is in. -/
theorem EntityDb.LookedUp.getKey_eq_none {ids : List (DictionaryTable × Uuid)}
    (hlooked : db.LookedUp next entries ids) {table : DictionaryTable}
    (hnot : table ∉ entries.map Prod.fst) : getKey ids.reverse table = none := by
  rw [Foundation.getKey_eq_none]
  intro classifier hclassifier hequal
  rw [← hlooked.tables] at hnot
  exact hnot (hequal ▸ List.mem_map_of_mem (List.mem_reverse.mp hclassifier))

end Lookups

/-! ### Columns and assignments -/

/-- Sets dictionary columns of a chunk. -/
def setColumns (chunkUuid : Uuid) (classifierIds : List (DictionaryTable × Uuid))
    (columns : List ChunkDictionary) : List ChunkDictionary :=
  upsertAll ChunkDictionary.key (classifierIds.map fun (table, dictionaryId) ↦
    { chunkUuid, table, dictionaryId }) columns

/-- The version that the pointer of a chunk names. -/
def ClassifiedDb.currentVersionId (db : ClassifiedDb) (chunkUuid : Uuid) : Option Uuid :=
  (lookup SemanticChunkCurrent.chunkUuid chunkUuid db.semanticChunkCurrent).map
    SemanticChunkCurrent.versionId

/-- `INSERT … ON CONFLICT (chunk_uuid) DO UPDATE` of the assignments of a chunk. -/
def setAssignments (chunkUuid : Uuid) (versionId : Option Uuid)
    (classifierIds : List (DictionaryTable × Uuid)) (assignments : List ChunkAssignment) :
    List ChunkAssignment :=
  upsertAll ChunkAssignment.key (classifierIds.map fun (table, dictionaryId) ↦
    { chunkUuid, table, dictionaryId, chunkVersionId := versionId }) assignments

/-- The entry that a column or an assignment names, behind upserts for a chunk. -/
theorem map_lookup_upsertAll {ρ : Type} (key : ρ → Uuid × DictionaryTable) (read : ρ → Uuid)
    (make : DictionaryTable × Uuid → ρ) {chunkUuid : Uuid}
    (hkey : ∀ classifier, key (make classifier) = (chunkUuid, classifier.1))
    (hread : ∀ classifier, read (make classifier) = classifier.2)
    (classifierIds : List (DictionaryTable × Uuid)) (rows : List ρ) (other : Uuid)
    (table : DictionaryTable) :
    (lookup key (other, table) (upsertAll key (classifierIds.map make) rows)).map read =
      (if other = chunkUuid then getKey classifierIds.reverse table else none).or
        ((lookup key (other, table) rows).map read) := by
  have hnew : ∀ ids : List (DictionaryTable × Uuid),
      (lookup key (other, table) (ids.map make)).map read =
        if other = chunkUuid then getKey ids table else none := by
    intro ids
    induction ids with
    | nil => simp [lookup, getKey]
    | cons classifier ids ih =>
      by_cases hother : other = chunkUuid
      · rw [if_pos hother] at ih ⊢
        by_cases htable : classifier.1 = table
        · simp [lookup, hkey, getKey, hother, htable, hread]
        · simpa [lookup, hkey, getKey, htable] using ih
      · rw [if_neg hother] at ih ⊢
        simp [lookup, hkey, Ne.symm hother]
  rw [lookup_upsertAll, Option.map_or, ← List.map_reverse, hnew]

end DocStore
