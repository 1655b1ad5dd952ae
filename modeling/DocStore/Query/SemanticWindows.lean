import DocStore.Query.SemanticSearch

/-!
# When the two semantic paths agree

Both paths are meant to return the best chunks of a plan: those that satisfy it, by descending
similarity to the query vector, cut to its window. `semanticPaths_agree_iff` says when they do. Three
orders have to put the same chunk at every position of the window: the reading order, which the
executor cuts, the ranking by the vector, which is wanted, and the ranking by what the boundary
writes of the vector.
-/

set_option autoImplicit false
set_option relaxedAutoImplicit false

namespace DocStore

open Foundation

variable {ν : Type}

/-! ### Identified rows -/

section Identified

variable {rows rows' : List SemanticRow}

/-- Rows of distinct chunks have distinct places in the reading order. -/
theorem nodup_readingKey (hids : (rows.map fun found ↦ found.row.chunk.id).Nodup) :
    (rows.map readingKey).Nodup := by
  refine List.Nodup.of_map (fun key ↦ BitVec.ofNat 128 (ofLex key).2) ?_
  rw [List.map_map]
  simpa [Function.comp_def, readingKey] using hids

/-- Rows of distinct chunks have distinct ranks. -/
theorem nodup_rankingKey (hids : (rows.map fun found ↦ found.row.chunk.id).Nodup) :
    (rows.map rankingKey).Nodup := by
  refine List.Nodup.of_map (fun key ↦ (ofLex key).2) ?_
  rw [List.map_map]
  exact nodup_readingKey hids

/-- Where a chunk has one row, the tags of rows tell what they are marked with. -/
theorem map_mark_of_map_tag {known : List SearchRow}
    (hknown : (known.map fun row ↦ row.chunk.id).Nodup)
    (hrows : ∀ found ∈ rows, found.row ∈ known) (hrows' : ∀ found ∈ rows', found.row ∈ known)
    (htags : rows.map tag = rows'.map tag) : rows.map mark = rows'.map mark := by
  induction rows generalizing rows' with
  | nil =>
    obtain rfl := List.map_eq_nil_iff.mp htags.symm
    rfl
  | cons found rows ih =>
    obtain ⟨found', rest, rfl, hfound, hrest⟩ := List.map_eq_cons_iff.mp htags.symm
    obtain ⟨hid, hscore⟩ := Prod.mk.inj hfound
    have hrow : found'.row = found.row := List.inj_on_of_nodup_map hknown
      (hrows' _ List.mem_cons_self) (hrows _ List.mem_cons_self) hid
    rw [List.map_cons, List.map_cons,
      ih (fun other hother ↦ hrows other (List.mem_cons_of_mem _ hother))
        (fun other hother ↦ hrows' other (List.mem_cons_of_mem _ hother)) hrest.symm]
    exact congrArg (· :: rest.map mark) (Prod.ext hrow.symm hscore.symm)

/-- Two windows are marked alike when at every position the rows are. -/
theorem map_mark_window_iff {κ κ' : Type*} [LinearOrder κ] [LinearOrder κ'] {plan : ExecutionPlan}
    {key : SemanticRow → κ} {key' : SemanticRow → κ'} (hkeys : (rows.map key).Nodup)
    (hkeys' : (rows'.map key').Nodup) :
    (windowBy key plan rows).map mark = (windowBy key' plan rows').map mark ↔
      ∀ position, InWindow plan.offset plan.limit position → ∀ row score,
        (∃ found, StandsAt key rows position found ∧ mark found = (row, score)) ↔
          ∃ found, StandsAt key' rows' position found ∧ mark found = (row, score) := by
  rw [windowBy, windowBy, map_window, map_window, window_eq_iff]
  refine forall_congr' fun position ↦ imp_congr_right fun _ ↦ ?_
  rw [List.getElem?_map, List.getElem?_map]
  simp only [← getElem?_ranked hkeys, ← getElem?_ranked hkeys', ← Option.map_eq_some_iff]
  exact ⟨fun heq row score ↦ by rw [heq], fun hall ↦ Option.ext fun entry ↦ hall entry.1 entry.2⟩

end Identified

/-! ### The best chunks of a plan -/

section Agreement

variable (executor : SemanticExecutor) (host : VectorHost ν)
  (embed : Text → Except String QueryResponse) (plan : ExecutionPlan) (queryText : Text)
  (store : SearchDb ν)

/-- The chunks that satisfy a plan, by descending similarity to its vector, cut to its window. -/
def bestRows (clauses : List Clause) : List SemanticRow :=
  windowBy rankingKey plan
    (executor.matching host plan store clauses (host.cast (firstVector plan.embedding)))

/-- Both paths return the best chunks of a plan. -/
def PathsAgree : Prop :=
  ∃ clauses results, semanticClauses host plan = .ok clauses ∧
    searchResults host.toSearchHost (bestRows executor host plan store clauses) = .ok results ∧
    executor.execute host embed plan queryText store = .ok results ∧
    executor.executeSemantic host plan store = .ok results

/-- The condition. The vector has the configured dimension, the best chunks have similarities and
payloads that results can show, and at every position of the window the reading order and the
ranking by the written vector have the chunk that the ranking by the vector has. -/
structure WindowsCoincide (clauses : List Clause) : Prop where
  dimension : (firstVector plan.embedding).length = executor.dimension
  shown : ∀ position, InWindow plan.offset plan.limit position → ∀ found,
    StandsAt rankingKey
      (executor.matching host plan store clauses (host.cast (firstVector plan.embedding)))
      position found → Shown host.toSearchHost found
  reading : ∀ position, InWindow plan.offset plan.limit position → ∀ found,
    StandsAt readingKey
        (executor.matching host plan store clauses (host.cast (firstVector plan.embedding)))
        position found ↔
      StandsAt rankingKey
        (executor.matching host plan store clauses (host.cast (firstVector plan.embedding)))
        position found
  written : ∀ position, InWindow plan.offset plan.limit position → ∀ row score,
    (∃ found, StandsAt rankingKey (executor.matching host plan store clauses
        (host.cast (firstVector plan.embedding))) position found ∧ mark found = (row, score)) ↔
      ∃ found, StandsAt rankingKey (executor.matching host plan store clauses
        (host.cast (vectorLiteral (firstVector plan.embedding)))) position found ∧
          mark found = (row, score)

end Agreement

section Agreement

variable {executor : SemanticExecutor} {host : VectorHost ν}
  {embed : Text → Except String QueryResponse} {schema : QuerySchema} {query : ChunkQuery}
  {plan : ExecutionPlan} {queryText : Text} {store : SearchDb ν} {clauses : List Clause}

theorem row_mem_of_mem_matching {wanted : ν} {found : SemanticRow}
    (hfound : found ∈ executor.matching host plan store clauses wanted) :
    found.row ∈ store.liveRows :=
  (mem_semanticRows.mp (List.mem_of_mem_filter hfound)).1

theorem nodup_matching (hkey : (store.semanticChunks.map fun chunk ↦ chunk.id).Nodup)
    (executor : SemanticExecutor) (host : VectorHost ν) (plan : ExecutionPlan)
    (clauses : List Clause) (wanted : ν) :
    ((executor.matching host plan store clauses wanted).map fun found ↦
      found.row.chunk.id).Nodup :=
  (nodup_semanticRows hkey host executor.model executor.dimension wanted).sublist
    (List.filter_sublist.map _)

theorem row_mem_of_mem_windowBy {κ : Type*} [LinearOrder κ] {key : SemanticRow → κ} {wanted : ν}
    {found : SemanticRow}
    (hfound : found ∈ windowBy key plan (executor.matching host plan store clauses wanted)) :
    found.row ∈ store.liveRows :=
  row_mem_of_mem_matching (mem_ranked.mp (mem_of_mem_window hfound))

/-- Rows with the same results are marked alike. -/
theorem map_mark_of_searchResults {κ κ' : Type*} [LinearOrder κ] [LinearOrder κ']
    {key : SemanticRow → κ} {key' : SemanticRow → κ'} {wanted wanted' : ν}
    {results : List SearchResult}
    (hkey : (store.semanticChunks.map fun chunk ↦ chunk.id).Nodup)
    (hresults : searchResults host.toSearchHost
      (windowBy key plan (executor.matching host plan store clauses wanted)) = .ok results)
    (hresults' : searchResults host.toSearchHost
      (windowBy key' plan (executor.matching host plan store clauses wanted')) = .ok results) :
    (windowBy key plan (executor.matching host plan store clauses wanted)).map mark =
      (windowBy key' plan (executor.matching host plan store clauses wanted')).map mark :=
  map_mark_of_map_tag (nodup_liveRows hkey) (fun _ hfound ↦ row_mem_of_mem_windowBy hfound)
    (fun _ hfound ↦ row_mem_of_mem_windowBy hfound)
    ((map_tag_of_searchResults hresults).trans (map_tag_of_searchResults hresults').symm)

/-- Two orders of the same rows cut alike when they have the same rows at the positions. -/
theorem map_mark_windowBy_iff (hkey : (store.semanticChunks.map fun chunk ↦ chunk.id).Nodup)
    (wanted : ν) :
    (windowBy readingKey plan (executor.matching host plan store clauses wanted)).map mark =
        (windowBy rankingKey plan (executor.matching host plan store clauses wanted)).map mark ↔
      ∀ position, InWindow plan.offset plan.limit position → ∀ found,
        StandsAt readingKey (executor.matching host plan store clauses wanted) position found ↔
          StandsAt rankingKey (executor.matching host plan store clauses wanted) position found := by
  have hids := nodup_matching hkey executor host plan clauses wanted
  have hinj : ∀ {first second : SemanticRow},
      first ∈ executor.matching host plan store clauses wanted →
      second ∈ executor.matching host plan store clauses wanted → mark first = mark second →
        first = second := fun hfirst hsecond hmark ↦
    List.inj_on_of_nodup_map hids hfirst hsecond
      (congrArg (fun row ↦ row.chunk.id) (Prod.mk.inj hmark).1)
  rw [map_mark_window_iff (nodup_readingKey hids) (nodup_rankingKey hids)]
  refine forall_congr' fun position ↦ imp_congr_right fun _ ↦ ⟨fun hall found ↦ ?_,
    fun hall row score ↦ exists_congr fun found ↦ and_congr_left' (hall found)⟩
  constructor
  · intro hstands
    obtain ⟨other, hother, hmark⟩ := (hall _ _).mp ⟨found, hstands, rfl⟩
    rwa [hinj hother.1 hstands.1 hmark] at hother
  · intro hstands
    obtain ⟨other, hother, hmark⟩ := (hall _ _).mpr ⟨found, hstands, rfl⟩
    rwa [hinj hother.1 hstands.1 hmark] at hother

/-- The two paths return the best chunks of a compiled plan exactly when every predicate has a
column that takes its value and the windows coincide. -/
theorem semanticPaths_agree_iff (hplan : compileQuery schema query = .ok plan)
    (hmode : plan.mode = .semantic)
    (hkey : (store.semanticChunks.map fun chunk ↦ chunk.id).Nodup)
    (hquery : strip queryText ≠ [])
    (hembed : embed queryText = .ok (executor.answer (firstVector plan.embedding))) :
    PathsAgree executor host embed plan queryText store ↔
      ∃ clauses, semanticClauses host plan = .ok clauses ∧
        WindowsCoincide executor host plan store clauses := by
  have horder := orderBy_of_compileQuery hplan
  have hexecute := fun results ↦ @execute_eq_ok _ executor host plan store embed queryText _ hmode
    horder hquery hembed results
  constructor
  · rintro ⟨clauses, results, hclauses, hbest, hreading, hwritten⟩
    obtain ⟨hdimension, clauses', hclauses', hreading⟩ := (hexecute results).mp hreading
    obtain rfl : clauses' = clauses := Except.ok.inj (hclauses'.symm.trans hclauses)
    have hvector : firstVector plan.embedding ≠ [] := by
      intro hnil
      rw [hnil] at hdimension
      exact executor.dimension_pos.ne hdimension
    obtain ⟨clauses'', hclauses'', hwritten⟩ :=
      (executeSemantic_eq_ok hmode horder hvector).mp hwritten
    obtain rfl : clauses'' = clauses' := Except.ok.inj (hclauses''.symm.trans hclauses')
    have hids := nodup_matching hkey executor host plan clauses''
    exact ⟨clauses'', hclauses,
      { dimension := hdimension
        shown := fun position hposition found hstands ↦ (searchResults_eq_ok.mp hbest).1 found
          ((mem_window_ranked (nodup_rankingKey (hids _))).mpr ⟨position, hposition, hstands⟩)
        reading := (map_mark_windowBy_iff hkey _).mp
          (map_mark_of_searchResults hkey hreading hbest)
        written := (map_mark_window_iff (nodup_rankingKey (hids _)) (nodup_rankingKey (hids _))).mp
          (map_mark_of_searchResults hkey hbest hwritten) }⟩
  · rintro ⟨clauses, hclauses, hcoincide⟩
    have hids := nodup_matching hkey executor host plan clauses
    have hvector : firstVector plan.embedding ≠ [] := by
      intro hnil
      have hdimension := hcoincide.dimension
      rw [hnil] at hdimension
      exact executor.dimension_pos.ne hdimension
    have hshown : ∀ found ∈ bestRows executor host plan store clauses,
        Shown host.toSearchHost found := by
      intro found hfound
      obtain ⟨position, hposition, hstands⟩ :=
        (mem_window_ranked (nodup_rankingKey (hids _))).mp hfound
      exact hcoincide.shown position hposition found hstands
    have hbest := searchResults_eq_ok.mpr ⟨hshown, rfl⟩
    have hreading := searchResults_congr host.toSearchHost
      ((map_mark_windowBy_iff hkey _).mpr hcoincide.reading)
    have hwritten := searchResults_congr host.toSearchHost
      ((map_mark_window_iff (nodup_rankingKey (hids _)) (nodup_rankingKey (hids _))).mpr
        hcoincide.written)
    exact ⟨clauses, _, hclauses, hbest,
      (hexecute _).mpr ⟨hcoincide.dimension, clauses, hclauses, hreading.trans hbest⟩,
      (executeSemantic_eq_ok hmode horder hvector).mpr
        ⟨clauses, hclauses, hwritten.symm.trans hbest⟩⟩

end Agreement

/-! ### Two chunks, the second one closer to the query -/

section Sample

/-- A host without third-party limits. The similarity is the scalar product, which the cosine is of
vectors of length one, and none for a vector of zeros. -/
def sampleVectorHost : VectorHost Vector where
  parseUuid _ := none
  jsonText _ := []
  acceptsPayload _ := true
  cast vector := vector
  similarity stored wanted :=
    if wanted.all (· = 0) then ⊤ else (((stored.zipWith (· * ·) wanted).sum : ℚ) : Similarity)
  titleBefore first second := first < second

def sampleExecutor : SemanticExecutor where
  provider := lit "local"
  model := lit "minilm"
  modelVersion := lit "1"
  dimension := 2
  provider_text := by decide
  model_text := by decide
  modelVersion_text := by decide
  dimension_pos := by decide

/-- A chunk of a document at a position. -/
def searchChunk (documentId : Uuid) (orderIndex : ℕ) : SemanticChunkRow where
  id := 10 + BitVec.ofNat 128 orderIndex
  ownerId := none
  documentId := documentId
  paragraphId := 3
  chapterId := 2
  orderIndex := orderIndex
  text := []
  sourceStart := orderIndex
  sourceEnd := orderIndex + 1
  charCount := 1
  chunkType := lit "DocBlock"
  blockMeta := []

/-- A store of one document whose chunks have the given vectors. -/
def searchStore (vectors : List Vector) : SearchDb Vector where
  documents :=
    [{ id := 1
       ownerId := none
       sourceUploadId := 5
       sourceVersion := 1
       sourcePath := none
       sourceName := none
       sourceHash := none
       blockMeta := [] }]
  semanticChunks := (List.range vectors.length).map (searchChunk 1)
  semanticChunkTexts := (List.range vectors.length).map fun index ↦
    { chunkUuid := 10 + BitVec.ofNat 128 index
      text := lit "x"
      textSha256 := []
      charCount := 1
      blockMeta := [] }
  semanticChunkCurrent := (List.range vectors.length).map fun index ↦
    { chunkUuid := 10 + BitVec.ofNat 128 index, versionId := 20 + BitVec.ofNat 128 index }
  embeddings := vectors.mapIdx fun index vector ↦
    { entityId := 10 + BitVec.ofNat 128 index
      chunkUuid := some (10 + BitVec.ofNat 128 index)
      chunkVersionId := some (20 + BitVec.ofNat 128 index)
      vector
      model := sampleExecutor.model
      dimension := sampleExecutor.dimension
      provider := sampleExecutor.provider
      modelVersion := sampleExecutor.modelVersion }
  documentTitle _ := lit "Title"
  documentCreatedAt _ := 0

/-- A query for the chunk that is closest to a vector. -/
def closestQuery (vector : Vector) : ChunkQuery where
  embedding := some (.single vector)
  limit := some (some 1)

/-- The plan of such a query. -/
def closestPlan (vector : Vector) : ExecutionPlan where
  mode := .semantic
  searchFields := textFields
  embedding := some (.single vector)
  limit := some 1

def sampleSchema : QuerySchema where
  queryFields := ["project", "year"]
  filterFields := ["project", "year"]

theorem compileQuery_closestQuery (vector : Vector) :
    compileQuery sampleSchema (closestQuery vector) = .ok (closestPlan vector) :=
  rfl

/-- The first chunk is the closest one. -/
theorem semanticPaths_agree_first : PathsAgree sampleExecutor sampleVectorHost
    (fun _ ↦ .ok (sampleExecutor.answer [0, 1])) (closestPlan [0, 1]) (lit "query")
    (searchStore [[0, 1], [1, 0]]) ∧
    ∃ clauses, semanticClauses sampleVectorHost (closestPlan [0, 1]) = .ok clauses ∧
      WindowsCoincide sampleExecutor sampleVectorHost (closestPlan [0, 1])
        (searchStore [[0, 1], [1, 0]]) clauses := by
  have hbest : succeeds (searchResults sampleVectorHost.toSearchHost (bestRows sampleExecutor
      sampleVectorHost (closestPlan [0, 1]) (searchStore [[0, 1], [1, 0]]) [])) = true := by
    decide +kernel
  have hagree : PathsAgree sampleExecutor sampleVectorHost
      (fun _ ↦ .ok (sampleExecutor.answer [0, 1])) (closestPlan [0, 1]) (lit "query")
      (searchStore [[0, 1], [1, 0]]) :=
    ⟨[], _, rfl, @eq_ok_of_succeeds _ _ _ [] hbest, toOption_eq_some.mp (by decide +kernel),
      toOption_eq_some.mp (by decide +kernel)⟩
  exact ⟨hagree, (semanticPaths_agree_iff (compileQuery_closestQuery [0, 1]) rfl (by decide)
    (by decide) rfl).mp hagree⟩

/-- The second chunk is the closest one, and the executor returns the first. -/
theorem not_pathsAgree_second :
    compileQuery sampleSchema (closestQuery [1, 0]) = .ok (closestPlan [1, 0]) ∧
    ¬ PathsAgree sampleExecutor sampleVectorHost (fun _ ↦ .ok (sampleExecutor.answer [1, 0]))
      (closestPlan [1, 0]) (lit "query") (searchStore [[0, 1], [1, 0]]) := by
  refine ⟨rfl, fun ⟨_, results, _, _, hexecute, hboundary⟩ ↦ ?_⟩
  have hdiffer : toOption (sampleExecutor.execute sampleVectorHost
      (fun _ ↦ .ok (sampleExecutor.answer [1, 0])) (closestPlan [1, 0]) (lit "query")
      (searchStore [[0, 1], [1, 0]])) ≠ toOption (sampleExecutor.executeSemantic sampleVectorHost
      (closestPlan [1, 0]) (searchStore [[0, 1], [1, 0]])) := by
    decide +kernel
  exact hdiffer (by rw [hexecute, hboundary])

end Sample

end DocStore
