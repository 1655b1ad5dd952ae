import DocStore.Foundation.Ranking
import DocStore.Query.Filters
import Mathlib.Algebra.Order.Round
import Mathlib.Data.Prod.Lex
import Mathlib.Data.Rat.Floor
import Mathlib.Order.WithBot

/-!
# Semantic search

Two paths execute a semantic plan: `SemanticExecutor.execute`, which asks an embedding client for the
vector of a text, and the boundary of the server, which takes the vector of the plan. Both use one
statement, but a compiled plan has no order, and only the boundary puts the similarity into it. So
the executor cuts its window from the reading order and the boundary from the ranking, and they agree
on the best chunks exactly when the two windows hold the same chunks at the same positions
(`semanticPaths_agree_iff`).

The boundary also writes its vector with eight decimals, and a similarity that is not a number is no
result. The similarity of two stored vectors is a parameter; one that is not a number is the largest,
as PostgreSQL orders it.
-/

set_option autoImplicit false
set_option relaxedAutoImplicit false

namespace DocStore

open Foundation

/-! ### Vectors -/

/-- A similarity, `⊤` when it is not a number. -/
abbrev Similarity := WithTop ℚ

/-- What a semantic search takes from its surroundings. -/
structure VectorHost (ν : Type) extends SearchHost where
  /-- What components are cast to. -/
  cast : Vector → ν
  /-- `1.0 - (stored <=> wanted)`. -/
  similarity : ν → ν → Similarity
  /-- The collation of titles: whether one comes before another. -/
  titleBefore : Text → Text → Bool

/-- The integer next to a number, the even one of two. -/
def roundHalfEven (value : ℚ) : ℤ :=
  if Int.fract value < 1 / 2 then ⌊value⌋
  else if 1 / 2 < Int.fract value then ⌊value⌋ + 1
  else if ⌊value⌋ % 2 = 0 then ⌊value⌋ else ⌊value⌋ + 1

/-- The number that `f"{value:.8f}"` writes. -/
def eightDecimals (value : ℚ) : ℚ := roundHalfEven (value * 10 ^ 8) / 10 ^ 8

/-- The components that `_vector_literal` writes. -/
def vectorLiteral (vector : Vector) : Vector := vector.map eightDecimals

/-- The vector of an embedding, the first of several. -/
def firstVector : Option QueryEmbedding → Vector
  | some (.single vector) => vector
  | some (.rows vectors) => vectors.headD []
  | none => []

/-- `_single_vector`. -/
def singleVector : Option QueryEmbedding → Except SearchError Vector
  | some (.single (first :: rest)) => .ok (first :: rest)
  | some (.rows (first :: _)) => .ok first
  | _ => .error (.embedding "semantic search requires query.embedding")

theorem singleVector_of_ne_nil {embedding : Option QueryEmbedding}
    (hvector : firstVector embedding ≠ []) : singleVector embedding = .ok (firstVector embedding) :=
  match embedding, hvector with
  | some (.single (_ :: _)), _ => rfl
  | some (.rows (_ :: _)), _ => rfl
  | none, hvector | some (.single []), hvector | some (.rows []), hvector => absurd rfl hvector

theorem firstVector_of_singleVector {embedding : Option QueryEmbedding} {vector : Vector}
    (hvector : singleVector embedding = .ok vector) : firstVector embedding = vector :=
  match embedding, hvector with
  | some (.single (_ :: _)), hvector => Except.ok.inj hvector
  | some (.rows (_ :: _)), hvector => Except.ok.inj hvector

/-! ### The statement -/

/-- A row with the similarity of its vector. -/
structure SemanticRow where
  row : SearchRow
  similarity : Similarity

/-- The terms of an `ORDER BY`. -/
inductive OrderTerm where
  | similarity
  | score
  | orderIndex
  | title
  | id
deriving DecidableEq, Repr

/-- The fields that `_order_sql` allows. -/
def allowedOrder : List (String × OrderTerm) :=
  [("semantic_score", .similarity), ("score", .score), ("ordinal", .orderIndex),
    ("order_index", .orderIndex), ("title", .title), ("uuid", .id)]

/-- `_order_sql`. -/
def orderSql (orderBy : List String) : List OrderTerm :=
  orderBy.filterMap (getKey allowedOrder) ++ [.orderIndex, .id]

variable {ν : Type}

/-- Whether a term puts one row before another: similarities and scores descend, and a missing score
comes last. -/
def OrderTerm.before (host : VectorHost ν) (first second : SemanticRow) : OrderTerm → Bool
  | similarity => second.similarity < first.similarity
  | score =>
    match first.row.score, second.row.score with
    | some higher, some lower => lower < higher
    | some _, none => true
    | none, _ => false
  | orderIndex => first.row.chunk.orderIndex < second.row.chunk.orderIndex
  | title => host.titleBefore first.row.title second.row.title
  | id => first.row.chunk.id.toNat < second.row.chunk.id.toNat

/-- Whether an `ORDER BY` lets one row stand in front of another. -/
def inOrder (host : VectorHost ν) : List OrderTerm → SemanticRow → SemanticRow → Bool
  | [], _, _ => true
  | term :: rest, first, second =>
    term.before host first second ||
      (!term.before host second first && inOrder host rest first second)

/-- The vector in use of a chunk: that of its current version under a model and a dimension, of
which at most one is active. -/
def SearchDb.chunkVector (store : SearchDb ν) (model : Text) (dimension : ℕ) (chunkUuid : Uuid) :
    Option ν :=
  (lookup SemanticChunkCurrent.chunkUuid chunkUuid store.semanticChunkCurrent).bind fun current ↦
    (store.embeddings.find? fun embedding ↦
      embedding.chunkUuid = some chunkUuid && embedding.active && embedding.model = model &&
        embedding.dimension = dimension &&
        embedding.chunkVersionId = some current.versionId).map EmbeddingRow.vector

/-- The live chunks that have a vector, with their similarities. -/
def SearchDb.semanticRows (host : VectorHost ν) (store : SearchDb ν) (model : Text) (dimension : ℕ)
    (wanted : ν) : List SemanticRow :=
  store.liveRows.filterMap fun row ↦
    (store.chunkVector model dimension row.chunk.id).map fun vector ↦
      { row, similarity := host.similarity vector wanted }

/-- The rows that pass the `WHERE`. -/
def matchingRows (host : VectorHost ν) (clauses : List Clause) (minScore : Option ℚ)
    (rows : List SemanticRow) : List SemanticRow :=
  rows.filter fun found ↦ selectedBy host.toSearchHost clauses found.row &&
    minScore.all fun least ↦ decide ((least : Similarity) ≤ found.similarity)

/-- `_statement`, executed. -/
def semanticStatement (host : VectorHost ν) (plan : ExecutionPlan) (wanted : ν) (model : Text)
    (dimension : ℕ) (store : SearchDb ν) : Except SearchError (List SemanticRow) := do
  raiseIf (plan.mode ≠ .semantic) .nonSemanticPlan
  let clauses ← predicateSql host.toSearchHost Executor.semantic.metadataFields plan.predicates
  let rows := matchingRows host clauses plan.minScore (store.semanticRows host model dimension wanted)
  return window plan.offset plan.limit
    (rows.insertionSort fun first second ↦ inOrder host (orderSql plan.orderBy) first second)

/-! ### Results -/

/-- `SearchResult`. -/
structure SearchResult where
  chunkId : Uuid
  chunk : Dict
  semanticScore : ℚ
  rank : ℕ
deriving DecidableEq

/-- A similarity between zero and one, unless it is not a number. -/
def shownScore : Similarity → Option ℚ
  | none => none
  | some score => some (max 0 (min 1 score))

/-- `_result_from_row`. -/
def resultFromRow (host : SearchHost) (found : SemanticRow) (rank : ℕ) :
    Except SearchError SearchResult :=
  match shownScore found.similarity with
  | none => .error .malformedRow
  | some semanticScore =>
    if host.acceptsPayload (chunkPayloadFromRow found.row) then
      .ok
        { chunkId := found.row.chunk.id
          chunk := chunkPayloadFromRow found.row
          semanticScore
          rank }
    else .error .malformedRow

/-- The results of the rows, ranked from one on. -/
def searchResults (host : SearchHost) (rows : List SemanticRow) :
    Except SearchError (List SearchResult) :=
  (rows.zipIdx 1).mapM fun entry ↦ resultFromRow host entry.1 entry.2

/-! ### The two paths -/

/-- The only result of an embedding response. A component is missing when it is not a finite
number, the vector when it is not a sequence. -/
structure QueryItem where
  vector : Option (List (Option ℚ))
  dimension : Option ℤ := none

/-- What the embedding client of a query returns. -/
structure QueryResponse where
  provider : Option Text := none
  model : Option Text := none
  modelVersion : Option Text := none
  results : Option (List QueryItem)
  dimension : Option ℤ := none

/-- `_required_text`. -/
def requiredText (value : Option Text) (field : String) : Except SearchError Text :=
  match value.filter fun text ↦ !(strip text).isEmpty with
  | some text => .ok text
  | none => .error (.embedding ("embedding response " ++ field ++ " must be a non-empty string"))

/-- `_query_vector`. -/
def queryVector (response : QueryResponse) : Except SearchError Vector :=
  match response.results with
  | some [item] =>
    match item.vector with
    | none => .error (.embedding "embedding response vector is not a sequence")
    | some components =>
      match components.mapM fun component : Option ℚ ↦ component with
      | none => .error (.embedding "embedding response vector contains an invalid number")
      | some [] => .error (.embedding "embedding response vector is empty")
      | some values =>
        if response.dimension.or item.dimension = some (values.length : ℤ) then .ok values
        else .error (.embedding "embedding response dimension does not match the actual vector")
  | _ => .error (.embedding "embedding response must contain exactly one result")

/-- `SemanticExecutor`, as its constructor lets it be. -/
structure SemanticExecutor where
  provider : Text
  model : Text
  modelVersion : Text
  dimension : ℕ
  provider_text : strip provider ≠ []
  model_text : strip model ≠ []
  modelVersion_text : strip modelVersion ≠ []
  dimension_pos : 0 < dimension

/-- `SemanticExecutor.execute`. -/
def SemanticExecutor.execute (executor : SemanticExecutor) (host : VectorHost ν)
    (embed : Text → Except String QueryResponse) (plan : ExecutionPlan) (queryText : Text)
    (store : SearchDb ν) : Except SearchError (List SearchResult) := do
  raiseIf (plan.mode ≠ .semantic) .nonSemanticPlan
  raiseIf (strip queryText).isEmpty (.embedding "query text must be non-empty")
  let response ← (embed queryText).mapError fun _ ↦
    SearchError.embedding "embedding client is unavailable"
  let provider ← requiredText response.provider "provider"
  let model ← requiredText response.model "model"
  let version ← requiredText response.modelVersion "model_version"
  raiseIf ((provider, model, version) ≠ (executor.provider, executor.model, executor.modelVersion))
    (.embedding "embedding response provider/model/version does not match configuration")
  let vector ← queryVector response
  raiseIf (vector.length ≠ executor.dimension)
    (.embedding "embedding response dimension does not match configuration")
  let rows ← semanticStatement host plan (host.cast vector) model vector.length store
  searchResults host.toSearchHost rows

/-- `RuntimeSearchBoundary._execute_semantic` without refinement, under the same configuration. -/
def SemanticExecutor.executeSemantic (executor : SemanticExecutor) (host : VectorHost ν)
    (plan : ExecutionPlan) (store : SearchDb ν) : Except SearchError (List SearchResult) := do
  let vector ← singleVector plan.embedding
  let plan := if plan.orderBy.isEmpty then { plan with orderBy := ["semantic_score"] } else plan
  let rows ← semanticStatement host plan (host.cast (vectorLiteral vector)) executor.model
    executor.dimension store
  searchResults host.toSearchHost rows

/-- What the client returns for a vector, under the configuration of an executor. -/
def SemanticExecutor.answer (executor : SemanticExecutor) (vector : Vector) : QueryResponse where
  provider := some executor.provider
  model := some executor.model
  modelVersion := some executor.modelVersion
  results := some [{ vector := some (vector.map some) }]
  dimension := some vector.length

/-! ### Orders -/

/-- The reading order. -/
def readingKey (found : SemanticRow) : ℕ ×ₗ ℕ :=
  toLex (found.row.chunk.orderIndex, found.row.chunk.id.toNat)

/-- The ranking: descending similarity, ties in reading order. -/
def rankingKey (found : SemanticRow) : Similarityᵒᵈ ×ₗ (ℕ ×ₗ ℕ) :=
  toLex (OrderDual.toDual found.similarity, readingKey found)

/-- A plan without an order is in reading order. -/
theorem inOrder_nil (host : VectorHost ν) (first second : SemanticRow) :
    inOrder host (orderSql []) first second = true ↔ readingKey first ≤ readingKey second := by
  simp only [orderSql, List.filterMap_nil, List.nil_append, inOrder, OrderTerm.before, readingKey,
    Prod.Lex.toLex_le_toLex, Bool.or_eq_true, Bool.and_eq_true, decide_eq_true_eq,
    Bool.not_eq_true', decide_eq_false_iff_not, and_true]
  omega

/-- A plan ordered by similarity is ranked. -/
theorem inOrder_semanticScore (host : VectorHost ν) (first second : SemanticRow) :
    inOrder host (orderSql ["semantic_score"]) first second = true ↔
      rankingKey first ≤ rankingKey second := by
  have hterms : orderSql ["semantic_score"] = .similarity :: orderSql [] := rfl
  rw [hterms, inOrder, rankingKey, rankingKey, Prod.Lex.toLex_le_toLex, OrderDual.toDual_lt_toDual,
    Bool.or_eq_true, Bool.and_eq_true, inOrder_nil, OrderTerm.before, OrderTerm.before,
    decide_eq_true_eq, Bool.not_eq_true', decide_eq_false_iff_not, OrderDual.toDual_inj]
  rcases lt_trichotomy first.similarity second.similarity with hlt | heq | hgt
  · simp [hlt, hlt.not_gt, hlt.ne]
  · simp [heq]
  · simp [hgt]

/-- `ORDER BY` over terms that say what a key says. -/
theorem insertionSort_inOrder {κ : Type*} [LinearOrder κ] {host : VectorHost ν}
    {terms : List OrderTerm} {key : SemanticRow → κ}
    (hterms : ∀ first second, inOrder host terms first second = true ↔ key first ≤ key second)
    (rows : List SemanticRow) :
    (rows.insertionSort fun first second ↦ inOrder host terms first second) = ranked key rows := by
  have hrel : (fun first second ↦ inOrder host terms first second = true) =
      fun first second ↦ key first ≤ key second := by
    funext first second
    exact propext (hterms first second)
  rw [ranked]
  congr 1

/-! ### What a result says -/

section Results

variable {host : SearchHost} {rows rows' : List SemanticRow} {results : List SearchResult}

/-- What a result says of its row. -/
def mark (found : SemanticRow) : SearchRow × Option ℚ := (found.row, shownScore found.similarity)

/-- What identifies a result. -/
def tag (found : SemanticRow) : Uuid × Option ℚ := (found.row.chunk.id, shownScore found.similarity)

/-- A row that becomes a result. -/
def Shown (host : SearchHost) (found : SemanticRow) : Prop :=
  found.similarity ≠ ⊤ ∧ host.acceptsPayload (chunkPayloadFromRow found.row) = true

theorem shownScore_eq_none {similarity : Similarity} : shownScore similarity = none ↔
    similarity = ⊤ := by
  cases similarity with
  | none => exact iff_of_true rfl rfl
  | some score => exact iff_of_false (Option.some_ne_none _) (WithTop.coe_ne_top (a := score))

/-- The result of a row that is shown. -/
def shownResult (found : SemanticRow) (rank : ℕ) : SearchResult where
  chunkId := found.row.chunk.id
  chunk := chunkPayloadFromRow found.row
  semanticScore := (shownScore found.similarity).getD 0
  rank := rank

theorem resultFromRow_eq_ok {found : SemanticRow} {rank : ℕ} {result : SearchResult} :
    resultFromRow host found rank = .ok result ↔
      Shown host found ∧ result = shownResult found rank := by
  rw [resultFromRow, Shown, shownResult, ne_eq, ← shownScore_eq_none]
  cases hshown : shownScore found.similarity with
  | none => simp
  | some semanticScore =>
    by_cases haccepts : host.acceptsPayload (chunkPayloadFromRow found.row) = true
    · simp [haccepts, eq_comm]
    · simp [haccepts]

/-- Rows become results when every one of them is shown. -/
theorem searchResults_eq_ok : searchResults host rows = .ok results ↔
    (∀ found ∈ rows, Shown host found) ∧
      results = (rows.zipIdx 1).map fun entry ↦ shownResult entry.1 entry.2 := by
  rw [searchResults, mapM_eq_ok_iff fun entry result ↦ resultFromRow_eq_ok]
  refine and_congr_left' ?_
  conv_rhs => rw [← List.zipIdx_map_fst 1 rows]
  exact List.forall_mem_map.symm

/-- Results say what their rows say, in order. -/
theorem map_tag_of_searchResults (hresults : searchResults host rows = .ok results) :
    rows.map tag = results.map fun result ↦ (result.chunkId, some result.semanticScore) := by
  obtain ⟨hshown, rfl⟩ := searchResults_eq_ok.mp hresults
  rw [List.map_map]
  conv_lhs => rw [← List.zipIdx_map_fst 1 rows, List.map_map]
  refine List.map_congr_left fun entry hentry ↦ ?_
  have hentry : entry.1 ∈ rows := List.zipIdx_map_fst 1 rows ▸ List.mem_map_of_mem hentry
  obtain ⟨score, hscore⟩ := Option.ne_none_iff_exists'.mp
    (mt shownScore_eq_none.mp (hshown _ hentry).1)
  simp [tag, shownResult, hscore]

/-- Results depend on what they say of the rows only. -/
theorem searchResults_congr (host : SearchHost) (hmarks : rows.map mark = rows'.map mark) :
    searchResults host rows = searchResults host rows' := by
  rw [searchResults, searchResults]
  generalize 1 = rank
  induction rows generalizing rows' rank with
  | nil =>
    obtain rfl := List.map_eq_nil_iff.mp hmarks.symm
    rfl
  | cons found rows ih =>
    obtain ⟨found', rest, rfl, hfound, hrest⟩ := List.map_eq_cons_iff.mp hmarks.symm
    obtain ⟨hrow, hscore⟩ := Prod.mk.inj hfound
    have hresult : resultFromRow host found rank = resultFromRow host found' rank := by
      rw [resultFromRow, resultFromRow, hrow, hscore]
    rw [List.zipIdx_cons, List.zipIdx_cons, List.mapM_cons, List.mapM_cons, hresult,
      ih hrest.symm]

end Results

/-! ### The rows of a store -/

section Rows

variable {store : SearchDb ν}

theorem chunk_of_joined {chunk : SemanticChunkRow} {row : SearchRow}
    (hjoined : store.joined chunk = some row) : row.chunk = chunk := by
  obtain ⟨payload, -, hrow⟩ := Option.bind_eq_some_iff.mp hjoined
  obtain ⟨document, -, rfl⟩ := Option.map_eq_some_iff.mp hrow
  rfl

/-- A chunk has at most one joined row. -/
theorem nodup_liveRows (hkey : (store.semanticChunks.map fun chunk ↦ chunk.id).Nodup) :
    (store.liveRows.map fun row ↦ row.chunk.id).Nodup := by
  refine (hkey.sublist (List.filter_sublist.map _)).sublist
    (map_filterMap_sublist (fun hjoined ↦ ?_) _)
  rw [chunk_of_joined hjoined]

/-- The rows of a semantic search. -/
theorem mem_semanticRows {host : VectorHost ν} {model : Text} {dimension : ℕ} {wanted : ν}
    {found : SemanticRow} : found ∈ store.semanticRows host model dimension wanted ↔
      found.row ∈ store.liveRows ∧ ∃ vector,
        store.chunkVector model dimension found.row.chunk.id = some vector ∧
        found.similarity = host.similarity vector wanted := by
  rw [SearchDb.semanticRows, List.mem_filterMap]
  constructor
  · rintro ⟨row, hrow, hfound⟩
    obtain ⟨vector, hvector, rfl⟩ := Option.map_eq_some_iff.mp hfound
    exact ⟨hrow, vector, hvector, rfl⟩
  · rintro ⟨hrow, vector, hvector, hsimilarity⟩
    exact ⟨found.row, hrow, Option.map_eq_some_iff.mpr ⟨vector, hvector, by rw [← hsimilarity]⟩⟩

theorem nodup_semanticRows (hkey : (store.semanticChunks.map fun chunk ↦ chunk.id).Nodup)
    (host : VectorHost ν) (model : Text) (dimension : ℕ) (wanted : ν) :
    ((store.semanticRows host model dimension wanted).map fun found ↦
      found.row.chunk.id).Nodup := by
  refine (nodup_liveRows hkey).sublist (map_filterMap_sublist (fun hfound ↦ ?_) _)
  obtain ⟨vector, -, rfl⟩ := Option.map_eq_some_iff.mp hfound
  rfl

end Rows

/-! ### What the two paths return -/

section Paths

variable {executor : SemanticExecutor} {host : VectorHost ν} {plan : ExecutionPlan}
  {store : SearchDb ν} {wanted : ν} {model : Text} {dimension : ℕ}

/-- The rows of a plan in the order of a key, cut to its window. -/
def windowBy {κ : Type*} [LinearOrder κ] (key : SemanticRow → κ) (plan : ExecutionPlan)
    (rows : List SemanticRow) : List SemanticRow :=
  window plan.offset plan.limit (ranked key rows)

/-- The live chunks that satisfy a plan, with their similarities to a query vector. -/
def SemanticExecutor.matching (executor : SemanticExecutor) (host : VectorHost ν)
    (plan : ExecutionPlan) (store : SearchDb ν) (clauses : List Clause) (wanted : ν) :
    List SemanticRow :=
  matchingRows host clauses plan.minScore
    (store.semanticRows host executor.model executor.dimension wanted)

/-- The clauses of a plan. -/
def semanticClauses (host : VectorHost ν) (plan : ExecutionPlan) :
    Except SearchError (List Clause) :=
  predicateSql host.toSearchHost Executor.semantic.metadataFields plan.predicates

theorem semanticStatement_eq_ok {κ : Type*} [LinearOrder κ] {key : SemanticRow → κ}
    (hmode : plan.mode = .semantic) (hterms : ∀ first second,
      inOrder host (orderSql plan.orderBy) first second = true ↔ key first ≤ key second)
    {rows : List SemanticRow} :
    semanticStatement host plan wanted model dimension store = .ok rows ↔
      ∃ clauses, semanticClauses host plan = .ok clauses ∧
        rows = windowBy key plan (matchingRows host clauses plan.minScore
          (store.semanticRows host model dimension wanted)) := by
  rw [semanticStatement, raiseIf_bind_eq_ok, bind_eq_ok, and_iff_right (by simp [hmode])]
  simp only [pure_eq_ok, windowBy, insertionSort_inOrder hterms, semanticClauses]

theorem queryVector_answer {vector : Vector} : queryVector (executor.answer vector) =
    if vector = [] then .error (.embedding "embedding response vector is empty")
    else .ok vector := by
  have hcomponents : (vector.map some).mapM (fun component : Option ℚ ↦ component) =
      some vector := by
    induction vector with
    | nil => rfl
    | cons first rest ih => rw [List.map_cons, List.mapM_cons, ih]; rfl
  rw [SemanticExecutor.answer, queryVector]
  simp only [hcomponents]
  cases vector with
  | nil => rfl
  | cons first rest => simp

/-- The constructor takes only texts that `_required_text` takes. -/
theorem requiredText_eq_ok {text : Text} (htext : strip text ≠ []) (field : String) :
    requiredText (some text) field = .ok text := by
  have hfilter : (!(strip text).isEmpty) = true := by simpa using htext
  rw [requiredText, Option.filter_some, hfilter, if_pos rfl]

/-- The executor cuts its window from the reading order. -/
theorem execute_eq_ok {embed : Text → Except String QueryResponse} {queryText : Text}
    {vector : Vector} (hmode : plan.mode = .semantic) (horder : plan.orderBy = [])
    (hquery : strip queryText ≠ []) (hembed : embed queryText = .ok (executor.answer vector))
    {results : List SearchResult} :
    executor.execute host embed plan queryText store = .ok results ↔
      vector.length = executor.dimension ∧ ∃ clauses, semanticClauses host plan = .ok clauses ∧
        searchResults host.toSearchHost (windowBy readingKey plan
          (executor.matching host plan store clauses (host.cast vector))) = .ok results := by
  have hterms : ∀ first second, inOrder host (orderSql plan.orderBy) first second = true ↔
      readingKey first ≤ readingKey second := fun first second ↦ horder ▸ inOrder_nil host _ _
  have hprovider : requiredText (executor.answer vector).provider "provider" =
      .ok executor.provider := requiredText_eq_ok executor.provider_text _
  have hmodel : requiredText (executor.answer vector).model "model" = .ok executor.model :=
    requiredText_eq_ok executor.model_text _
  have hversion : requiredText (executor.answer vector).modelVersion "model_version" =
      .ok executor.modelVersion := requiredText_eq_ok executor.modelVersion_text _
  rw [SemanticExecutor.execute, raiseIf_bind_eq_ok, and_iff_right (by simp [hmode]),
    raiseIf_bind_eq_ok, and_iff_right (by simpa using hquery), hembed]
  have hresponse : (Except.ok (executor.answer vector) : Except String QueryResponse).mapError
      (fun _ ↦ SearchError.embedding "embedding client is unavailable") =
        .ok (executor.answer vector) := rfl
  have hsame : decide ((executor.provider, executor.model, executor.modelVersion) ≠
      (executor.provider, executor.model, executor.modelVersion)) = false := by simp
  rw [hresponse, ok_bind, hprovider, ok_bind, hmodel, ok_bind, hversion, ok_bind, hsame,
    raiseIf_bind_eq_ok, and_iff_right rfl, queryVector_answer]
  by_cases hnil : vector = []
  · have hlength : vector.length ≠ executor.dimension := by
      rw [hnil]
      exact executor.dimension_pos.ne
    rw [if_pos hnil]
    exact iff_of_false (fun herror ↦ nomatch herror) fun hresults ↦ hlength hresults.1
  · rw [if_neg hnil, ok_bind, raiseIf_bind_eq_ok, decide_eq_false_iff_not, not_not]
    refine and_congr_right fun hlength ↦ ?_
    rw [bind_eq_ok]
    simp only [semanticStatement_eq_ok hmode hterms]
    constructor
    · rintro ⟨_, ⟨clauses, hclauses, rfl⟩, hresults⟩
      exact ⟨clauses, hclauses, by rwa [hlength] at hresults⟩
    · rintro ⟨clauses, hclauses, hresults⟩
      exact ⟨_, ⟨clauses, hclauses, rfl⟩, by rwa [hlength]⟩

/-- The boundary cuts its window from the ranking by the vector that it writes. -/
theorem executeSemantic_eq_ok (hmode : plan.mode = .semantic) (horder : plan.orderBy = [])
    (hvector : firstVector plan.embedding ≠ []) {results : List SearchResult} :
    executor.executeSemantic host plan store = .ok results ↔
      ∃ clauses, semanticClauses host plan = .ok clauses ∧
        searchResults host.toSearchHost (windowBy rankingKey plan
          (executor.matching host plan store clauses
            (host.cast (vectorLiteral (firstVector plan.embedding))))) = .ok results := by
  have hmode' : ({ plan with orderBy := ["semantic_score"] } : ExecutionPlan).mode = .semantic :=
    hmode
  rw [SemanticExecutor.executeSemantic, singleVector_of_ne_nil hvector, ok_bind, horder]
  simp only [List.isEmpty_nil, if_true]
  rw [bind_eq_ok]
  simp only [semanticStatement_eq_ok hmode' (inOrder_semanticScore host)]
  constructor
  · rintro ⟨_, ⟨clauses, hclauses, rfl⟩, hresults⟩
    exact ⟨clauses, hclauses, hresults⟩
  · rintro ⟨clauses, hclauses, hresults⟩
    exact ⟨_, ⟨clauses, hclauses, rfl⟩, hresults⟩

end Paths

end DocStore
