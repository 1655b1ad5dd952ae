import DocStore.Query.SemanticSearch

/-!
# Full-text and structured search

The full-text statement matches the texts of the selected fields against the text of the plan and
ranks by relevance; the structured one only filters, in the order in which documents were created.
Both join a chunk with its text and its document as the semantic statement does, and all three ask
of the deletion columns only that the chunk itself has no deletion time: whatever an executor
returns stands for a row of `liveRows` (`exists_of_executeFullText`, `exists_of_executeStructured`,
`exists_of_execute`, `exists_of_executeSemantic`).

How PostgreSQL matches, ranks and cuts out texts is a parameter.
-/

set_option autoImplicit false
set_option relaxedAutoImplicit false

namespace DocStore

open Foundation

variable {ν : Type}

/-! ### Full-text search -/

/-- What a full-text search takes from its surroundings: the text search of the server over texts
with their weights, and the configuration `simple`. -/
structure TextHost (ν : Type) extends VectorHost ν where
  /-- `vector @@ plainto_tsquery(query)`. -/
  matchesQuery : List (Char × Text) → Text → Bool
  /-- `ts_rank_cd(vector, query) / (1.0 + ts_rank_cd(vector, query))`. -/
  relevance : List (Char × Text) → Text → ℚ
  /-- `ts_headline(text, query)`. -/
  headline : Text → Text → Text

/-- `_field_expression`, for a row. -/
def fieldExpression (host : SearchHost) (row : SearchRow) (field : String) : Text :=
  if field = "summary" then (host.extractText row.chunk.blockMeta "summary").getD []
  else if field = "title" then row.title
  else row.text

/-- The weights of the fields. -/
def fieldWeight (field : String) : Char :=
  if field = "title" then 'A' else if field = "summary" then 'B' else 'C'

/-- `plan.search_fields or _FIELDS`. -/
def ExecutionPlan.selectedFields (plan : ExecutionPlan) : List String :=
  if plan.searchFields.isEmpty then textFields else plan.searchFields

/-- `_search_vector`, for a row. -/
def searchVector (host : SearchHost) (row : SearchRow) (fields : List String) :
    List (Char × Text) :=
  fields.map fun field ↦ (fieldWeight field, fieldExpression host row field)

/-- The fields that match on their own; a vector without weights has the weight `D`. -/
def matchedFields (host : TextHost ν) (row : SearchRow) (fields : List String) (text : Text) :
    List String :=
  fields.filter fun field ↦
    host.matchesQuery [('D', fieldExpression host.toSearchHost row field)] text

/-- The fields that `_order_sql` of the full-text search allows. -/
def allowedTextOrder : List (String × OrderTerm) :=
  [("relevance", .similarity), ("score", .score), ("ordinal", .orderIndex),
    ("order_index", .orderIndex), ("title", .title), ("uuid", .id)]

/-- `ORDER BY relevance DESC` and the terms of the plan. -/
def textOrderSql (orderBy : List String) : List OrderTerm :=
  .similarity :: (orderBy.filterMap (getKey allowedTextOrder) ++ [.orderIndex, .id])

/-- The rows that pass the `WHERE` of a full-text search, each with its relevance in the place of a
similarity. -/
def fullTextRows (host : TextHost ν) (fields : List String) (text : Text) (clauses : List Clause)
    (store : SearchDb ν) : List SemanticRow :=
  (store.liveRows.filter fun row ↦
      host.matchesQuery (searchVector host.toSearchHost row fields) text &&
        selectedBy host.toSearchHost clauses row).map fun row ↦
    { row
      similarity := (host.relevance (searchVector host.toSearchHost row fields) text : ℚ) }

/-- `_statement` of the full-text search, executed. -/
def fullTextStatement (host : TextHost ν) (plan : ExecutionPlan) (store : SearchDb ν) :
    Except SearchError (List SemanticRow) := do
  raiseIf (plan.mode ≠ .fullText) .nonFullTextPlan
  let text := plan.text.getD []
  raiseIf (strip text).isEmpty
    (.fullText "full-text plan must contain a non-empty search text")
  let fields := plan.selectedFields
  let unknown := fields.filter fun field ↦ field ∉ textFields
  raiseIf (!unknown.isEmpty) (.textField (unknown.headD ""))
  let clauses ← predicateSql host.toSearchHost Executor.fullText.metadataFields plan.predicates
  return window plan.offset plan.limit
    ((fullTextRows host fields text clauses store).insertionSort fun first second ↦
      inOrder host.toVectorHost (textOrderSql plan.orderBy) first second)

/-- A result of the full-text search. -/
structure FullTextResult where
  chunkId : Uuid
  chunk : Dict
  bm25Score : ℚ
  rank : ℕ
  matchedFields : List String
  highlights : Dict

/-- `_result_from_row` of the full-text search. -/
def fullTextResult (host : TextHost ν) (plan : ExecutionPlan) (found : SemanticRow) (rank : ℕ) :
    Except SearchError FullTextResult :=
  let text := plan.text.getD []
  let matched := matchedFields host found.row plan.selectedFields text
  match shownScore found.similarity with
  | none => .error .malformedRow
  | some bm25Score =>
    if host.acceptsPayload (chunkPayloadFromRow found.row) then
      .ok
        { chunkId := found.row.chunk.id
          chunk := chunkPayloadFromRow found.row
          bm25Score
          rank
          matchedFields := matched
          highlights := updateKeys [] (matched.map fun field ↦
            (field, .str (host.headline (fieldExpression host.toSearchHost found.row field) text))) }
    else .error .malformedRow

/-- `FullTextExecutor.execute`. -/
def executeFullText (host : TextHost ν) (plan : ExecutionPlan) (store : SearchDb ν) :
    Except SearchError (List FullTextResult) := do
  let rows ← fullTextStatement host plan store
  (rows.zipIdx 1).mapM fun entry ↦ fullTextResult host plan entry.1 entry.2

/-! ### Structured search -/

/-- The rows that pass the `WHERE` of a structured search. -/
def structuredRows (host : SearchHost) (clauses : List Clause) (store : SearchDb ν) :
    List SearchRow :=
  store.liveRows.filter (selectedBy host clauses)

/-- `ORDER BY d.created_at ASC, sc.order_index ASC, sc.id ASC`. -/
def SearchDb.creationKey (store : SearchDb ν) (row : SearchRow) : Instant ×ₗ (ℕ ×ₗ ℕ) :=
  toLex (store.documentCreatedAt row.chunk.documentId,
    toLex (row.chunk.orderIndex, row.chunk.id.toNat))

/-- `_execute_structured`, which does not look at the mode of the plan. -/
def executeStructured (host : SearchHost) (plan : ExecutionPlan) (store : SearchDb ν) :
    Except SearchError (List SearchResult) := do
  let clauses ← predicateSql host Executor.structured.metadataFields plan.predicates
  let rows := window plan.offset plan.limit
    (ranked store.creationKey (structuredRows host clauses store))
  searchResults host (rows.map fun row ↦ { row, similarity := (1 : ℚ) })

/-! ### What is found -/

section Found

variable {store : SearchDb ν} {plan : ExecutionPlan}

/-- A result of some rows shows one of them. -/
theorem exists_row_of_searchResults {host : SearchHost} {rows : List SemanticRow}
    {results : List SearchResult} (hresults : searchResults host rows = .ok results)
    {result : SearchResult} (hresult : result ∈ results) :
    ∃ found ∈ rows, result.chunkId = found.row.chunk.id := by
  obtain ⟨-, rfl⟩ := searchResults_eq_ok.mp hresults
  obtain ⟨entry, hentry, rfl⟩ := List.mem_map.mp hresult
  exact ⟨entry.1, List.zipIdx_map_fst 1 rows ▸ List.mem_map_of_mem hentry, rfl⟩

/-- A row of the semantic statement is the row of a live chunk. -/
theorem row_mem_of_semanticStatement {host : VectorHost ν} {wanted : ν} {model : Text}
    {dimension : ℕ} {rows : List SemanticRow}
    (hrows : semanticStatement host plan wanted model dimension store = .ok rows)
    {found : SemanticRow} (hfound : found ∈ rows) : found.row ∈ store.liveRows := by
  obtain ⟨-, hrows⟩ := raiseIf_bind_eq_ok.mp hrows
  obtain ⟨clauses, -, hrows⟩ := bind_eq_ok.mp hrows
  cases hrows
  have hmatching := (List.mem_insertionSort _).mp (mem_of_mem_window hfound)
  exact (mem_semanticRows.mp (List.mem_of_mem_filter hmatching)).1

/-- A row of the full-text statement is the row of a live chunk. -/
theorem row_mem_of_fullTextStatement {host : TextHost ν} {rows : List SemanticRow}
    (hrows : fullTextStatement host plan store = .ok rows) {found : SemanticRow}
    (hfound : found ∈ rows) : found.row ∈ store.liveRows := by
  obtain ⟨-, hrows⟩ := raiseIf_bind_eq_ok.mp hrows
  obtain ⟨-, hrows⟩ := raiseIf_bind_eq_ok.mp hrows
  obtain ⟨-, hrows⟩ := raiseIf_bind_eq_ok.mp hrows
  obtain ⟨clauses, -, hrows⟩ := bind_eq_ok.mp hrows
  cases hrows
  obtain ⟨row, hrow, rfl⟩ :=
    List.mem_map.mp ((List.mem_insertionSort _).mp (mem_of_mem_window hfound))
  exact List.mem_of_mem_filter hrow

/-- **What the full-text search returns is live.** -/
theorem exists_of_executeFullText {host : TextHost ν} {results : List FullTextResult}
    (hresults : executeFullText host plan store = .ok results) {result : FullTextResult}
    (hresult : result ∈ results) : ∃ row ∈ store.liveRows, result.chunkId = row.chunk.id := by
  obtain ⟨rows, hrows, hresults⟩ := bind_eq_ok.mp hresults
  obtain ⟨entry, hentry, hshown⟩ := exists_of_mapM_eq_ok hresults hresult
  have hfound : entry.1 ∈ rows := List.zipIdx_map_fst 1 rows ▸ List.mem_map_of_mem hentry
  refine ⟨entry.1.row, row_mem_of_fullTextStatement hrows hfound, ?_⟩
  dsimp only [fullTextResult] at hshown
  split at hshown
  · cases hshown
  · split at hshown
    · cases hshown
      rfl
    · cases hshown

/-- **What the structured search returns is live.** -/
theorem exists_of_executeStructured {host : SearchHost} {results : List SearchResult}
    (hresults : executeStructured host plan store = .ok results) {result : SearchResult}
    (hresult : result ∈ results) : ∃ row ∈ store.liveRows, result.chunkId = row.chunk.id := by
  obtain ⟨clauses, -, hresults⟩ := bind_eq_ok.mp hresults
  obtain ⟨found, hfound, hshown⟩ := exists_row_of_searchResults hresults hresult
  obtain ⟨row, hrow, rfl⟩ := List.mem_map.mp hfound
  exact ⟨row, List.mem_of_mem_filter (mem_ranked.mp (mem_of_mem_window hrow)), hshown⟩

/-- **What the semantic executor returns is live.** -/
theorem exists_of_execute {executor : SemanticExecutor} {host : VectorHost ν}
    {embed : Text → Except String QueryResponse} {queryText : Text} {results : List SearchResult}
    (hresults : executor.execute host embed plan queryText store = .ok results)
    {result : SearchResult} (hresult : result ∈ results) :
    ∃ row ∈ store.liveRows, result.chunkId = row.chunk.id := by
  obtain ⟨rows, ⟨wanted, model, dimension, hrows⟩, hresults⟩ :
      ∃ rows, (∃ wanted model dimension,
        semanticStatement host plan wanted model dimension store = .ok rows) ∧
          searchResults host.toSearchHost rows = .ok results := by
    obtain ⟨-, hresults⟩ := raiseIf_bind_eq_ok.mp hresults
    obtain ⟨-, hresults⟩ := raiseIf_bind_eq_ok.mp hresults
    obtain ⟨response, -, hresults⟩ := bind_eq_ok.mp hresults
    obtain ⟨provider, -, hresults⟩ := bind_eq_ok.mp hresults
    obtain ⟨model, -, hresults⟩ := bind_eq_ok.mp hresults
    obtain ⟨version, -, hresults⟩ := bind_eq_ok.mp hresults
    obtain ⟨-, hresults⟩ := raiseIf_bind_eq_ok.mp hresults
    obtain ⟨vector, -, hresults⟩ := bind_eq_ok.mp hresults
    obtain ⟨-, hresults⟩ := raiseIf_bind_eq_ok.mp hresults
    obtain ⟨rows, hrows, hresults⟩ := bind_eq_ok.mp hresults
    exact ⟨rows, ⟨_, _, _, hrows⟩, hresults⟩
  obtain ⟨found, hfound, hshown⟩ := exists_row_of_searchResults hresults hresult
  exact ⟨found.row, row_mem_of_semanticStatement hrows hfound, hshown⟩

/-- **What the boundary returns for a semantic plan is live.** -/
theorem exists_of_executeSemantic {executor : SemanticExecutor} {host : VectorHost ν}
    {results : List SearchResult} (hresults : executor.executeSemantic host plan store = .ok results)
    {result : SearchResult} (hresult : result ∈ results) :
    ∃ row ∈ store.liveRows, result.chunkId = row.chunk.id := by
  obtain ⟨vector, -, hresults⟩ := bind_eq_ok.mp hresults
  obtain ⟨rows, hrows, hresults⟩ := bind_eq_ok.mp hresults
  obtain ⟨found, hfound, hshown⟩ := exists_row_of_searchResults hresults hresult
  exact ⟨found.row, row_mem_of_semanticStatement hrows hfound, hshown⟩

end Found

end DocStore
