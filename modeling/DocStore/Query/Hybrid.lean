import DocStore.Domain.Metadata
import DocStore.Domain.TextOrder
import DocStore.Foundation.Ranking
import DocStore.Foundation.Table
import Mathlib.Algebra.Order.Ring.Rat
import Mathlib.Data.Prod.Lex

/-!
# Fusion

Fusion brings the candidates of a full text search and of a semantic search together, one result for
every chunk, asks the adapter for a score of each and sorts by it. The score is bounded to the unit
interval first, and the bounded score decides: two results whose scores lie beyond the same end of
the interval are sorted by their chunk ids, whichever scores higher (`not_inScoreOrder_combSum`).
Otherwise the ranking is that of the scores, every id is in it once, it does not depend on the order
of the candidates, and a limit cuts it (`fuseSearchResults_ranks`).

The scores are those of the adapter, a parameter: one for each candidate, from the values of this
candidate.
-/

set_option autoImplicit false
set_option relaxedAutoImplicit false

namespace DocStore

open Foundation

/-! ### Results -/

/-- A Python float as a score. -/
inductive FloatScore where
  | finite (value : ℚ)
  | notFinite
deriving DecidableEq

/-- `score or 0.0`, after the validation. -/
def FloatScore.value : FloatScore → ℚ
  | finite value => value
  | notFinite => 0

/-- A `SearchResult` of the adapter; `χ` is the type of its chunks. -/
structure AdapterResult (χ : Type) where
  chunkId : Text
  chunk : χ
  bm25Score : Option FloatScore := none
  semanticScore : Option FloatScore := none
  hybridScore : Option ℚ := none
  rank : ℤ := 0
  matchedFields : Option (List Text) := none
  highlights : Option Dict := none
  searchMetadata : Option Dict := none

/-- `HybridStrategy`. -/
inductive HybridStrategy where
  | weightedSum
  | reciprocalRank
  | combSum
  | combMnz
  | other (value : Text)
deriving DecidableEq

/-- `HybridSearchConfig`. -/
structure HybridSearchConfig where
  strategy : HybridStrategy
  bm25Weight : ℚ
  semanticWeight : ℚ
  normalizeScores : Bool

/-- The score helper of the adapter, and the names of its strategies. -/
structure HybridHelper where
  calculateHybridScores : List ℚ → List ℚ → HybridSearchConfig → List ℚ
  reciprocalRank : List ℤ → List ℤ → ℚ → ℚ → List ℚ
  strategyValue : HybridStrategy → Text

/-- The helper returns one score for each candidate, computed from the values of this candidate. -/
structure HybridHelper.PerCandidate (helper : HybridHelper) : Prop where
  scores : ∃ score : HybridSearchConfig → ℚ → ℚ → ℚ, ∀ config bm25 semantic,
    bm25.length = semantic.length →
      helper.calculateHybridScores bm25 semantic config = List.zipWith (score config) bm25 semantic
  ranks : ∃ score : ℚ → ℚ → ℤ → ℤ → ℚ, ∀ full semantic bm25Weight semanticWeight,
    full.length = semantic.length →
      helper.reciprocalRank full semantic bm25Weight semanticWeight =
        List.zipWith (score bm25Weight semanticWeight) full semantic

/-- What the fusion raises. -/
inductive FusionError where
  | unsupportedStrategy
  | unsupportedTieBreaker (tieBreaker : String)
  | invalidLimit
  | malformed (source : String) (chunkId : Text) (message : String)

variable {χ : Type}

/-! ### Validating and merging -/

/-- The score of a candidate in its source. -/
def AdapterResult.sourceScore (source : String) (candidate : AdapterResult χ) : Option FloatScore :=
  if source = "full_text" then candidate.bm25Score else candidate.semanticScore

/-- The checks on one candidate. -/
def validateCandidate (source : String) (candidate : AdapterResult χ) : Except FusionError Unit := do
  raiseIf candidate.chunkId.isEmpty
    (.malformed source candidate.chunkId "candidate has an invalid chunk_id")
  raiseIf (candidate.rank < 0) (.malformed source candidate.chunkId "has an invalid rank")
  raiseIf (candidate.sourceScore source = none || candidate.sourceScore source = some .notFinite)
    (.malformed source candidate.chunkId "has no valid score")

/-- `_validate_candidates`. -/
def validateCandidates (candidates : List (AdapterResult χ)) (source : String) :
    Except FusionError (List (AdapterResult χ)) := do
  let _ ← candidates.mapM (validateCandidate source)
  return candidates

/-- An entry of `by_id`: a candidate of the full text search, one of the semantic search, or both. -/
inductive Evidence (χ : Type) where
  | fullText (candidate : AdapterResult χ)
  | semantic (candidate : AdapterResult χ)
  | both (fullText semantic : AdapterResult χ)

namespace Evidence

/-- `by_id[chunk_id][0]`. -/
def fullText? : Evidence χ → Option (AdapterResult χ)
  | fullText candidate => some candidate
  | semantic _ => none
  | both candidate _ => some candidate

/-- `by_id[chunk_id][1]`. -/
def semantic? : Evidence χ → Option (AdapterResult χ)
  | fullText _ => none
  | semantic candidate => some candidate
  | both _ candidate => some candidate

/-- `full_text or semantic`. -/
def primary : Evidence χ → AdapterResult χ
  | fullText candidate => candidate
  | semantic candidate => candidate
  | both candidate _ => candidate

/-- `(candidate, current[1])`. -/
def withFullText (candidate : AdapterResult χ) : Option (Evidence χ) → Evidence χ
  | none => fullText candidate
  | some current => (current.semantic?.map (both candidate)).getD (fullText candidate)

/-- `(current[0], candidate)`. -/
def withSemantic (candidate : AdapterResult χ) : Option (Evidence χ) → Evidence χ
  | none => semantic candidate
  | some current =>
    (current.fullText?.map fun fullText ↦ both fullText candidate).getD (semantic candidate)

end Evidence

/-- `_merge_mapping`. -/
def mergeMapping (left right : Option Dict) : Dict := updateKeys (left.getD []) (right.getD [])

/-- `_merge_candidate`. -/
def mergeCandidate (evidence : Evidence χ) : AdapterResult χ where
  chunkId := evidence.primary.chunkId
  chunk := evidence.primary.chunk
  bm25Score := evidence.fullText?.bind AdapterResult.bm25Score
  semanticScore := evidence.semantic?.bind AdapterResult.semanticScore
  rank :=
    match evidence with
    | .fullText candidate => candidate.rank
    | .semantic candidate => candidate.rank
    | .both fullText semantic => min fullText.rank semantic.rank
  matchedFields := some (((evidence.fullText?.bind AdapterResult.matchedFields).getD [] ++
    (evidence.semantic?.bind AdapterResult.matchedFields).getD []).eraseDups)
  highlights := some (mergeMapping (evidence.fullText?.bind AdapterResult.highlights)
    (evidence.semantic?.bind AdapterResult.highlights))
  searchMetadata := some (mergeMapping (evidence.fullText?.bind AdapterResult.searchMetadata)
    (evidence.semantic?.bind AdapterResult.searchMetadata))

/-- `by_id`. -/
def byId (fullText semantic : List (AdapterResult χ)) : List (Text × Evidence χ) :=
  semantic.foldl
    (fun entries candidate ↦ setKey entries candidate.chunkId
      (Evidence.withSemantic candidate (getKey entries candidate.chunkId)))
    (fullText.foldl
      (fun entries candidate ↦ setKey entries candidate.chunkId
        (Evidence.withFullText candidate (getKey entries candidate.chunkId))) [])

/-! ### Fusing -/

/-- `fused_scores`: the ranks count where the strategy is that of the reciprocal ranks, and a missing
candidate comes behind all of its source. -/
def fusedScores (helper : HybridHelper) (config : HybridSearchConfig) (fullLength semanticLength : ℕ)
    (entries : List (Evidence χ)) : List ℚ :=
  if config.strategy = .reciprocalRank then
    helper.reciprocalRank
      (entries.map fun evidence ↦ (evidence.fullText?.map AdapterResult.rank).getD (fullLength + 1))
      (entries.map fun evidence ↦
        (evidence.semantic?.map AdapterResult.rank).getD (semanticLength + 1))
      config.bm25Weight config.semanticWeight
  else
    helper.calculateHybridScores
      (entries.map fun evidence ↦
        ((mergeCandidate evidence).bm25Score.map FloatScore.value).getD 0)
      (entries.map fun evidence ↦
        ((mergeCandidate evidence).semanticScore.map FloatScore.value).getD 0)
      config

/-- `max(0.0, min(1.0, score))`. -/
def boundedScore (score : ℚ) : ℚ := max 0 (min 1 score)

/-- A merged candidate with its score. -/
def scoredResult (helper : HybridHelper) (strategy : HybridStrategy) (item : AdapterResult χ)
    (fusedScore : ℚ) : AdapterResult χ :=
  { item with
    hybridScore := some (boundedScore fusedScore)
    searchMetadata := some (updateKeys (item.searchMetadata.getD [])
      [("fusion_strategy", .str (helper.strategyValue strategy)),
        ("fusion_score", .num fusedScore)]) }

/-- `(-hybrid_score, chunk_id)`. -/
def byChunkId (item : AdapterResult χ) : ℚᵒᵈ ×ₗ TextKey :=
  toLex (OrderDual.toDual (item.hybridScore.getD 0), ⟨item.chunkId⟩)

/-- `(-hybrid_score, rank)`. -/
def byRank (item : AdapterResult χ) : ℚᵒᵈ ×ₗ ℤ :=
  toLex (OrderDual.toDual (item.hybridScore.getD 0), item.rank)

/-- The first results, numbered from one. -/
def numbered (results : List (AdapterResult χ)) : List (AdapterResult χ) :=
  results.mapIdx fun index item ↦ { item with rank := index + 1 }

/-- `fuse_search_results`. -/
def fuseSearchResults (helper : HybridHelper) (fullTextCandidates semanticCandidates :
    List (AdapterResult χ)) (config : HybridSearchConfig) (limit : Option ℤ := none)
    (tieBreaker : String := "chunk_id") : Except FusionError (List (AdapterResult χ)) := do
  raiseIf (config.strategy ∉ [.weightedSum, .reciprocalRank, .combSum, .combMnz])
    .unsupportedStrategy
  raiseIf (tieBreaker ∉ ["chunk_id", "rank"]) (.unsupportedTieBreaker tieBreaker)
  raiseIf (limit.any fun count ↦ count < 0) .invalidLimit
  let fullText ← validateCandidates fullTextCandidates "full_text"
  let semantic ← validateCandidates semanticCandidates "semantic"
  let entries := (byId fullText semantic).map Prod.snd
  let merged := entries.map mergeCandidate
  let scores := fusedScores helper config fullText.length semantic.length entries
  let scored := List.zipWith (scoredResult helper config.strategy) merged scores
  let results := if tieBreaker = "chunk_id" then ranked byChunkId scored else ranked byRank scored
  return numbered ((limit.map fun count ↦ results.take count.toNat).getD results)

/-! ### The order of the results -/

/-- `search_metadata["fusion_score"]`. -/
def AdapterResult.fusionScore (result : AdapterResult χ) : ℚ :=
  match getKey (result.searchMetadata.getD []) "fusion_score" with
  | some (.num score) => score
  | _ => 0

/-- No result is behind one with a lower fusion score. -/
def InScoreOrder (ranking : List (AdapterResult χ)) : Prop :=
  ranking.Pairwise fun first second ↦ second.fusionScore ≤ first.fusionScore

/-- A candidate of a source that passes the checks. -/
structure IsCandidate (source : String) (candidate : AdapterResult χ) : Prop where
  chunkId : candidate.chunkId ≠ []
  rank : 0 ≤ candidate.rank
  score : ∃ value, candidate.sourceScore source = some (.finite value)

/-- What the two sources say about a chunk. -/
def evidenceOf (fullText semantic : List (AdapterResult χ)) (chunkId : Text) : Option (Evidence χ) :=
  match lookup AdapterResult.chunkId chunkId fullText,
    lookup AdapterResult.chunkId chunkId semantic with
  | some first, some second => some (.both first second)
  | some first, none => some (.fullText first)
  | none, some second => some (.semantic second)
  | none, none => none

/-- A ranking of the candidates of two sources.
- `nodup` and `mem`: every chunk that has a candidate is in it once;
- `scored`: its fusion score is the one that the helper gives for what the sources say about it;
- `bounded`: the bounded scores fall, and of equal ones the chunk ids rise;
- `faithful`: a higher fusion score is in front, unless both are beyond the same end of the unit
  interval. -/
structure RanksCandidates (helper : HybridHelper) (config : HybridSearchConfig)
    (fullText semantic ranking : List (AdapterResult χ)) : Prop where
  nodup : (ranking.map AdapterResult.chunkId).Nodup
  mem : ∀ chunkId, chunkId ∈ ranking.map AdapterResult.chunkId ↔
    chunkId ∈ fullText.map AdapterResult.chunkId ∨ chunkId ∈ semantic.map AdapterResult.chunkId
  scored : ∀ result ∈ ranking, ∃ evidence,
    evidenceOf fullText semantic result.chunkId = some evidence ∧
      fusedScores helper config fullText.length semantic.length [evidence] = [result.fusionScore]
  bounded : ranking.Pairwise fun first second ↦
    boundedScore second.fusionScore < boundedScore first.fusionScore ∨
      boundedScore first.fusionScore = boundedScore second.fusionScore ∧
        TextKey.mk first.chunkId < ⟨second.chunkId⟩
  faithful : ranking.Pairwise fun first second ↦ first.fusionScore < second.fusionScore →
    1 ≤ first.fusionScore ∨ second.fusionScore ≤ 0

theorem validateCandidates_eq_ok {source : String} {candidates : List (AdapterResult χ)}
    (hall : ∀ candidate ∈ candidates, IsCandidate source candidate) :
    validateCandidates candidates source = .ok candidates := by
  have hone : ∀ candidate ∈ candidates, validateCandidate source candidate = .ok () := by
    intro candidate hmem
    obtain ⟨hid, hrank, value, hscore⟩ := hall candidate hmem
    have hcompare : ¬candidate.rank < 0 := not_lt.mpr hrank
    simp [validateCandidate, raiseIf, bind, Except.bind, hid, hcompare, hscore]
  have hmapped : candidates.mapM (validateCandidate source) = .ok (candidates.map fun _ ↦ ()) :=
    mapM_eq_ok.mpr (List.forall₂_map_right_iff.mpr (List.forall₂_same.mpr hone))
  exact bind_eq_ok.mpr ⟨_, hmapped, rfl⟩

/-! ### The dict of the candidates -/

section Building

variable {ε : Type}

/-- Rows with distinct keys that are put into a dict, each combined with what is there. -/
theorem getKey_foldl_combine {key : AdapterResult χ → Text}
    {combine : AdapterResult χ → Option ε → ε} {rows : List (AdapterResult χ)}
    (hnodup : (rows.map key).Nodup) (entries : List (Text × ε)) (wanted : Text) :
    getKey (rows.foldl (fun entries row ↦ setKey entries (key row)
      (combine row (getKey entries (key row)))) entries) wanted =
        match lookup key wanted rows with
        | none => getKey entries wanted
        | some row => some (combine row (getKey entries wanted)) := by
  induction rows generalizing entries with
  | nil => rfl
  | cons row rest ih =>
    obtain ⟨hnew, hrest⟩ := List.nodup_cons.mp hnodup
    rw [List.foldl_cons, ih hrest]
    by_cases hkey : key row = wanted
    · have hnone : lookup key wanted rest = none :=
        lookup_eq_none.mpr fun other hother hsame ↦
          hnew (hkey.trans hsame.symm ▸ List.mem_map_of_mem hother)
      have hfirst : lookup key wanted (row :: rest) = some row := by
        simp [lookup, hkey]
      rw [hnone, hfirst, ← hkey, getKey_setKey_self]
    · have hother : lookup key wanted (row :: rest) = lookup key wanted rest := by
        simp [lookup, hkey]
      rw [hother, getKey_setKey_of_ne _ _ (Ne.symm hkey)]

theorem nodup_foldl_combine {key : AdapterResult χ → Text}
    {combine : AdapterResult χ → Option ε → ε} (rows : List (AdapterResult χ))
    {entries : List (Text × ε)} (hnodup : (entries.map Prod.fst).Nodup) :
    ((rows.foldl (fun entries row ↦ setKey entries (key row)
      (combine row (getKey entries (key row)))) entries).map Prod.fst).Nodup := by
  induction rows generalizing entries with
  | nil => exact hnodup
  | cons row rest ih => exact ih (nodup_setKey hnodup _ _)

end Building

section Entries

variable {fullText semantic : List (AdapterResult χ)}

theorem nodup_byId (fullText semantic : List (AdapterResult χ)) :
    ((byId fullText semantic).map Prod.fst).Nodup :=
  nodup_foldl_combine semantic (nodup_foldl_combine fullText List.nodup_nil)

/-- What the dict says about a chunk is what the sources say about it. -/
theorem getKey_byId (hfull : (fullText.map AdapterResult.chunkId).Nodup)
    (hsemantic : (semantic.map AdapterResult.chunkId).Nodup) (chunkId : Text) :
    getKey (byId fullText semantic) chunkId = evidenceOf fullText semantic chunkId := by
  rw [byId, getKey_foldl_combine hsemantic, getKey_foldl_combine hfull, evidenceOf]
  cases lookup AdapterResult.chunkId chunkId fullText <;>
    cases lookup AdapterResult.chunkId chunkId semantic <;> rfl

/-- The evidence of a chunk names it. -/
theorem chunkId_of_evidenceOf {chunkId : Text} {evidence : Evidence χ}
    (hevidence : evidenceOf fullText semantic chunkId = some evidence) :
    evidence.primary.chunkId = chunkId := by
  rw [evidenceOf] at hevidence
  split at hevidence
  next first second hfirst hsecond =>
    cases hevidence
    exact (mem_of_lookup hfirst).2
  next first hfirst hsecond =>
    cases hevidence
    exact (mem_of_lookup hfirst).2
  next second hfirst hsecond =>
    cases hevidence
    exact (mem_of_lookup hsecond).2
  next => cases hevidence

/-- A chunk has evidence when a source has a candidate for it. -/
theorem evidenceOf_ne_none_iff {chunkId : Text} : evidenceOf fullText semantic chunkId ≠ none ↔
    chunkId ∈ fullText.map AdapterResult.chunkId ∨
      chunkId ∈ semantic.map AdapterResult.chunkId := by
  have hlookup : ∀ rows : List (AdapterResult χ), chunkId ∈ rows.map AdapterResult.chunkId ↔
      lookup AdapterResult.chunkId chunkId rows ≠ none := by
    intro rows
    rw [Ne, lookup_eq_none, List.mem_map]
    push Not
    rfl
  rw [hlookup, hlookup, evidenceOf]
  cases lookup AdapterResult.chunkId chunkId fullText <;>
    cases lookup AdapterResult.chunkId chunkId semantic <;> simp

/-- The sources may be permuted. -/
theorem evidenceOf_perm {fullText' semantic' : List (AdapterResult χ)}
    (hfull : (fullText.map AdapterResult.chunkId).Nodup)
    (hsemantic : (semantic.map AdapterResult.chunkId).Nodup) (hfullPerm : fullText'.Perm fullText)
    (hsemanticPerm : semantic'.Perm semantic) (chunkId : Text) :
    evidenceOf fullText' semantic' chunkId = evidenceOf fullText semantic chunkId := by
  have hlookup : ∀ {rows rows' : List (AdapterResult χ)}, (rows.map AdapterResult.chunkId).Nodup →
      rows'.Perm rows → lookup AdapterResult.chunkId chunkId rows' =
        lookup AdapterResult.chunkId chunkId rows := by
    intro rows rows' hnodup hperm
    refine Option.ext fun row ↦ ?_
    rw [lookup_eq_some hnodup, lookup_eq_some ((hperm.map _).nodup_iff.mpr hnodup), hperm.mem_iff]
  rw [evidenceOf, evidenceOf, hlookup hfull hfullPerm, hlookup hsemantic hsemanticPerm]

end Entries

/-! ### Scores -/

/-- The helper scores every evidence on its own. -/
theorem exists_score {helper : HybridHelper} (hhelper : helper.PerCandidate)
    (config : HybridSearchConfig) (fullLength semanticLength : ℕ) :
    ∃ score : Evidence χ → ℚ, ∀ entries,
      fusedScores helper config fullLength semanticLength entries = entries.map score := by
  obtain ⟨byScore, hscores⟩ := hhelper.scores
  obtain ⟨byRanks, hranks⟩ := hhelper.ranks
  by_cases hstrategy : config.strategy = .reciprocalRank
  · refine ⟨fun evidence ↦ byRanks config.bm25Weight config.semanticWeight
      ((evidence.fullText?.map AdapterResult.rank).getD (fullLength + 1))
      ((evidence.semantic?.map AdapterResult.rank).getD (semanticLength + 1)), fun entries ↦ ?_⟩
    rw [fusedScores, if_pos hstrategy, hranks _ _ _ _ (by simp), List.zipWith_map,
      List.zipWith_self]
  · refine ⟨fun evidence ↦ byScore config
      (((mergeCandidate evidence).bm25Score.map FloatScore.value).getD 0)
      (((mergeCandidate evidence).semanticScore.map FloatScore.value).getD 0), fun entries ↦ ?_⟩
    rw [fusedScores, if_neg hstrategy, hscores _ _ _ (by simp), List.zipWith_map,
      List.zipWith_self]

theorem fusionScore_scoredResult (helper : HybridHelper) (strategy : HybridStrategy)
    (item : AdapterResult χ) (score : ℚ) :
    (scoredResult helper strategy item score).fusionScore = score := by
  have hkey : getKey (updateKeys (item.searchMetadata.getD [])
      [("fusion_strategy", Json.str (helper.strategyValue strategy)), ("fusion_score", .num score)])
      "fusion_score" = some (.num score) :=
    getKey_setKey_self _ _ _
  rw [AdapterResult.fusionScore, scoredResult, Option.getD_some, hkey]

theorem boundedScore_mono {first second : ℚ} (hle : first ≤ second) :
    boundedScore first ≤ boundedScore second :=
  max_le_max le_rfl (min_le_min le_rfl hle)

/-- A higher score is lost to the bounds only beyond one of their ends. -/
theorem outside_of_boundedScore_le {first second : ℚ} (hlt : first < second)
    (hbounded : boundedScore second ≤ boundedScore first) : 1 ≤ first ∨ second ≤ 0 := by
  by_contra hinside
  push Not at hinside
  obtain ⟨hone, hzero⟩ := hinside
  refine absurd hbounded (not_le.mpr ?_)
  rw [boundedScore, boundedScore, min_eq_right hone.le]
  refine max_lt_iff.mpr ⟨?_, ?_⟩
  · exact lt_max_of_lt_right (lt_min zero_lt_one hzero)
  · exact lt_max_of_lt_right (lt_min hone hlt)

/-! ### Numbering -/

/-- What the numbers do not change. -/
theorem map_numbered {β : Type} {read : AdapterResult χ → β}
    (hread : ∀ item rank, read { item with rank } = read item) (results : List (AdapterResult χ)) :
    (numbered results).map read = results.map read := by
  refine List.ext_getElem? fun index ↦ ?_
  rw [numbered, List.getElem?_map, List.getElem?_map, List.getElem?_mapIdx, Option.map_map]
  exact congrFun (congrArg Option.map (funext fun item ↦ hread item _)) _

theorem numbered_take (results : List (AdapterResult χ)) (count : ℕ) :
    numbered (results.take count) = (numbered results).take count := by
  refine List.ext_getElem? fun index ↦ ?_
  rw [numbered, numbered, List.getElem?_mapIdx, List.getElem?_take, List.getElem?_take,
    List.getElem?_mapIdx]
  split <;> rfl

/-! ### The ranking -/

section Ranking

variable {helper : HybridHelper} {fullText semantic : List (AdapterResult χ)}
  {config : HybridSearchConfig}

/-- The result for an entry of the dict. -/
def resultOf (helper : HybridHelper) (strategy : HybridStrategy) (score : Evidence χ → ℚ)
    (entry : Text × Evidence χ) : AdapterResult χ :=
  scoredResult helper strategy (mergeCandidate entry.2) (score entry.2)

/-- The unlimited ranking by score and chunk id. -/
def fusionRanking (helper : HybridHelper) (strategy : HybridStrategy) (score : Evidence χ → ℚ)
    (fullText semantic : List (AdapterResult χ)) : List (AdapterResult χ) :=
  numbered (ranked byChunkId ((byId fullText semantic).map (resultOf helper strategy score)))

theorem fuseSearchResults_eq_ok (hfull : ∀ candidate ∈ fullText, IsCandidate "full_text" candidate)
    (hsemantic : ∀ candidate ∈ semantic, IsCandidate "semantic" candidate)
    (hstrategy : config.strategy ∈
      ([.weightedSum, .reciprocalRank, .combSum, .combMnz] : List HybridStrategy))
    {score : Evidence χ → ℚ} (hscore : ∀ entries,
      fusedScores helper config fullText.length semantic.length entries = entries.map score)
    (limit : Option ℕ) :
    fuseSearchResults helper fullText semantic config (limit.map Nat.cast) = .ok
      ((limit.map fun count ↦
        (fusionRanking helper config.strategy score fullText semantic).take count).getD
          (fusionRanking helper config.strategy score fullText semantic)) := by
  have hresults : List.zipWith (scoredResult helper config.strategy)
      (((byId fullText semantic).map Prod.snd).map mergeCandidate)
      (((byId fullText semantic).map Prod.snd).map score) =
        (byId fullText semantic).map (resultOf helper config.strategy score) := by
    rw [List.map_map, List.map_map, List.zipWith_map, List.zipWith_self]
    rfl
  have hlimit : ((limit.map (Nat.cast : ℕ → ℤ)).any fun count ↦ decide (count < 0)) = false := by
    cases limit <;> simp
  rw [fuseSearchResults, raiseIf_bind_eq_ok]
  refine ⟨decide_eq_false (not_not.mpr hstrategy), ?_⟩
  rw [raiseIf_bind_eq_ok]
  refine ⟨by simp, ?_⟩
  rw [raiseIf_bind_eq_ok]
  refine ⟨hlimit, bind_eq_ok.mpr ⟨fullText, validateCandidates_eq_ok hfull,
    bind_eq_ok.mpr ⟨semantic, validateCandidates_eq_ok hsemantic, ?_⟩⟩⟩
  dsimp only
  rw [hscore, hresults, if_pos rfl]
  cases limit with
  | none => rfl
  | some count => exact congrArg Except.ok (numbered_take _ count)

/-- The ids of the results are those of the dict. -/
theorem chunkId_resultOf (hfull : (fullText.map AdapterResult.chunkId).Nodup)
    (hsemantic : (semantic.map AdapterResult.chunkId).Nodup) (strategy : HybridStrategy)
    (score : Evidence χ → ℚ) {entry : Text × Evidence χ} (hentry : entry ∈ byId fullText semantic) :
    (resultOf helper strategy score entry).chunkId = entry.1 ∧
      evidenceOf fullText semantic entry.1 = some entry.2 := by
  have hevidence : evidenceOf fullText semantic entry.1 = some entry.2 := by
    rw [← getKey_byId hfull hsemantic]
    exact (getKey_eq_some (nodup_byId _ _)).mpr hentry
  exact ⟨chunkId_of_evidenceOf hevidence, hevidence⟩

theorem map_chunkId_resultOf (hfull : (fullText.map AdapterResult.chunkId).Nodup)
    (hsemantic : (semantic.map AdapterResult.chunkId).Nodup) (strategy : HybridStrategy)
    (score : Evidence χ → ℚ) :
    ((byId fullText semantic).map (resultOf helper strategy score)).map AdapterResult.chunkId =
      (byId fullText semantic).map Prod.fst := by
  rw [List.map_map]
  exact List.map_congr_left fun entry hentry ↦
    (chunkId_resultOf hfull hsemantic strategy score hentry).1

/-- The results have distinct places. -/
theorem nodup_byChunkId (hfull : (fullText.map AdapterResult.chunkId).Nodup)
    (hsemantic : (semantic.map AdapterResult.chunkId).Nodup) (strategy : HybridStrategy)
    (score : Evidence χ → ℚ) :
    (((byId fullText semantic).map (resultOf helper strategy score)).map byChunkId).Nodup := by
  have hids : (((byId fullText semantic).map (resultOf helper strategy score)).map
      AdapterResult.chunkId).Nodup := by
    rw [map_chunkId_resultOf hfull hsemantic]
    exact nodup_byId _ _
  refine List.pairwise_map.mpr ((List.pairwise_map.mp hids).imp fun hne heq ↦ hne ?_)
  exact congrArg TextKey.text (Prod.mk.inj (toLex_inj.mp heq)).2

/-- **The ranking of the fusion.** -/
theorem ranksCandidates_fusionRanking (hfull : (fullText.map AdapterResult.chunkId).Nodup)
    (hsemantic : (semantic.map AdapterResult.chunkId).Nodup) {score : Evidence χ → ℚ}
    (hscore : ∀ entries,
      fusedScores helper config fullText.length semantic.length entries = entries.map score) :
    RanksCandidates helper config fullText semantic
      (fusionRanking helper config.strategy score fullText semantic) := by
  let results := (byId fullText semantic).map (resultOf helper config.strategy score)
  have hids : (fusionRanking helper config.strategy score fullText semantic).map
      AdapterResult.chunkId = (ranked byChunkId results).map AdapterResult.chunkId :=
    map_numbered (fun _ _ ↦ rfl) _
  have hperm : ((ranked byChunkId results).map AdapterResult.chunkId).Perm
      ((byId fullText semantic).map Prod.fst) := by
    rw [← map_chunkId_resultOf hfull hsemantic config.strategy score]
    exact (perm_ranked byChunkId results).map _
  have hpairs : (fusionRanking helper config.strategy score fullText semantic).map
      (fun result ↦ (result.chunkId, result.fusionScore)) =
        (ranked byChunkId results).map fun result ↦ (result.chunkId, result.fusionScore) :=
    map_numbered (fun _ _ ↦ rfl) _
  have hhybrid : ∀ result ∈ ranked byChunkId results,
      result.hybridScore = some (boundedScore result.fusionScore) := by
    intro result hresult
    obtain ⟨entry, -, rfl⟩ := List.mem_map.mp (mem_ranked.mp hresult)
    rw [resultOf, fusionScore_scoredResult]
    rfl
  have hbounded : (ranked byChunkId results).Pairwise fun first second ↦
      boundedScore second.fusionScore < boundedScore first.fusionScore ∨
        boundedScore first.fusionScore = boundedScore second.fusionScore ∧
          TextKey.mk first.chunkId < ⟨second.chunkId⟩ := by
    refine (pairwise_lt_ranked (nodup_byChunkId hfull hsemantic _ score)).imp_of_mem
      fun {first second} hfirst hsecond hlt ↦ ?_
    rw [byChunkId, byChunkId, hhybrid first hfirst, hhybrid second hsecond,
      Prod.Lex.toLex_lt_toLex] at hlt
    exact hlt.imp id fun ⟨heq, hids⟩ ↦ ⟨OrderDual.toDual_inj.mp heq, hids⟩
  have hall : ((fusionRanking helper config.strategy score fullText semantic).map
      fun result ↦ (result.chunkId, result.fusionScore)).Pairwise fun first second ↦
        boundedScore second.2 < boundedScore first.2 ∨
          boundedScore first.2 = boundedScore second.2 ∧ TextKey.mk first.1 < ⟨second.1⟩ := by
    rw [hpairs]
    exact List.pairwise_map.mpr hbounded
  have hsorted := List.pairwise_map.mp hall
  refine ⟨?_, fun chunkId ↦ ?_, fun result hresult ↦ ?_, hsorted, hsorted.imp ?_⟩
  · rw [hids, hperm.nodup_iff]
    exact nodup_byId _ _
  · rw [hids, hperm.mem_iff, ← evidenceOf_ne_none_iff, ← getKey_byId hfull hsemantic, Ne,
      getKey_eq_none]
    simp
  · have hpair : (result.chunkId, result.fusionScore) ∈
        (ranked byChunkId results).map fun result ↦ (result.chunkId, result.fusionScore) :=
      hpairs ▸ List.mem_map_of_mem hresult
    obtain ⟨other, hother, hsame⟩ := List.mem_map.mp hpair
    obtain ⟨entry, hentry, rfl⟩ := List.mem_map.mp (mem_ranked.mp hother)
    obtain ⟨hchunk, hfusion⟩ := Prod.mk.inj hsame
    obtain ⟨hown, hevidence⟩ := chunkId_resultOf hfull hsemantic config.strategy score hentry
    refine ⟨entry.2, by rw [← hchunk, hown, hevidence], ?_⟩
    rw [hscore, ← hfusion, resultOf, fusionScore_scoredResult]
    rfl
  · intro first second horder hlt
    refine outside_of_boundedScore_le hlt ?_
    rcases horder with hlower | ⟨heq, -⟩
    · exact hlower.le
    · exact heq.ge

/-- The ranking does not depend on the order of the candidates. -/
theorem fusionRanking_perm {fullText' semantic' : List (AdapterResult χ)}
    (hfull : (fullText.map AdapterResult.chunkId).Nodup)
    (hsemantic : (semantic.map AdapterResult.chunkId).Nodup) (hfullPerm : fullText'.Perm fullText)
    (hsemanticPerm : semantic'.Perm semantic) (strategy : HybridStrategy)
    (score : Evidence χ → ℚ) :
    fusionRanking helper strategy score fullText' semantic' =
      fusionRanking helper strategy score fullText semantic := by
  have hfull' := (hfullPerm.map AdapterResult.chunkId).nodup_iff.mpr hfull
  have hsemantic' := (hsemanticPerm.map AdapterResult.chunkId).nodup_iff.mpr hsemantic
  have hentries : (byId fullText semantic).Perm (byId fullText' semantic') := by
    refine (List.perm_ext_iff_of_nodup (nodup_byId _ _).of_map (nodup_byId _ _).of_map).mpr
      fun entry ↦ ?_
    rw [← getKey_eq_some (nodup_byId _ _), ← getKey_eq_some (nodup_byId _ _),
      getKey_byId hfull hsemantic, getKey_byId hfull' hsemantic',
      evidenceOf_perm hfull hsemantic hfullPerm hsemanticPerm]
  exact (congrArg numbered (ranked_eq_of_perm (nodup_byChunkId hfull hsemantic strategy score)
    (hentries.map _))).symm

end Ranking

/-- **Fusion ranks by the bounded scores.** For every helper that scores candidate by candidate, every
supported strategy and every two lists of candidates with distinct ids: there is a ranking, in which
every chunk of the lists is once; a result with a higher bounded score is in front, and so is one with
a higher fusion score unless both lie beyond the same end of the unit interval; permuted lists have
the same ranking, and with a limit its first results are returned. -/
theorem fuseSearchResults_ranks {helper : HybridHelper} (hhelper : helper.PerCandidate)
    {fullText semantic : List (AdapterResult χ)} {config : HybridSearchConfig}
    (hfullValid : ∀ candidate ∈ fullText, IsCandidate "full_text" candidate)
    (hsemanticValid : ∀ candidate ∈ semantic, IsCandidate "semantic" candidate)
    (hfull : (fullText.map AdapterResult.chunkId).Nodup)
    (hsemantic : (semantic.map AdapterResult.chunkId).Nodup)
    (hstrategy : config.strategy ∈
      ([.weightedSum, .reciprocalRank, .combSum, .combMnz] : List HybridStrategy)) :
    ∃ ranking, fuseSearchResults helper fullText semantic config = .ok ranking ∧
      RanksCandidates helper config fullText semantic ranking ∧
      (∀ fullText' semantic', fullText'.Perm fullText → semantic'.Perm semantic →
        fuseSearchResults helper fullText' semantic' config = .ok ranking) ∧
      ∀ count : ℕ, fuseSearchResults helper fullText semantic config (some count) =
        .ok (ranking.take count) := by
  obtain ⟨score, hscore⟩ : ∃ score : Evidence χ → ℚ, ∀ entries,
      fusedScores helper config fullText.length semantic.length entries = entries.map score :=
    exists_score hhelper config fullText.length semantic.length
  refine ⟨fusionRanking helper config.strategy score fullText semantic,
    fuseSearchResults_eq_ok hfullValid hsemanticValid hstrategy hscore none,
    ranksCandidates_fusionRanking hfull hsemantic hscore,
    fun fullText' semantic' hfullPerm hsemanticPerm ↦ ?_,
    fun count ↦ fuseSearchResults_eq_ok hfullValid hsemanticValid hstrategy hscore (some count)⟩
  rw [← fusionRanking_perm hfull hsemantic hfullPerm hsemanticPerm]
  refine fuseSearchResults_eq_ok
    (fun candidate hmem ↦ hfullValid candidate (hfullPerm.mem_iff.mp hmem))
    (fun candidate hmem ↦ hsemanticValid candidate (hsemanticPerm.mem_iff.mp hmem)) hstrategy ?_ none
  rwa [hfullPerm.length_eq, hsemanticPerm.length_eq]

/-! ### Two results beyond the upper end -/

/-- The sum of the weighted reciprocal ranks. -/
def reciprocalRanks (bm25Weight semanticWeight : ℚ) (full semantic : ℤ) : ℚ :=
  bm25Weight / (60 + (full : ℚ)) + semanticWeight / (60 + (semantic : ℚ))

/-- A helper that adds the scores of a candidate, or its reciprocal ranks. -/
def addingHelper : HybridHelper where
  calculateHybridScores bm25 semantic _ := List.zipWith (· + ·) bm25 semantic
  reciprocalRank full semantic bm25Weight semanticWeight :=
    List.zipWith (reciprocalRanks bm25Weight semanticWeight) full semantic
  strategyValue _ := lit "comb_sum"

/-- The configuration of the sums. -/
def combSumConfig : HybridSearchConfig where
  strategy := .combSum
  bm25Weight := 1
  semanticWeight := 1
  normalizeScores := false

/-- A candidate of the full text search. -/
def fullTextCandidate (chunkId : Text) (score : ℚ) : AdapterResult Unit :=
  { chunkId, chunk := (), bm25Score := some (.finite score) }

/-- A candidate of the semantic search. -/
def semanticCandidate (chunkId : Text) (score : ℚ) : AdapterResult Unit :=
  { chunkId, chunk := (), semanticScore := some (.finite score) }

/-- The candidates of two chunks, both with scores that add up to more than one. -/
def fullTextPair : List (AdapterResult Unit) :=
  [fullTextCandidate (lit "b") (9 / 10), fullTextCandidate (lit "a") (7 / 10)]

/-- What the semantic search found for them. -/
def semanticPair : List (AdapterResult Unit) :=
  [semanticCandidate (lit "b") (9 / 10), semanticCandidate (lit "a") (6 / 10)]

/-- Their ranking. -/
def pairRanking : List (AdapterResult Unit) :=
  (toOption (fuseSearchResults addingHelper fullTextPair semanticPair combSumConfig)).getD []

/-- The ranking of the two chunks. -/
theorem fuseSearchResults_ranks_pair :
    ∃ ranking, fuseSearchResults addingHelper fullTextPair semanticPair combSumConfig =
        .ok ranking ∧
      RanksCandidates addingHelper combSumConfig fullTextPair semanticPair ranking ∧
      (∀ fullText' semantic', fullText'.Perm fullTextPair → semantic'.Perm semanticPair →
        fuseSearchResults addingHelper fullText' semantic' combSumConfig = .ok ranking) ∧
      ∀ count : ℕ, fuseSearchResults addingHelper fullTextPair semanticPair combSumConfig
        (some count) = .ok (ranking.take count) := by
  have hfull : ∀ candidate ∈ fullTextPair, IsCandidate "full_text" candidate :=
    List.forall_mem_cons.mpr ⟨⟨by decide, le_rfl, _, rfl⟩,
      List.forall_mem_singleton.mpr ⟨by decide, le_rfl, _, rfl⟩⟩
  have hsemantic : ∀ candidate ∈ semanticPair, IsCandidate "semantic" candidate :=
    List.forall_mem_cons.mpr ⟨⟨by decide, le_rfl, _, rfl⟩,
      List.forall_mem_singleton.mpr ⟨by decide, le_rfl, _, rfl⟩⟩
  exact fuseSearchResults_ranks ⟨⟨fun _ ↦ (· + ·), fun _ _ _ _ ↦ rfl⟩,
    ⟨reciprocalRanks, fun _ _ _ _ _ ↦ rfl⟩⟩
    hfull hsemantic (by decide) (by decide) (by decide)

/-- The chunk with the lower score is in front: both scores are bounded to one. -/
theorem not_inScoreOrder_combSum :
    fuseSearchResults addingHelper fullTextPair semanticPair combSumConfig = .ok pairRanking ∧
      pairRanking.map (fun result ↦ (result.chunkId, result.fusionScore)) =
        [(lit "a", 13 / 10), (lit "b", 9 / 5)] ∧
      ¬InScoreOrder pairRanking := by
  have hranking : pairRanking.map (fun result ↦ (result.chunkId, result.fusionScore)) =
      [(lit "a", 13 / 10), (lit "b", 9 / 5)] := by
    decide +kernel
  refine ⟨eq_ok_of_succeeds (by decide +kernel), hranking, fun horder ↦ ?_⟩
  have hscores : (pairRanking.map fun result ↦ (result.chunkId, result.fusionScore)).Pairwise
      fun first second ↦ second.2 ≤ first.2 :=
    List.pairwise_map.mpr horder
  rw [hranking] at hscores
  have hle := List.rel_of_pairwise_cons hscores List.mem_cons_self
  exact absurd hle (by decide +kernel)

end DocStore
