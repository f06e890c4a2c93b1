import Ldgr.Base.GreedyCover
import Ldgr.Explorer.MaxsatProperties

/-! The bound on the number of faults is kept by the search but not by the cut it starts from. -/

namespace Ldgr.Explorer

open Base Format SearchState List HazardEncoding

variable {weights : Weights} {hard : List (List EntryHash)}

def clauseSets (clauses : List (List EntryHash)) : Multiset (Finset EntryHash) :=
  Multiset.ofList (clauses.map List.toFinset)

/-! ## The warm start is the greedy rule -/

theorem minBy_least {α β : Type} [LinearOrder β] {order : α → α → Ordering} {rank : α → β}
    {elements : List α}
    (ranked : ∀ left ∈ elements, ∀ right ∈ elements, order left right = .lt ↔ rank left < rank right)
    {least : α} (found : minBy order elements = some least) :
    ∀ element ∈ elements, rank least ≤ rank element := by
  have kept (rest : List α) (first : α) (inside : ∀ element ∈ first :: rest, element ∈ elements) :
      ∀ element ∈ first :: rest, rank (rest.foldl
        (fun least next => if order next least = .lt then next else least) first) ≤ rank element := by
    induction rest generalizing first with
    | nil => exact forall_mem_singleton.mpr (le_refl _)
    | cons next rest ih =>
      rw [foldl_cons]
      have firstIn := inside first mem_cons_self
      have nextIn := inside next (mem_cons_of_mem _ mem_cons_self)
      have restIn := fun element (member : element ∈ rest) =>
        inside element (mem_cons_of_mem _ (mem_cons_of_mem _ member))
      split_ifs with smaller
      · have below := ih next (forall_mem_cons.mpr ⟨nextIn, restIn⟩)
        have less := (ranked next nextIn first firstIn).mp smaller
        exact forall_mem_cons.mpr ⟨le_trans (below next mem_cons_self) (le_of_lt less), below⟩
      · have below := ih first (forall_mem_cons.mpr ⟨firstIn, restIn⟩)
        have more := not_lt.mp (mt (ranked next nextIn first firstIn).mpr smaller)
        obtain ⟨least, others⟩ := forall_mem_cons.mp below
        exact forall_mem_cons.mpr ⟨least, forall_mem_cons.mpr ⟨le_trans least more, others⟩⟩
  cases elements with
  | nil => cases found
  | cons first rest =>
    cases found
    exact kept rest first fun _ member => member

theorem countP_clauseSets (clauses : List (List EntryHash)) (literal : EntryHash) :
    (clauseSets clauses).countP (literal ∈ ·) = clauses.countP (literal ∈ ·) := by
  rw [clauseSets, Multiset.coe_countP, countP_map]
  simp [Function.comp_def]

variable {clauses : List (List EntryHash)}

theorem mem_coverage {literal : EntryHash} : (∃ set ∈ clauseSets clauses, literal ∈ set) ↔
      (literal, clauses.countP (literal ∈ ·)) ∈ coverage clauses := by
  simp [clauseSets, coverage]

theorem compareCoverage_lt_iff (positive : ∀ clause ∈ clauses, ∀ literal ∈ clause, 1 ≤ weights.weight literal) :
    ∀ left ∈ coverage clauses, ∀ right ∈ coverage clauses, compareCoverage weights left right = .lt ↔
        coverRank weights.weight (clauseSets clauses) left.1 <
          coverRank weights.weight (clauseSets clauses) right.1 := by
  intro left leftIn right rightIn
  obtain ⟨leftLiteral, leftListed, rfl⟩ := mem_map.mp leftIn
  obtain ⟨rightLiteral, rightListed, rfl⟩ := mem_map.mp rightIn
  have weighed (literal : EntryHash) (listed : literal ∈ clauses.flatten.dedup.insertionSort (· ≤ ·)) :
      (weightOf weights literal).toNat = weights.weight literal := by
    rw [mem_insertionSort, mem_dedup, mem_flatten] at listed
    obtain ⟨clause, member, inClause⟩ := listed
    exact weightOf_eq (positive clause member literal inClause)
  simp only [compareCoverage, Ordering.then_eq_lt, Ordering.then_eq_eq, compare_lt_iff_lt,
    compare_eq_iff_eq, coverRank, Prod.Lex.toLex_lt_toLex, OrderDual.toDual_lt_toDual,
    OrderDual.toDual_inj, countP_clauseSets, ← weighed leftLiteral leftListed,
    ← weighed rightLiteral rightListed, UInt64.lt_iff_toNat_lt, ← UInt64.toNat_inj]
  grind

theorem picksCover_of_minBy (positive : ∀ clause ∈ clauses, ∀ literal ∈ clause, 1 ≤ weights.weight literal)
    {covering : EntryHash × Nat}
    (picked : minBy (compareCoverage weights) (coverage clauses) = some covering) :
    PicksCover weights.weight (clauseSets clauses) covering.1 := by
  have least := minBy_least (compareCoverage_lt_iff positive) picked
  refine ⟨?_, fun set member literal inSet => least _ (mem_coverage.mp ⟨set, member, inSet⟩)⟩
  obtain ⟨clause, member, inClause⟩ := mem_of_mem_coverage (mem_of_minBy picked)
  exact ⟨clause.toFinset, mem_map_of_mem member, mem_toFinset.mpr inClause⟩

theorem filter_clauseSets (clauses : List (List EntryHash)) (literal : EntryHash) :
    (clauseSets clauses).filter (literal ∉ ·) = clauseSets (clauses.filter (literal ∉ ·)) := by
  rw [clauseSets, clauseSets, Multiset.filter_coe, filter_map]
  simp [Function.comp_def]

theorem greedyFrom_greedyCover {fuel : Nat} {uncovered : List (List EntryHash)}
    {chosen cut : Finset EntryHash} {cost total : UInt64}
    (positive : ∀ clause ∈ uncovered, ∀ literal ∈ clause, 1 ≤ weights.weight literal)
    (found : greedyFrom weights fuel uncovered chosen cost = some (cut, total)) :
    ∃ cover, GreedyCover weights.weight (clauseSets uncovered) cover ∧ cut = chosen ∪ cover := by
  induction fuel generalizing uncovered chosen cost with
  | zero =>
    cases uncovered with
    | nil =>
      cases found
      exact ⟨∅, .done, (Finset.union_empty _).symm⟩
    | cons clause clauses => cases found
  | succ fuel ih =>
    cases uncovered with
    | nil =>
      cases found
      exact ⟨∅, .done, (Finset.union_empty _).symm⟩
    | cons clause clauses =>
      rw [greedyFrom] at found
      cases picked : minBy (compareCoverage weights) (coverage (clause :: clauses)) with
      | none => rw [picked] at found; cases found
      | some covering =>
        rw [picked] at found
        obtain ⟨cover, rest, rfl⟩ := ih (fun other member =>
          positive other (mem_of_mem_filter member)) found
        refine ⟨insert covering.1 cover, .pick (picksCover_of_minBy positive picked) ?_, ?_⟩
        · rw [filter_clauseSets]
          exact rest
        · rw [Finset.insert_union, Finset.union_insert]

/-- Every turn covers a clause, so the number of clauses is fuel enough. -/
theorem isSome_greedyFrom {fuel : Nat} {uncovered : List (List EntryHash)} (enough : uncovered.length ≤ fuel)
    (nonempty : ∀ clause ∈ uncovered, clause ≠ []) (chosen : Finset EntryHash) (cost : UInt64) :
    (greedyFrom weights fuel uncovered chosen cost).isSome := by
  induction fuel generalizing uncovered chosen cost with
  | zero =>
    rw [length_eq_zero_iff.mp (Nat.le_zero.mp enough)]
    rfl
  | succ fuel ih =>
    cases uncovered with
    | nil => rfl
    | cons clause clauses =>
      rw [greedyFrom]
      cases picked : minBy (compareCoverage weights) (coverage (clause :: clauses)) with
      | none =>
        obtain ⟨literal, inClause⟩ :=
          exists_mem_of_ne_nil clause (nonempty clause mem_cons_self)
        have listed : _ ∈ coverage (clause :: clauses) := mem_coverage.mp
          ⟨clause.toFinset, mem_map_of_mem mem_cons_self, mem_toFinset.mpr inClause⟩
        cases found : coverage (clause :: clauses) with
        | nil => exact absurd (found ▸ listed) not_mem_nil
        | cons first rest => rw [found] at picked; cases picked
      | some covering =>
        refine ih ?_ (fun other member => nonempty other (mem_of_mem_filter member)) _ _
        obtain ⟨covered, listed, hit⟩ := mem_of_mem_coverage (mem_of_minBy picked)
        have fewer : ((clause :: clauses).filter (covering.1 ∉ ·)).length < (clause :: clauses).length :=
          length_filter_lt_length_iff_exists.mpr ⟨covered, listed, by simpa using hit⟩
        exact Nat.le_of_lt_succ (Nat.lt_of_lt_of_le fewer enough)

/-! ## Enough nodes -/

namespace SearchState

variable {cardinality : Option CardinalityBound}

theorem enter_wordMax {cur : Finset EntryHash} {curCost : UInt64}
    {body : Action SearchState SolverError Unit} (ends : ∀ state, ∃ after, body state = (.ok (), after))
    (state : SearchState) :
    ∃ after, enter cardinality wordMax cur curCost body state = (.ok (), after) := by
  simp only [enter, Action.modify_bind, Action.get_bind]
  rw [if_neg (UInt64.not_lt.mpr (UInt64.le_iff_toNat_le.mpr ?_))]
  · split_ifs
    · exact ⟨_, rfl⟩
    · exact ⟨_, rfl⟩
    · exact ends _
  · rw [toNat_wordMax]
    exact Nat.le_sub_one_of_lt (UInt64.toNat_lt _)

theorem branch_wordMax {visit : Finset EntryHash → UInt64 → Action SearchState SolverError Unit}
    (ends : ∀ cur curCost state, ∃ after, visit cur curCost state = (.ok (), after))
    (cur : Finset EntryHash) (curCost : UInt64) (choices : List (EntryHash × UInt64))
    (state : SearchState) : ∃ after, branch visit cur curCost choices state = (.ok (), after) := by
  induction choices generalizing state with
  | nil => exact ⟨state, rfl⟩
  | cons choice choices ih =>
    obtain ⟨literal, weight⟩ := choice
    simp only [branch, Action.get_bind]
    split_ifs
    · exact ih state
    · obtain ⟨between, visited⟩ := ends (insert literal cur) (saturatingAdd curCost weight) state
      rw [Action.bind_of_ok visited]
      exact ih between

/-- The counter never passes its own maximum, so the search ends. -/
theorem explore_wordMax (clauses : List (List EntryHash)) (cur : Finset EntryHash) (curCost : UInt64)
    (state : SearchState) :
    ∃ after, explore weights cardinality wordMax clauses cur curCost state = (.ok (), after) := by
  induction clauses generalizing cur curCost state with
  | nil => exact ⟨_, rfl⟩
  | cons clause clauses ih =>
    rw [explore]
    split_ifs
    · exact ih cur curCost state
    · exact branch_wordMax (fun cur curCost => enter_wordMax (ih cur curCost)) cur curCost _ state

end SearchState

/-! ## The bound -/

/-- A cut within the bound that hits every clause at the least weight, and an error when there is none. -/
def RespectsBound (encoding : HazardEncoding) (bound : CardinalityBound)
    (result : Except SolverError MaxSatSolution) : Prop :=
  (∀ solution, result = .ok solution →
    solution.cut.length ≤ bound.maxTrue ∧ Hits encoding.hard solution.cut.toFinset ∧
    ∀ cut : Finset EntryHash, Hits encoding.hard cut → cut.card ≤ bound.maxTrue →
      (solution.cut.map encoding.weights.weight).sum ≤ encoding.weights.cost cut) ∧
  ((∀ cut : Finset EntryHash, Hits encoding.hard cut → bound.maxTrue < cut.card) →
    ∃ fault, result = .error fault)

theorem clauseSets_hardSets {encoding : HazardEncoding} (nonempty : ∀ clause ∈ encoding.hard, clause ≠ []) :
    clauseSets encoding.hardSets = clauseSets encoding.hard := by
  have kept : (encoding.hard.map fun clause => clause.dedup.insertionSort (· ≤ ·)).filter
      (!·.isEmpty) = encoding.hard.map fun clause => clause.dedup.insertionSort (· ≤ ·) := by
    refine filter_eq_self.mpr fun clause member => ?_
    obtain ⟨listed, inHard, rfl⟩ := mem_map.mp member
    obtain ⟨literal, inClause⟩ := exists_mem_of_ne_nil listed (nonempty listed inHard)
    simpa using ne_nil_of_mem (mem_hardSet.mpr inClause)
  rw [clauseSets, clauseSets, hardSets, kept, Multiset.coe_eq_coe]
  refine ((perm_insertionSort _ _).map _).trans (List.Perm.of_eq ?_)
  rw [map_map]
  refine map_congr_left fun clause _ => Finset.ext fun literal => ?_
  rw [Function.comp_apply, mem_toFinset, mem_toFinset, mem_hardSet]

theorem start_eq {encoding : HazardEncoding} (nonempty : ∀ clause ∈ encoding.hard, clause ≠ [])
    (positive : ∀ clause ∈ encoding.hardSets, ∀ literal ∈ clause, 1 ≤ encoding.weights.weight literal) :
    let start := start encoding.hardSets encoding.weights
    GreedyCover encoding.weights.weight (clauseSets encoding.hard) start.bestCut ∧
      start.bestCost.toNat = min (encoding.weights.cost start.bestCut) (2 ^ 64 - 1) := by
  have filled : ∀ clause ∈ encoding.hardSets, clause ≠ [] := fun clause member =>
    (mem_hardSets.mp member).1
  obtain ⟨⟨cut, total⟩, found⟩ := Option.isSome_iff_exists.mp
    (@isSome_greedyFrom encoding.weights _ _ (Nat.le_refl _) filled ∅ 0)
  have start : start encoding.hardSets encoding.weights =
      { bestCut := cut, bestCost := total, nodesVisited := 0 } := by
    rw [start, greedyIncumbent, found]
    rfl
  obtain ⟨cover, greedy, rfl⟩ := greedyFrom_greedyCover positive found
  obtain ⟨_, _, counted⟩ := greedyFrom_spec positive (fun _ _ _ _ => Finset.notMem_empty _) rfl found
  rw [Finset.empty_union] at start counted
  rw [start, ← clauseSets_hardSets nonempty]
  exact ⟨greedy, counted⟩

/-- Results respect the bound exactly where the greedy cut does, or is beaten by one that does. -/
theorem solveMaxsatBnbWithBudget_respectsBound_iff {encoding : HazardEncoding} {bound : CardinalityBound}
    (bounded : encoding.cardinality = some bound) (nonempty : ∀ clause ∈ encoding.hard, clause ≠ [])
    (positive : ∀ clause ∈ encoding.hard, ∀ literal ∈ clause, 1 ≤ encoding.weights.weight literal) :
    (∀ maxClauses maxCostUnits maxNodes, RespectsBound encoding bound
      (solveMaxsatBnbWithBudget encoding maxClauses maxCostUnits maxNodes)) ↔
      ∀ cover, GreedyCover encoding.weights.weight (clauseSets encoding.hard) cover →
        cover.card ≤ bound.maxTrue ∨ 2 ^ 64 - 1 ≤ encoding.weights.cost cover ∨
        ∃ cut, Hits encoding.hard cut ∧ cut.card ≤ bound.maxTrue ∧
          encoding.weights.cost cut < encoding.weights.cost cover := by
  have positiveSets := positive_hardSets positive
  have sound := start_sound positiveSets
  obtain ⟨startGreedy, startCost⟩ := start_eq nonempty positiveSets
  constructor
  · intro respects cover greedy
    by_contra beaten
    push Not at beaten
    obtain ⟨large, counted, cheapest⟩ := beaten
    have same := greedy.unique startGreedy
    rw [same] at large counted cheapest
    have some : encoding.hard ≠ [] := by
      intro none
      rw [none] at startGreedy
      rw [startGreedy.unique .done] at large
      exact Nat.not_lt_zero _ large
    obtain ⟨state, searched⟩ := enter_wordMax (explore_wordMax encoding.hardSets
      ∅ 0) (start encoding.hardSets encoding.weights)
    have search := dfs_bounded sound searched
    have known : state.bestCost.toNat < 2 ^ 64 - 1 := by
      have lower := UInt64.le_iff_toNat_le.mp search.lower
      omega
    have priced : state.bestCost ≠ wordMax := by
      intro unknown
      rw [unknown, toNat_wordMax] at known
      exact Nat.lt_irrefl _ known
    have affordable : (encoding.weights.entries.map (·.2)).sum ≤ wordMax := by
      rw [UInt64.le_iff_toNat_le, toNat_wordMax]
      exact Nat.le_sub_one_of_lt (UInt64.toNat_lt _)
    obtain ⟨small, hits, _⟩ := (respects encoding.hard.length wordMax wordMax).1 _
      (solveMaxsatBnbWithBudget_eq_ok.mpr
        (.inr ⟨some, Nat.le_refl _, affordable, state, searched, priced, rfl⟩))
    rw [solution, Finset.length_sort] at small
    rw [solution, Finset.sort_toFinset] at hits
    obtain ⟨sameCut, _⟩ | ⟨_, cheaper⟩ := search.kept
    · rw [sameCut] at small
      exact Nat.not_le_of_lt large small
    · have least := cheapest _ hits small
      have exactly := (search.sound.resolve_left priced).2
      have less := UInt64.lt_iff_toNat_lt.mp cheaper
      omega
  · intro good maxClauses maxCostUnits maxNodes
    refine (and_iff_left_of_imp fun respects none => ?_).mpr ?_
    · cases solved : solveMaxsatBnbWithBudget encoding maxClauses maxCostUnits maxNodes with
      | error fault => exact ⟨fault, rfl⟩
      | ok solution =>
        obtain ⟨small, hits, _⟩ := respects solution solved
        have large := Nat.lt_of_lt_of_le (none _ hits) (toFinset_card_le _)
        exact absurd small (Nat.not_le_of_lt large)
    · intro solution solved
      obtain ⟨none, rfl⟩ | ⟨_, _, _, state, searched, priced, rfl⟩ :=
        solveMaxsatBnbWithBudget_eq_ok.mp solved
      · refine ⟨Nat.zero_le _, fun clause member => ?_, fun _ _ _ => Nat.zero_le _⟩
        rw [none] at member
        cases member
      · have search := dfs_bounded sound searched
        obtain ⟨hits, cost⟩ := search.sound.resolve_left priced
        have least : ∀ cut : Finset EntryHash, Hits encoding.hard cut → cut.card ≤ bound.maxTrue →
            encoding.weights.cost state.bestCut ≤ encoding.weights.cost cut :=
          fun cut hitsAll small => by
            rw [← cost]
            refine search.optimal cut ((hits_hardSets nonempty cut).mpr hitsAll)
              ⟨fun other given => ?_, trivial⟩
            cases bounded.symm.trans given
            exact small
        rw [solution, Finset.length_sort, Finset.sort_toFinset, sum_sort]
        refine ⟨?_, (hits_hardSets nonempty _).mp hits, least⟩
        obtain ⟨sameCut, sameCost⟩ | ⟨within, _⟩ := search.kept
        · rw [sameCut] at cost least ⊢
          rw [sameCost] at cost priced
          obtain small | unknown | ⟨cut, hitsAll, small, cheaper⟩ := good _ startGreedy
          · exact small
          · refine absurd (UInt64.toNat_inj.mp ?_) priced
            rw [toNat_wordMax, startCost, Nat.min_eq_right unknown]
          · exact absurd (least cut hitsAll small) (Nat.not_le_of_lt cheaper)
        · exact within bound bounded

def boundedTriangle (maxTrue : Nat) : HazardEncoding :=
  { triangle with cardinality := some { literals := [], maxTrue } }

theorem boundedTriangle_respects : RespectsBound (boundedTriangle 2) { literals := [], maxTrue := 2 }
      (solveMaxsatBnbWithBudget (boundedTriangle 2) 3 5 10) := by
  have nonempty : ∀ clause ∈ (boundedTriangle 2).hard, clause ≠ [] := by decide +kernel
  have positive : ∀ clause ∈ (boundedTriangle 2).hard, ∀ literal ∈ clause,
      1 ≤ (boundedTriangle 2).weights.weight literal := by decide +kernel
  refine (solveMaxsatBnbWithBudget_respectsBound_iff rfl nonempty positive).mpr
    (fun cover greedy => .inl ?_) 3 5 10
  rw [greedy.unique (start_eq nonempty (positive_hardSets positive)).1]
  decide +kernel

/-- No single event hits all three clauses, yet a cut of two is returned. -/
theorem boundedTriangle_exceeds :
    (∃ solution, solveMaxsatBnbWithBudget (boundedTriangle 1) 3 5 10 = .ok solution ∧ solution.cut.length = 2) ∧
      ∀ cut : Finset EntryHash, Hits (boundedTriangle 1).hard cut → 1 < cut.card := by
  constructor
  · let search := dfs (boundedTriangle 1).weights (boundedTriangle 1).cardinality 10
      (boundedTriangle 1).hardSets ∅ 0
      (start (boundedTriangle 1).hardSets (boundedTriangle 1).weights)
    have found : search.1 = .ok () ∧ search.2.bestCost ≠ wordMax ∧ search.2.bestCut.card = 2 := by
      decide +kernel
    cases searched : search with
    | mk outcome state =>
      rw [searched] at found
      obtain ⟨rfl, priced, size⟩ := found
      refine ⟨(boundedTriangle 1).solution state, solveMaxsatBnbWithBudget_eq_ok.mpr (.inr
        ⟨nofun, by decide, by decide +kernel, state, searched, priced, rfl⟩), ?_⟩
      rw [solution, Finset.length_sort]
      exact size
  · intro cut hits
    have distinct : ∀ clause ∈ (boundedTriangle 1).hard, ∀ literal ∈ clause,
        ∃ other ∈ (boundedTriangle 1).hard, literal ∉ other := by decide +kernel
    obtain ⟨literal, inFirst, taken⟩ := hits _ mem_cons_self
    obtain ⟨other, listed, absent⟩ := distinct _ mem_cons_self literal inFirst
    obtain ⟨second, inOther, alsoTaken⟩ := hits other listed
    refine Finset.one_lt_card.mpr ⟨literal, taken, second, alsoTaken, ?_⟩
    rintro rfl
    exact absent inOther

end Ldgr.Explorer
