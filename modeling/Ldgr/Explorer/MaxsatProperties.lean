import Ldgr.Explorer.Maxsat

/-! What the solver returns is a hitting set, and no hitting set weighs less. -/

namespace Ldgr.Explorer

open Base Format List HazardEncoding SearchState

def Hits (clauses : List (List EntryHash)) (cut : Finset EntryHash) : Prop :=
  ∀ clause ∈ clauses, ∃ literal ∈ clause, literal ∈ cut

/-- A literal no soft clause mentions weighs one. -/
def Weights.weight (weights : Weights) (literal : EntryHash) : Nat :=
  ((weights.lookup literal).getD 1).toNat

def Weights.cost (weights : Weights) (cut : Finset EntryHash) : Nat :=
  ∑ literal ∈ cut, weights.weight literal

variable {weights : Weights} {hard : List (List EntryHash)}

variable {literal : EntryHash} {encoding : HazardEncoding}

theorem cost_insert {cut : Finset EntryHash} (new : literal ∉ cut) :
    weights.cost (insert literal cut) = weights.cost cut + weights.weight literal := by
  rw [Weights.cost, Finset.sum_insert new, Nat.add_comm]
  rfl

theorem cost_le_of_subset {smaller larger : Finset EntryHash} (inside : smaller ⊆ larger) :
    weights.cost smaller ≤ weights.cost larger :=
  Finset.sum_le_sum_of_subset inside

/-! ## Search -/

namespace SearchState

/-- Unless no cut is known yet, the best one hits every clause and its cost is the one noted. -/
def Sound (weights : Weights) (hard : List (List EntryHash)) (state : SearchState) : Prop :=
  state.bestCost = wordMax ∨ Hits hard state.bestCut ∧ state.bestCost.toNat = weights.cost state.bestCut

/-- What a part of the search that starts from `cur` and looks at `others` has achieved. -/
structure Improves (weights : Weights) (hard : List (List EntryHash))
    (others : Finset EntryHash → Prop) (before after : SearchState) : Prop where
  sound : after.Sound weights hard
  lower : after.bestCost ≤ before.bestCost
  optimal : ∀ other, Hits hard other → others other → after.bestCost.toNat ≤ weights.cost other

def Within (cardinality : Option CardinalityBound) (cut : Finset EntryHash) : Prop :=
  ∀ bound ∈ cardinality, cut.card ≤ bound.maxTrue

/-- The search for cuts within a bound: what it replaces the best cut by is one of them. -/
structure Bounded (weights : Weights) (hard : List (List EntryHash))
    (cardinality : Option CardinalityBound) (others : Finset EntryHash → Prop)
    (before after : SearchState) : Prop extends
    Improves weights hard (fun other => Within cardinality other ∧ others other) before after where
  kept : (after.bestCut = before.bestCut ∧ after.bestCost = before.bestCost) ∨
    (Within cardinality after.bestCut ∧ after.bestCost < before.bestCost)

variable {cardinality : Option CardinalityBound}

theorem Within.of_subset {smaller larger : Finset EntryHash} (within : Within cardinality larger)
    (inside : smaller ⊆ larger) : Within cardinality smaller := fun bound given =>
  Nat.le_trans (Finset.card_le_card inside) (within bound given)

variable {before after : SearchState} {maxNodes : UInt64} {cur : Finset EntryHash}
  {curCost : UInt64} {clause : List EntryHash}

theorem Bounded.same {others : Finset EntryHash → Prop}
    (sound : after.Sound weights hard) (sameCut : after.bestCut = before.bestCut)
    (sameCost : after.bestCost = before.bestCost)
    (optimal : ∀ other, Hits hard other → Within cardinality other → others other →
      after.bestCost.toNat ≤ weights.cost other) :
    Bounded weights hard cardinality others before after where
  sound
  lower := sameCost ▸ UInt64.le_refl _
  optimal other hits allowed := optimal other hits allowed.1 allowed.2
  kept := .inl ⟨sameCut, sameCost⟩

theorem Bounded.trans {first second : Finset EntryHash → Prop} {before between after : SearchState}
    (earlier : Bounded weights hard cardinality first before between)
    (later : Bounded weights hard cardinality second between after) :
    Bounded weights hard cardinality (fun other => first other ∨ second other) before after where
  sound := later.sound
  lower := UInt64.le_trans later.lower earlier.lower
  optimal other hits allowed := by
    obtain ⟨within, covered | covered⟩ := allowed
    · exact Nat.le_trans (UInt64.le_iff_toNat_le.mp later.lower) (earlier.optimal other hits ⟨within, covered⟩)
    · exact later.optimal other hits ⟨within, covered⟩
  kept := by
    obtain ⟨sameCut, sameCost⟩ | ⟨within, cheaper⟩ := later.kept
    · rw [sameCut, sameCost]
      exact earlier.kept
    · exact .inr ⟨within, UInt64.lt_of_lt_of_le cheaper earlier.lower⟩

theorem Bounded.mono {others fewer : Finset EntryHash → Prop}
    (bounded : Bounded weights hard cardinality others before after)
    (covered : ∀ other, Hits hard other → fewer other → others other) :
    Bounded weights hard cardinality fewer before after where
  sound := bounded.sound
  lower := bounded.lower
  optimal other hits allowed :=
    bounded.optimal other hits ⟨allowed.1, covered other hits allowed.2⟩
  kept := bounded.kept

theorem enter_eq_ok {body : Action SearchState SolverError Unit}
    (done : enter cardinality maxNodes cur curCost body before = (.ok (), after)) :
    ∃ entered : SearchState, entered.bestCut = before.bestCut ∧ entered.bestCost = before.bestCost ∧
      ((entered.bestCost ≤ curCost ∨ ¬Within cardinality cur) ∧ after = entered ∨
        Within cardinality cur ∧ body entered = (.ok (), after)) := by
  simp only [enter, Action.modify_bind, Action.get_bind] at done
  refine ⟨{ before with nodesVisited := saturatingAdd before.nodesVisited 1 }, rfl, rfl, ?_⟩
  have exceeded : (cardinality.any fun bound => bound.maxTrue < cur.card) = true ↔ ¬Within cardinality cur := by
    cases cardinality <;> simp [Within]
  split_ifs at done with exhausted pruned bounded
  · cases done
  · cases done
    exact .inl ⟨.inl pruned, rfl⟩
  · cases done
    exact .inl ⟨.inr (exceeded.mp bounded), rfl⟩
  · exact .inr ⟨not_not.mp (mt exceeded.mpr bounded), done⟩

theorem enter_bounded {body : Action SearchState SolverError Unit} (cost : curCost.toNat = weights.cost cur)
    (bodyBounded : ∀ entered, entered.Sound weights hard → Within cardinality cur →
      body entered = (.ok (), after) → Bounded weights hard cardinality (cur ⊆ ·) entered after)
    (sound : before.Sound weights hard)
    (done : enter cardinality maxNodes cur curCost body before = (.ok (), after)) :
    Bounded weights hard cardinality (cur ⊆ ·) before after := by
  obtain ⟨entered, sameCut, sameCost, outcome⟩ := enter_eq_ok done
  have enteredSound : entered.Sound weights hard := by
    rw [Sound, sameCut, sameCost]
    exact sound
  obtain ⟨pruned | excluded, rfl⟩ | ⟨within, ran⟩ := outcome
  · refine .same enteredSound sameCut sameCost fun other _ _ inside => ?_
    calc after.bestCost.toNat ≤ curCost.toNat := UInt64.le_iff_toNat_le.mp pruned
      _ = weights.cost cur := cost
      _ ≤ weights.cost other := cost_le_of_subset inside
  · exact .same enteredSound sameCut sameCost fun other _ within inside =>
      absurd (within.of_subset inside) excluded
  · have start : Bounded weights hard cardinality (fun _ => False) before entered :=
      .same enteredSound sameCut sameCost fun _ _ _ none => none.elim
    exact (start.trans (bodyBounded entered enteredSound within ran)).mono fun _ _ inside => .inr inside

/-- Trying `choices` takes care of every cut with one of them, whether they are visited or pruned. -/
theorem branch_bounded {visit : Finset EntryHash → UInt64 → Action SearchState SolverError Unit}
    {choices : List (EntryHash × UInt64)} (cost : curCost.toNat = weights.cost cur)
    (weighed : ∀ choice ∈ choices, choice.2.toNat = weights.weight choice.1)
    (visitBounded : ∀ choice ∈ choices, choice.1 ∉ cur → ∀ nextCost : UInt64,
      nextCost.toNat = weights.cost (insert choice.1 cur) → ∀ before after : SearchState,
      before.Sound weights hard → visit (insert choice.1 cur) nextCost before = (.ok (), after) →
      Bounded weights hard cardinality (insert choice.1 cur ⊆ ·) before after)
    (sound : before.Sound weights hard)
    (done : branch visit cur curCost choices before = (.ok (), after)) :
    Bounded weights hard cardinality
      (fun other => cur ⊆ other ∧ ∃ choice ∈ choices, choice.1 ∈ other ∧ choice.1 ∉ cur)
      before after := by
  induction choices generalizing before with
  | nil =>
    cases done
    exact .same sound rfl rfl fun _ _ _ ⟨_, _, member, _⟩ => absurd member not_mem_nil
  | cons choice choices ih =>
    obtain ⟨literal, weight⟩ := choice
    have weighedRest : ∀ choice ∈ choices, choice.2.toNat = weights.weight choice.1 :=
      fun choice member => weighed choice (mem_cons_of_mem _ member)
    have weighedFirst : weight.toNat = weights.weight literal := weighed _ mem_cons_self
    have restBounded := fun choice member =>
      visitBounded choice (mem_cons_of_mem (literal, weight) member)
    simp only [branch, Action.get_bind] at done
    split_ifs at done with skipped
    · have first : Bounded weights hard cardinality
          (fun other => cur ⊆ other ∧ literal ∈ other ∧ literal ∉ cur) before before := by
        refine .same sound rfl rfl fun other _ _ ⟨inside, taken, new⟩ => ?_
        -- a literal that is not yet in the cut is only skipped for its cost
        have costly := UInt64.le_iff_toNat_le.mp (skipped.resolve_left new)
        rw [toNat_saturatingAdd, cost, weighedFirst] at costly
        have least : weights.cost cur + weights.weight literal ≤ weights.cost other := by
          rw [← cost_insert new]
          exact cost_le_of_subset (Finset.insert_subset taken inside)
        omega
      refine (first.trans (ih weighedRest restBounded sound done)).mono
        fun other _ ⟨inside, chosen, member, taken, new⟩ => ?_
      obtain rfl | later := mem_cons.mp member
      · exact .inl ⟨inside, taken, new⟩
      · exact .inr ⟨inside, chosen, later, taken, new⟩
    · obtain ⟨new, cheap⟩ := not_or.mp skipped
      obtain ⟨⟨⟩, between, visited, done⟩ := Action.bind_eq_ok.mp done
      have nextExact : (saturatingAdd curCost weight).toNat = weights.cost (insert literal cur) := by
        have below := mt UInt64.le_iff_toNat_le.mpr cheap
        have top := before.bestCost.toNat_lt
        rw [toNat_saturatingAdd] at below ⊢
        rw [cost_insert new, ← cost, ← weighedFirst]
        omega
      have first := visitBounded _ mem_cons_self new _ nextExact before between sound visited
      refine (first.trans (ih weighedRest restBounded first.sound done)).mono
        fun other _ ⟨inside, chosen, member, taken, newChosen⟩ => ?_
      obtain rfl | later := mem_cons.mp member
      · exact .inl (Finset.insert_subset taken inside)
      · exact .inr ⟨inside, chosen, later, taken, newChosen⟩

theorem record_bounded
    (cost : curCost.toNat = weights.cost cur) (within : Within cardinality cur) (hits : Hits hard cur)
    (sound : before.Sound weights hard) (done : record cur curCost before = (.ok (), after)) :
    Bounded weights hard cardinality (cur ⊆ ·) before after := by
  simp only [record, Action.modify_apply, Prod.mk.injEq, true_and] at done
  subst done
  split_ifs with better
  · exact { sound := .inr ⟨hits, cost⟩
            lower := UInt64.le_of_lt better
            optimal := fun other _ allowed => cost ▸ cost_le_of_subset allowed.2
            kept := .inr ⟨within, better⟩ }
  · refine .same sound rfl rfl fun other _ _ inside => ?_
    calc before.bestCost.toNat ≤ curCost.toNat := UInt64.le_iff_toNat_le.mp (UInt64.not_lt.mp better)
      _ = weights.cost cur := cost
      _ ≤ weights.cost other := cost_le_of_subset inside

theorem literals_weighed {choice : EntryHash × UInt64}
    (member : choice ∈ literals weights clause) : choice.2.toNat = weights.weight choice.1 := by
  rw [literals, mem_insertionSort] at member
  obtain ⟨literal, _, rfl⟩ := mem_map.mp member
  rfl

theorem mem_of_mem_literals {choice : EntryHash × UInt64}
    (member : choice ∈ literals weights clause) : choice.1 ∈ clause := by
  rw [literals, mem_insertionSort] at member
  obtain ⟨literal, inClause, rfl⟩ := mem_map.mp member
  exact inClause

theorem mem_literals {literal : EntryHash} (member : literal ∈ clause) :
    (literal, (weights.lookup literal).getD 1) ∈ literals weights clause := by
  rw [literals, mem_insertionSort]
  exact mem_map.mpr ⟨literal, member, rfl⟩

/-- Clauses before the current index are hit by `cur` already, so only `clauses` are looked at. -/
theorem explore_bounded {clauses : List (List EntryHash)} (listed : ∀ clause ∈ clauses, clause ∈ hard)
    (passed : ∀ clause ∈ hard, clause ∈ clauses ∨ ∃ literal ∈ clause, literal ∈ cur)
    (within : Within cardinality cur) (cost : curCost.toNat = weights.cost cur)
    (sound : before.Sound weights hard)
    (done : explore weights cardinality maxNodes clauses cur curCost before = (.ok (), after)) :
    Bounded weights hard cardinality (cur ⊆ ·) before after := by
  induction clauses generalizing cur curCost before after with
  | nil =>
    have hits : Hits hard cur := fun clause member =>
      (passed clause member).resolve_left not_mem_nil
    exact record_bounded cost within hits sound done
  | cons clause clauses ih =>
    have listedRest : ∀ clause ∈ clauses, clause ∈ hard :=
      fun clause member => listed clause (mem_cons_of_mem _ member)
    rw [explore] at done
    split_ifs at done with covered
    · refine ih listedRest (fun other member => ?_) within cost sound done
      obtain remaining | hit := passed other member
      · obtain rfl | later := mem_cons.mp remaining
        · exact .inr (by simpa using covered)
        · exact .inl later
      · exact .inr hit
    · have visitBounded : ∀ choice ∈ literals weights clause, choice.1 ∉ cur →
          ∀ nextCost : UInt64, nextCost.toNat = weights.cost (insert choice.1 cur) →
          ∀ before after : SearchState, before.Sound weights hard →
          enter cardinality maxNodes (insert choice.1 cur) nextCost
            (explore weights cardinality maxNodes clauses (insert choice.1 cur) nextCost) before =
              (.ok (), after) →
          Bounded weights hard cardinality (insert choice.1 cur ⊆ ·) before after := by
        intro choice member new nextCost nextExact before after sound entered
        refine enter_bounded nextExact (fun entered sound allowed ran => ?_) sound entered
        refine ih listedRest (fun other inHard => ?_) allowed nextExact sound ran
        obtain remaining | ⟨hit, inClause, present⟩ := passed other inHard
        · obtain rfl | later := mem_cons.mp remaining
          · exact .inr ⟨choice.1, mem_of_mem_literals member, Finset.mem_insert_self _ _⟩
          · exact .inl later
        · exact .inr ⟨hit, inClause, Finset.mem_insert_of_mem present⟩
      refine (branch_bounded cost (fun _ => literals_weighed) visitBounded sound done).mono
        fun other hits inside => ?_
      obtain ⟨literal, member, taken⟩ := hits clause (listed clause mem_cons_self)
      have new : literal ∉ cur := fun present => covered (by simpa using ⟨literal, member, present⟩)
      exact ⟨inside, _, mem_literals member, taken, new⟩

theorem dfs_bounded (sound : before.Sound weights hard)
    (done : dfs weights cardinality maxNodes hard ∅ 0 before = (.ok (), after)) :
    Bounded weights hard cardinality (fun _ => True) before after := by
  refine Bounded.mono (enter_bounded rfl (fun entered sound within ran => ?_) sound done)
    fun other _ _ => Finset.empty_subset other
  exact explore_bounded (fun _ member => member) (fun _ member => .inl member) within rfl sound ran

end SearchState

/-! ## Greedy incumbent -/

theorem mem_of_minBy {α : Type} {order : α → α → Ordering} {elements : List α} {least : α}
    (found : minBy order elements = some least) : least ∈ elements := by
  have kept (rest : List α) (first : α) :
      rest.foldl (fun least next => if order next least = .lt then next else least) first ∈ first :: rest := by
    induction rest generalizing first with
    | nil => exact mem_cons_self
    | cons next rest ih =>
      rw [foldl_cons]
      split_ifs with smaller
      · exact mem_cons_of_mem _ (ih next)
      · obtain same | later := mem_cons.mp (ih first)
        · exact mem_cons.mpr (.inl same)
        · exact mem_cons_of_mem _ (mem_cons_of_mem _ later)
  cases elements with
  | nil => cases found
  | cons first rest =>
    cases found
    exact kept rest first

theorem mem_of_mem_coverage {uncovered : List (List EntryHash)} {covering : EntryHash × Nat}
    (member : covering ∈ coverage uncovered) : ∃ clause ∈ uncovered, covering.1 ∈ clause := by
  obtain ⟨literal, listed, rfl⟩ := mem_map.mp member
  rw [mem_insertionSort, mem_dedup, mem_flatten] at listed
  exact listed

theorem weightOf_eq (positive : 1 ≤ weights.weight literal) :
    (weightOf weights literal).toNat = weights.weight literal := by
  rw [weightOf, UInt64.toNat_max]
  exact Nat.max_eq_left positive

/-- The greedy cut hits what was uncovered and, unless it is too large for a word, its cost is known. -/
theorem greedyFrom_spec {fuel : Nat} {uncovered : List (List EntryHash)}
    {chosen cut : Finset EntryHash} {cost total : UInt64}
    (positive : ∀ clause ∈ uncovered, ∀ literal ∈ clause, 1 ≤ weights.weight literal)
    (apart : ∀ clause ∈ uncovered, ∀ literal ∈ clause, literal ∉ chosen)
    (counted : cost.toNat = min (weights.cost chosen) (2 ^ 64 - 1))
    (found : greedyFrom weights fuel uncovered chosen cost = some (cut, total)) :
    chosen ⊆ cut ∧ Hits uncovered cut ∧ total.toNat = min (weights.cost cut) (2 ^ 64 - 1) := by
  induction fuel generalizing uncovered chosen cost with
  | zero =>
    cases uncovered with
    | nil =>
      cases found
      exact ⟨Finset.Subset.refl _, fun _ member => absurd member not_mem_nil, counted⟩
    | cons clause clauses => cases found
  | succ fuel ih =>
    cases uncovered with
    | nil =>
      cases found
      exact ⟨Finset.Subset.refl _, fun _ member => absurd member not_mem_nil, counted⟩
    | cons clause clauses =>
      rw [greedyFrom] at found
      cases picked : minBy (compareCoverage weights) (coverage (clause :: clauses)) with
      | none => rw [picked] at found; cases found
      | some covering =>
        obtain ⟨literal, count⟩ := covering
        rw [picked] at found
        obtain ⟨covered, inClauses, inCovered⟩ := mem_of_mem_coverage (mem_of_minBy picked)
        have new : literal ∉ chosen := apart covered inClauses literal inCovered
        have weight := weightOf_eq (positive covered inClauses literal inCovered)
        have kept {other : List EntryHash} (member : other ∈ (clause :: clauses).filter (literal ∉ ·)) :
            other ∈ clause :: clauses ∧ literal ∉ other := by
          simpa only [mem_filter, decide_eq_true_eq] using member
        obtain ⟨chosenKept, hits, totalExact⟩ := ih (fun other member => positive other (kept member).1)
          (fun other member candidate inOther => by
            rw [Finset.mem_insert, not_or]
            refine ⟨?_, apart other (kept member).1 candidate inOther⟩
            rintro rfl
            exact (kept member).2 inOther)
          (by
            rw [toNat_saturatingAdd, counted, weight, cost_insert new]
            omega)
          found
        obtain ⟨hitNow, extended⟩ := Finset.insert_subset_iff.mp chosenKept
        refine ⟨extended, fun other member => ?_, totalExact⟩
        by_cases hit : literal ∈ other
        · exact ⟨literal, hit, hitNow⟩
        · exact hits other (mem_filter.mpr ⟨member, by simpa using hit⟩)

theorem start_sound (positive : ∀ clause ∈ hard, ∀ literal ∈ clause, 1 ≤ weights.weight literal) :
    (start hard weights).Sound weights hard := by
  unfold start SearchState.Sound
  cases found : greedyIncumbent hard weights with
  | none => exact .inl rfl
  | some incumbent =>
    obtain ⟨cut, total⟩ := incumbent
    obtain ⟨_, hits, counted⟩ := greedyFrom_spec positive (fun _ _ _ _ => Finset.notMem_empty _) rfl found
    by_cases large : weights.cost cut < 2 ^ 64 - 1
    · exact .inr ⟨hits, counted.trans (Nat.min_eq_left (Nat.le_of_lt large))⟩
    · refine .inl (UInt64.toNat_inj.mp ?_)
      rw [toNat_wordMax]
      exact counted.trans (Nat.min_eq_right (Nat.not_lt.mp large))

/-! ## Lower bound -/

/-! ## Solve -/

theorem mem_hardSets {clause : List EntryHash} : clause ∈ encoding.hardSets ↔ clause ≠ [] ∧
      ∃ listed ∈ encoding.hard, listed.dedup.insertionSort (· ≤ ·) = clause := by
  rw [hardSets, mem_insertionSort, mem_filter, mem_map, and_comm]
  simp

theorem mem_hardSet {clause : List EntryHash} :
    literal ∈ clause.dedup.insertionSort (· ≤ ·) ↔ literal ∈ clause := by
  rw [mem_insertionSort, mem_dedup]

theorem hits_hardSets (nonempty : ∀ clause ∈ encoding.hard, clause ≠ [])
    (cut : Finset EntryHash) : Hits encoding.hardSets cut ↔ Hits encoding.hard cut := by
  constructor
  · intro hits clause member
    obtain ⟨literal, inClause⟩ := exists_mem_of_ne_nil clause (nonempty clause member)
    have filled : clause.dedup.insertionSort (· ≤ ·) ≠ [] :=
      ne_nil_of_mem (mem_hardSet.mpr inClause)
    obtain ⟨found, inSet, taken⟩ := hits _ (mem_hardSets.mpr ⟨filled, clause, member, rfl⟩)
    exact ⟨found, mem_hardSet.mp inSet, taken⟩
  · intro hits clause member
    obtain ⟨_, listed, inHard, rfl⟩ := mem_hardSets.mp member
    obtain ⟨literal, inClause, taken⟩ := hits listed inHard
    exact ⟨literal, mem_hardSet.mpr inClause, taken⟩

theorem sum_sort (cut : Finset EntryHash) : ((cut.sort (· ≤ ·)).map weights.weight).sum = weights.cost cut := by
  rw [← List.sum_toFinset _ (Finset.sort_nodup ..), Finset.sort_toFinset]
  rfl

theorem solveMaxsatBnbWithBudget_eq_ok {maxClauses : Nat}
    {maxCostUnits maxNodes : UInt64} {solution : MaxSatSolution} :
    solveMaxsatBnbWithBudget encoding maxClauses maxCostUnits maxNodes = .ok solution ↔
      (encoding.hard = [] ∧ solution = ⟨[], 0, ⟨lowerBoundMethod, 0⟩⟩) ∨
      (encoding.hard ≠ [] ∧ encoding.hard.length ≤ maxClauses ∧
        (encoding.weights.entries.map (·.2)).sum ≤ maxCostUnits ∧
        ∃ state, dfs encoding.weights encoding.cardinality maxNodes encoding.hardSets ∅ 0
            (start encoding.hardSets encoding.weights) = (.ok (), state) ∧
          state.bestCost ≠ wordMax ∧ solution = encoding.solution state) := by
  unfold solveMaxsatBnbWithBudget
  by_cases empty : encoding.hard = []
  · rw [if_pos (List.isEmpty_iff.mpr empty)]
    simp [empty, eq_comm]
  rw [if_neg (mt List.isEmpty_iff.mp empty)]
  by_cases many : maxClauses < encoding.hard.length
  · rw [if_pos many]
    simp [empty, Nat.not_le.mpr many]
  rw [if_neg many]
  by_cases costly : maxCostUnits < (encoding.weights.entries.map (·.2)).sum
  · rw [if_pos costly]
    simp [empty, UInt64.not_le.mpr costly]
  rw [if_neg costly]
  cases searched : dfs encoding.weights encoding.cardinality maxNodes encoding.hardSets ∅ 0
      (start encoding.hardSets encoding.weights) with
  | mk outcome state =>
    cases outcome with
    | error fault => simp [empty]
    | ok done =>
      by_cases failed : state.bestCost = wordMax
      · simp [empty, failed]
      · have priced : wordMax ≠ state.bestCost := Ne.symm failed
        simp [empty, priced, Nat.not_lt.mp many, UInt64.not_lt.mp costly, HazardEncoding.solution, eq_comm]

theorem positive_hardSets
    (positive : ∀ clause ∈ encoding.hard, ∀ literal ∈ clause, 1 ≤ encoding.weights.weight literal) :
    ∀ clause ∈ encoding.hardSets, ∀ literal ∈ clause, 1 ≤ encoding.weights.weight literal := by
  intro clause member literal inSet
  obtain ⟨_, listed, inHard, rfl⟩ := mem_hardSets.mp member
  exact positive listed inHard literal (mem_hardSet.mp inSet)

/-- A returned cut hits every hard clause, costs what is reported, and is as cheap as a cut can be;
the certificate does not exceed that cost. -/
theorem solveMaxsatBnbWithBudget_optimal {encoding : HazardEncoding} {maxClauses : Nat}
    {maxCostUnits maxNodes : UInt64} {solution : MaxSatSolution}
    (unbounded : encoding.cardinality = none)
    (nonempty : ∀ clause ∈ encoding.hard, clause ≠ [])
    (positive : ∀ clause ∈ encoding.hard, ∀ literal ∈ clause, 1 ≤ encoding.weights.weight literal)
    (solved : solveMaxsatBnbWithBudget encoding maxClauses maxCostUnits maxNodes = .ok solution) :
    Hits encoding.hard solution.cut.toFinset ∧
      solution.totalCost.toNat = (solution.cut.map encoding.weights.weight).sum ∧
      (∀ cut : Finset EntryHash, Hits encoding.hard cut →
        solution.totalCost.toNat ≤ encoding.weights.cost cut) ∧
      ∀ cut : Finset EntryHash, Hits encoding.hard cut →
        solution.lowerBoundProof.unsatCoreCost.toNat ≤ encoding.weights.cost cut := by
  obtain ⟨none, rfl⟩ | ⟨_, _, _, state, searched, known, rfl⟩ :=
    solveMaxsatBnbWithBudget_eq_ok.mp solved
  · refine ⟨fun clause member => ?_, rfl, fun _ _ => Nat.zero_le _, fun _ _ => Nat.zero_le _⟩
    rw [none] at member
    cases member
  · have search := dfs_bounded (start_sound (positive_hardSets positive)) searched
    obtain ⟨hits, cost⟩ := search.sound.resolve_left known
    have optimal : ∀ cut : Finset EntryHash, Hits encoding.hard cut →
        state.bestCost.toNat ≤ encoding.weights.cost cut := fun cut hitsAll =>
      search.optimal cut ((hits_hardSets nonempty cut).mpr hitsAll)
        ⟨fun _ bound => (nomatch unbounded ▸ bound), trivial⟩
    refine ⟨?_, ?_, optimal, fun cut hitsAll => ?_⟩
    · rw [solution, Finset.sort_toFinset]
      exact (hits_hardSets nonempty _).mp hits
    · rw [solution, sum_sort]
      exact cost
    · refine Nat.le_trans ?_ (optimal cut hitsAll)
      rw [solution, UInt64.toNat_min]
      exact Nat.min_le_right _ _

def triangle : HazardEncoding :=
  let literal (byte : UInt8) : EntryHash := ⟨⟨replicate 32 byte, length_replicate⟩⟩
  { hard := [[literal 1, literal 2], [literal 2, literal 3], [literal 3, literal 1]]
    soft := [([literal 1], 3), ([literal 2], 1), ([literal 3], 1)]
    cardinality := none }

theorem triangle_optimal : ∃ solution, solveMaxsatBnbWithBudget triangle 3 5 10 = .ok solution ∧
      solution.totalCost = 2 ∧
      ∀ cut : Finset EntryHash, Hits triangle.hard cut → 2 ≤ triangle.weights.cost cut := by
  have cost : (solveMaxsatBnbWithBudget triangle 3 5 10).toOption.map (·.totalCost) = some 2 := by
    decide +kernel
  cases solved : solveMaxsatBnbWithBudget triangle 3 5 10 with
  | error fault => rw [solved] at cost; cases cost
  | ok solution =>
    rw [solved] at cost
    have two : solution.totalCost = 2 := Option.some.inj cost
    obtain ⟨_, _, optimal, _⟩ := solveMaxsatBnbWithBudget_optimal rfl (by decide +kernel)
      (by decide +kernel) solved
    rw [two] at optimal
    exact ⟨solution, rfl, two, optimal⟩

end Ldgr.Explorer
