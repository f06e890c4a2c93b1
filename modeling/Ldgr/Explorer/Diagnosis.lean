import Ldgr.Journal.Causality

/-! The first divergence of two journals, in the order of actors and sequences. -/

namespace Ldgr.Explorer

open Base Format Journal History List Relation

def vcKey (entry : Entry) : ActorId ×ₗ UInt64 :=
  toLex (entry.data.actor, entry.data.sequence)

def entriesInVcOrder (journal : Journal) : List Entry :=
  journal.entries.insertionSort fun left right => vcKey left ≤ vcKey right

inductive Divergence where
  | identical
  | diverged (left right : Entry)
  | truncated (left right : Option Entry)

namespace Divergence

def left : Divergence → Option Entry
  | identical => none
  | diverged left _ => some left
  | truncated left _ => left

def right : Divergence → Option Entry
  | identical => none
  | diverged _ right => some right
  | truncated _ right => right

/-- The loop of `firstDivergence`. -/
def between : List Entry → List Entry → Divergence
  | [], [] => identical
  | left :: lefts, right :: rights => if left.id ≠ right.id then diverged left right else between lefts rights
  | extra :: _, [] => truncated (some extra) none
  | [], extra :: _ => truncated none (some extra)

end Divergence

def firstDivergence (left right : Journal) : Divergence :=
  .between (entriesInVcOrder left) (entriesInVcOrder right)

/-- An id names one entry on both sides. -/
def Addressed (lefts rights : List Entry) : Prop :=
  ∀ left ∈ lefts, ∀ right ∈ rights, left.id = right.id → left = right

/-- Journals of the same entries are identical, and what a reported entry observed is in the other
journal. -/
def ReportsFirst (left right : Journal) : Prop :=
  (firstDivergence left right = .identical ↔ ∀ entry, entry ∈ left.entries ↔ entry ∈ right.entries) ∧
    (∀ entry ∈ (firstDivergence left right).left, ∀ earlier, TransGen left.ParentLink earlier entry →
      earlier ∈ right.entries) ∧
    ∀ entry ∈ (firstDivergence left right).right, ∀ earlier, TransGen right.ParentLink earlier entry →
      earlier ∈ left.entries

/-- The entry observed no entry of a larger actor that the other journal lacks. -/
def LeadsCausally (journal other : Journal) (entry : Entry) : Prop :=
  ∀ earlier, TransGen journal.ParentLink earlier entry → entry.data.actor < earlier.data.actor →
    earlier ∈ other.entries

/-! ## The loop -/

section Loop

variable {lefts rights : List Entry}

theorem left_swap : (Divergence.between rights lefts).left = (Divergence.between lefts rights).right := by
  fun_induction Divergence.between lefts rights <;>
    simp_all [Divergence.between, Divergence.left, Divergence.right, eq_comm]

theorem Addressed.tail {left right : Entry} (addressed : Addressed (left :: lefts) (right :: rights)) :
    Addressed lefts rights :=
  fun first member second held => addressed first (mem_cons_of_mem _ member) second (mem_cons_of_mem _ held)

theorem between_eq_identical (addressed : Addressed lefts rights) :
    Divergence.between lefts rights = .identical ↔ lefts = rights := by
  fun_induction Divergence.between lefts rights with
  | case3 left lefts right rights same ih =>
    cases addressed left mem_cons_self right mem_cons_self (not_not.mp same)
    rw [cons_inj_right]
    exact ih addressed.tail
  | case2 left lefts right rights apart =>
    exact iff_of_false nofun fun same => apart (congrArg Entry.id (cons.inj same).1)
  | _ => simp

theorem left_between (addressed : Addressed lefts rights) {entry : Entry}
    (reported : (Divergence.between lefts rights).left = some entry) :
    ∃ common rest, lefts = common ++ entry :: rest ∧ common <+: rights := by
  fun_induction Divergence.between lefts rights with
  | case3 left lefts right rights same ih =>
    cases addressed left mem_cons_self right mem_cons_self (not_not.mp same)
    obtain ⟨common, rest, rfl, shared⟩ := ih addressed.tail reported
    exact ⟨left :: common, rest, rfl, (prefix_cons_inj left).mpr shared⟩
  | case1 | case5 => cases reported
  | case2 | case4 =>
    cases reported
    exact ⟨[], _, rfl, nil_prefix⟩

end Loop

/-! ## The order -/

section Order

variable {history : List Entry} (causal : Causal history) (numbered : Numbered history)
  {first second : Entry}
include causal numbered

theorem past_of_sequence_le (member : first ∈ history) (other : second ∈ history)
    (same : first.data.actor = second.data.actor) (below : first.data.sequence ≤ second.data.sequence) :
    causal.log.Past first second := by
  refine CausalLog.past_of_count_le member other ?_
  rw [← causal.stamps.eq_count member, ← causal.stamps.eq_count other]
  change (first.vectorClock.get first.data.actor).toNat ≤ (second.vectorClock.get first.data.actor).toNat
  rw [numbered.own first member, same, numbered.own second other]
  exact Nat.succ_le_succ (UInt64.le_iff_toNat_le.mp below)

theorem vcKey_lt (linked : TransGen (Parent history) first second)
    (smaller : ¬ second.data.actor < first.data.actor) : vcKey first < vcKey second := by
  refine Prod.Lex.toLex_lt_toLex.mpr ((lt_or_eq_of_le (not_lt.mp smaller)).imp_right fun same => ⟨same, ?_⟩)
  obtain ⟨between, past, link⟩ := TransGen.tail'_iff.mp linked
  by_contra less
  have began : causal.log.Past _ _ := past
  have back := past_of_sequence_le causal numbered link.2.1 (began.mem link.1) same.symm (not_lt.mp less)
  have step := causal.rank_lt link
  rcases CausalLog.Past.eq_or_rank_lt (ReflTransGen.trans back past) with rfl | cycle
  · exact lt_irrefl _ step
  · exact step.asymm cycle

theorem eq_of_vcKey (member : first ∈ history) (other : second ∈ history)
    (same : vcKey first = vcKey second) : first = second := by
  obtain ⟨actors, sequences⟩ := Prod.mk.inj (toLex.injective same)
  have past := past_of_sequence_le causal numbered member other actors sequences.le
  have back := past_of_sequence_le causal numbered other member actors.symm sequences.ge
  rcases past.eq_or_rank_lt with equal | less
  · exact equal
  · rcases back.eq_or_rank_lt with equal | more
    · exact equal.symm
    · exact absurd less more.asymm

end Order

section Journals

variable {blake3 : Bytes → EntryHash} {journal left right : Journal} {history others : List Entry}

theorem sorted_vcOrder (journal : Journal) :
    (entriesInVcOrder journal).Pairwise fun first second => vcKey first ≤ vcKey second :=
  pairwise_insertionSort _ _

theorem mem_vcOrder {entry : Entry} : entry ∈ entriesInVcOrder journal ↔ entry ∈ journal.entries :=
  mem_insertionSort _

variable (reachable : Reachable blake3 left history) (distinct : left.ids.Nodup)
include reachable distinct

theorem causal_of_nodup : left.entries = history ∧ Causal history ∧ Numbered history := by
  obtain ⟨grown, represents⟩ := reachable.grown
  exact ⟨represents.entries_of_nodup distinct,
    grown.causal (grown.collisionFree (represents.ids ▸ distinct)) reachable.length_lt⟩

theorem nodup_vcOrder : (entriesInVcOrder left).Nodup := by
  rw [entriesInVcOrder, (perm_insertionSort _ _).nodup_iff, (causal_of_nodup reachable distinct).1]
  exact (reachable.grown.2.ids ▸ distinct).of_map

theorem leads_iff (addressed : Addressed (entriesInVcOrder left) (entriesInVcOrder right)) {entry : Entry}
    (reported : (Divergence.between (entriesInVcOrder left) (entriesInVcOrder right)).left = some entry) :
    (∀ earlier, TransGen left.ParentLink earlier entry → earlier ∈ right.entries) ↔
      LeadsCausally left right entry := by
  refine ⟨fun present earlier linked _ => present earlier linked, fun leads earlier linked => ?_⟩
  by_cases larger : entry.data.actor < earlier.data.actor
  · exact leads earlier linked larger
  -- Any other ancestor comes before the entry, where the orders agree.
  obtain ⟨entries, causal, numbered⟩ := causal_of_nodup reachable distinct
  have links : left.ParentLink = Parent history := by
    funext parent entry
    simp only [ParentLink, Parent, entries]
  obtain ⟨common, rest, split, shared⟩ := left_between addressed reported
  obtain ⟨_, link, _⟩ := TransGen.head'_iff.mp linked
  have member := mem_vcOrder.mpr link.1
  have less := vcKey_lt causal numbered (links ▸ linked) larger
  have sorted := sorted_vcOrder left
  rw [split] at member sorted
  rcases mem_append.mp member with before | after
  · exact mem_vcOrder.mp (shared.subset before)
  · rcases mem_cons.mp after with rfl | later
    · exact absurd less (lt_irrefl _)
    · exact absurd less (not_lt.mpr ((pairwise_cons.mp (pairwise_append.mp sorted).2.1).1 earlier later))

theorem vcOrder_eq (otherReachable : Reachable blake3 right others) (otherDistinct : right.ids.Nodup)
    (same : ∀ entry, entry ∈ left.entries ↔ entry ∈ right.entries) :
    entriesInVcOrder left = entriesInVcOrder right := by
  obtain ⟨entries, causal, numbered⟩ := causal_of_nodup reachable distinct
  refine Perm.eq_of_pairwise (fun first second member other below above => ?_) (sorted_vcOrder left)
    (sorted_vcOrder right) ((perm_ext_iff_of_nodup ?_ ?_).mpr fun entry => ?_)
  · rw [mem_vcOrder] at member other
    rw [← same, entries] at other
    exact eq_of_vcKey causal numbered (entries ▸ member) other (below.antisymm above)
  · exact nodup_vcOrder reachable distinct
  · exact nodup_vcOrder otherReachable otherDistinct
  · rw [mem_vcOrder, mem_vcOrder, same]

end Journals

def observed : Entry :=
  spawning ⟨2⟩ [] (VectorClock.new.incremented ⟨2⟩)

def observer : Entry :=
  spawning ⟨1⟩ [observed.id] (observed.vectorClock.incremented ⟨1⟩)

def observing : Journal :=
  (Journal.new.insert observed ⟨2⟩).insert observer ⟨1⟩

end Ldgr.Explorer
