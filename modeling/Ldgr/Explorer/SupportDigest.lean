import Ldgr.Explorer.Lineage
import Ldgr.Explorer.Memo

/-! Support expressions: their clauses and their evaluation both read the groups of ids that are required
together, but only one of them passes over an empty group; the bytes they are known by count neither the
branches of a node nor the ids of a group. -/

namespace Ldgr.Explorer

open Format

namespace SupportExpr

mutual

/-- The groups of jointly required ids, branch by branch. -/
def groups : SupportExpr → List (List EntryHash)
  | .allOf ids => [ids]
  | .anyOf branches => branchGroups branches
  | .unknown => []

def branchGroups : List SupportExpr → List (List EntryHash)
  | [] => []
  | branch :: branches => branch.groups ++ branchGroups branches

end

mutual

theorem hardClauses_eq : ∀ expr : SupportExpr, hardClausesFromSupport expr = expr.groups.filter (!·.isEmpty)
  | .allOf [] => rfl
  | .allOf (_ :: _) => rfl
  | .anyOf branches => branchClauses_eq branches
  | .unknown => rfl

theorem branchClauses_eq : ∀ branches : List SupportExpr,
    hardClausesFromBranches branches = (branchGroups branches).filter (!·.isEmpty)
  | [] => rfl
  | branch :: branches => by
    rw [hardClausesFromBranches, branchGroups, List.filter_append, hardClauses_eq branch,
      branchClauses_eq branches]

end

/-- A group is there when all its ids are. -/
def outcomeOf (present : EntryHash → Bool) (groups : List (List EntryHash)) : SupportOutcome :=
  if groups.any (·.all present) then .satisfied else .notSatisfied

mutual

theorem evalDepth_eq (present : EntryHash → Bool) (depth : Nat) : ∀ expr : SupportExpr,
    expr.isStrong = true → expr.evalDepth present none depth = outcomeOf present expr.groups
  | .allOf ids, _ => by simp [evalDepth, outcomeOf, groups]
  | .anyOf branches, strong => evalBranches_eq present (depth + 1) branches strong
  | .unknown, strong => nomatch strong

theorem evalBranches_eq (present : EntryHash → Bool) (depth : Nat) : ∀ branches : List SupportExpr,
    allStrong branches = true →
      evalBranches present none depth false branches = outcomeOf present (branchGroups branches)
  | [], _ => rfl
  | branch :: branches, strong => by
    obtain ⟨first, others⟩ := Bool.and_eq_true_iff.mp strong
    have rest := evalBranches_eq present depth branches others
    rw [evalBranches, evalDepth_eq present depth branch first, outcomeOf, rest, outcomeOf, outcomeOf,
      branchGroups, List.any_append]
    cases branch.groups.any (·.all present) <;> rfl

end

theorem outcomeOf_eq_satisfied {present : EntryHash → Bool} {groups : List (List EntryHash)} :
    outcomeOf present groups = .satisfied ↔ ∃ group ∈ groups, ∀ id ∈ group, present id = true := by
  simp [outcomeOf]

theorem outcomeOf_eq_notSatisfied {present : EntryHash → Bool} {groups : List (List EntryHash)} :
    outcomeOf present groups = .notSatisfied ↔ ∀ group ∈ groups, ∃ id ∈ group, present id = false := by
  simp [outcomeOf]

def eitherOf (second : List EntryHash) : SupportExpr :=
  .anyOf [.allOf [⟨⟨List.replicate 32 0, Base.length_zeros⟩⟩], .anyOf [.allOf second]]

end SupportExpr

open Base

namespace SupportExpr

def idBytes (ids : List EntryHash) : Bytes :=
  ids.flatMap fun id => id.digest.1

mutual

def canonicalBytes : SupportExpr → Bytes
  | .allOf ids => 0x00 :: idBytes ids
  | .anyOf branches => 0x01 :: branchBytes branches
  | .unknown => [0x02]

def branchBytes : List SupportExpr → Bytes
  | [] => []
  | branch :: branches => branch.canonicalBytes ++ branchBytes branches

end

def digest (blake3 : Bytes → EntryHash) (expr : SupportExpr) : EntryHash :=
  blake3 expr.canonicalBytes

/-- The digest a provider of the expression is known by in cache keys. -/
def providerDigest (blake3 : Bytes → EntryHash) (version : UInt64) (expr : SupportExpr) : EntryHash :=
  blake3 (leBytes 8 version.toNat ++ (expr.digest blake3).digest.1)

mutual

/-- The ids of every group ascend, as those of a set do. -/
def Ascending : SupportExpr → Prop
  | .allOf ids => ids.Pairwise (· < ·)
  | .anyOf branches => AllAscending branches
  | .unknown => True

def AllAscending : List SupportExpr → Prop
  | [] => True
  | branch :: branches => branch.Ascending ∧ AllAscending branches

end

/-- Bytes that spell some branches; the nesting of the branches does not show. -/
inductive Spells : Bytes → Prop where
  | nil : Spells []
  | allOf {ids : List EntryHash} {rest : Bytes} (ascending : ids.Pairwise (· < ·)) (spells : Spells rest) :
      Spells (0x00 :: (idBytes ids ++ rest))
  | anyOf {rest : Bytes} (spells : Spells rest) : Spells (0x01 :: rest)
  | unknown {rest : Bytes} (spells : Spells rest) : Spells (0x02 :: rest)

/-- Only the last branch is an alternative of its own, and then an empty one, and behind no group are
its ids and the branches that follow spelled in another way. -/
def Apart : List SupportExpr → Prop
  | [] => True
  | .unknown :: branches => Apart branches
  | .anyOf inner :: branches => inner = [] ∧ branches = []
  | .allOf ids :: branches => Apart branches ∧ ∀ others : List EntryHash, others.Pairwise (· < ·) →
      ∀ rest, Spells rest → idBytes others ++ rest = idBytes ids ++ branchBytes branches → others = ids

def Unmistakable : SupportExpr → Prop
  | .anyOf branches => Apart branches
  | .allOf _ | .unknown => True

/-! ## Reading branches -/

theorem branchBytes_append (branches others : List SupportExpr) :
    branchBytes (branches ++ others) = branchBytes branches ++ branchBytes others := by
  induction branches with
  | nil => rfl
  | cons branch branches ih => rw [List.cons_append, branchBytes, branchBytes, ih, List.append_assoc]

theorem allAscending_append {branches others : List SupportExpr} :
    AllAscending (branches ++ others) ↔ AllAscending branches ∧ AllAscending others := by
  induction branches with
  | nil => simp [AllAscending]
  | cons branch branches ih => rw [List.cons_append, AllAscending, AllAscending, ih, and_assoc]

mutual

theorem spells_canonicalBytes : ∀ (expr : SupportExpr) {rest : Bytes}, expr.Ascending → Spells rest →
    Spells (expr.canonicalBytes ++ rest)
  | .allOf _, _, ascending, spells => .allOf ascending spells
  | .anyOf branches, _, ascending, spells => .anyOf (spells_branchBytes branches ascending spells)
  | .unknown, _, _, spells => .unknown spells

theorem spells_branchBytes : ∀ (branches : List SupportExpr) {rest : Bytes}, AllAscending branches →
    Spells rest → Spells (branchBytes branches ++ rest)
  | [], _, _, spells => spells
  | branch :: branches, rest, ascending, spells => by
    rw [branchBytes, List.append_assoc]
    exact spells_canonicalBytes branch ascending.1 (spells_branchBytes branches ascending.2 spells)

end

theorem Spells.branches {bytes : Bytes} (spells : Spells bytes) :
    ∃ branches, AllAscending branches ∧ branchBytes branches = bytes := by
  induction spells with
  | nil => exact ⟨[], trivial, rfl⟩
  | @allOf ids rest ascending spells ih =>
    obtain ⟨branches, others, rfl⟩ := ih
    exact ⟨.allOf ids :: branches, ⟨ascending, others⟩, rfl⟩
  | anyOf spells ih =>
    obtain ⟨branches, others, rfl⟩ := ih
    exact ⟨.anyOf [] :: branches, ⟨trivial, others⟩, rfl⟩
  | unknown spells ih =>
    obtain ⟨branches, others, rfl⟩ := ih
    exact ⟨.unknown :: branches, ⟨trivial, others⟩, rfl⟩

theorem branchBytes_eq_nil {branches : List SupportExpr} (empty : branchBytes branches = []) :
    branches = [] := by
  cases branches with
  | nil => rfl
  | cons branch branches => cases branch <;> cases empty

theorem idBytes_inj {ids others : List EntryHash} (same : idBytes ids = idBytes others) : ids = others :=
  flatMap_inj (fun id => List.ne_nil_of_length_pos (by rw [id.digest.2]; decide))
    (fun _ _ _ _ => digest_append_inj.mp) same

/-! ## Expressions by their bytes -/

/-- The only branches with these bytes. -/
def Only (branches : List SupportExpr) : Prop :=
  ∀ others, AllAscending others → branchBytes others = branchBytes branches → others = branches

theorem Apart.only {branches : List SupportExpr} (apart : Apart branches) : Only branches := by
  induction branches with
  | nil => exact fun others _ same => branchBytes_eq_nil same
  | cons branch branches ih =>
    intro others ascending same
    cases others with
    | nil => cases branch <;> cases same
    | cons other others =>
      cases branch with
      | unknown =>
        cases other with
        | unknown => rw [ih apart others ascending.2 (List.cons.inj same).2]
        | allOf _ | anyOf _ => cases (List.cons.inj same).1
      | anyOf inner =>
        obtain ⟨rfl, rfl⟩ := apart
        cases other with
        | anyOf others' =>
          obtain ⟨first, second⟩ := List.append_eq_nil_iff.mp (List.cons.inj same).2
          rw [branchBytes_eq_nil first, branchBytes_eq_nil second]
        | allOf _ | unknown => cases (List.cons.inj same).1
      | allOf ids =>
        cases other with
        | allOf otherIds =>
          have behind := (List.cons.inj same).2
          have spells := spells_branchBytes others ascending.2 .nil
          rw [List.append_nil] at spells
          cases apart.2 otherIds ascending.1 _ spells behind
          rw [ih apart.1 others ascending.2 (List.append_cancel_left behind)]
        | anyOf _ | unknown => cases (List.cons.inj same).1

theorem Only.tail {branch : SupportExpr} {branches : List SupportExpr} (ascending : branch.Ascending)
    (only : Only (branch :: branches)) : Only branches := fun others others' same =>
  (List.cons.inj (only (branch :: others) ⟨ascending, others'⟩ (congrArg (branch.canonicalBytes ++ ·) same))).2

theorem Only.apart {branches : List SupportExpr} (ascending : AllAscending branches) (only : Only branches) :
    Apart branches := by
  induction branches with
  | nil => trivial
  | cons branch branches ih =>
    have apart := ih ascending.2 (only.tail ascending.1)
    cases branch with
    | unknown => exact apart
    | allOf ids =>
      refine ⟨apart, fun others ascends rest spells same => ?_⟩
      obtain ⟨following, ascendingRest, rfl⟩ := spells.branches
      have equal := only (.allOf others :: following) ⟨ascends, ascendingRest⟩ (congrArg (0x00 :: ·) same)
      exact SupportExpr.allOf.inj (List.cons.inj equal).1
    | anyOf inner =>
      cases inner with
      | nil =>
        cases branches with
        | nil => exact ⟨rfl, rfl⟩
        | cons next branches =>
          -- The branch that follows may as well be inside.
          have equal := only (.anyOf [next] :: branches) ⟨⟨ascending.2.1, trivial⟩, ascending.2.2⟩
            (by simp [branchBytes, canonicalBytes])
          cases equal
      | cons first inner =>
        -- What is inside may as well follow.
        have equal := only (.anyOf [] :: (first :: inner ++ branches))
          ⟨trivial, allAscending_append.mpr ascending⟩ (by
            rw [branchBytes, branchBytes_append]
            simp [branchBytes, canonicalBytes])
        cases equal

def nested : SupportExpr := .anyOf [.anyOf [.unknown], .unknown]

end SupportExpr

end Ldgr.Explorer
