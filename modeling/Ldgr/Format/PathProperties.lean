import Ldgr.Base.Reader
import Ldgr.Format.Path

/-! Canonical paths are normal forms: canonicalizing one changes nothing, and a path can be replaced
by its canonical form in front of a separator. -/

namespace Ldgr.Format.Path

open Ldgr.Base List

/-! ## Components -/

def Plain (component : Bytes) : Prop :=
  component ≠ [] ∧ component ≠ [dot] ∧ component ≠ [dot, dot]

/-- What is kept of a path: plain components that hold neither a separator nor a NUL. -/
def Held (kept : List Bytes) : Prop :=
  ∀ component ∈ kept, Plain component ∧ separator ∉ component ∧ 0 ∉ component

variable {kept : List Bytes} {raw path : Bytes}

theorem pushComponent_plain {component : Bytes} (plain : Plain component) :
    pushComponent kept component = .ok (component :: kept) := by
  obtain ⟨nonempty, single, double⟩ := plain
  simp only [pushComponent, nonempty, single, double, or_self, if_false]

theorem foldlM_plain {components : List Bytes} (plain : ∀ component ∈ components, Plain component)
    (kept : List Bytes) :
    components.foldlM pushComponent kept = .ok (components.reverse ++ kept) := by
  induction components generalizing kept with
  | nil => rfl
  | cons component components ih =>
    obtain ⟨first, others⟩ := forall_mem_cons.mp plain
    rw [foldlM_cons, pushComponent_plain first, except_ok_bind, ih others, reverse_cons,
      append_assoc]
    rfl

theorem held_push {kept after : List Bytes} {component : Bytes} (held : Held kept)
    (clean : separator ∉ component ∧ 0 ∉ component)
    (pushed : pushComponent kept component = .ok after) : Held after := by
  unfold pushComponent at pushed
  split_ifs at pushed with skipped parent
  · cases pushed
    exact held
  · cases kept with
    | nil => cases pushed
    | cons last earlier =>
      cases pushed
      exact (forall_mem_cons.mp held).2
  · cases pushed
    rw [not_or] at skipped
    exact forall_mem_cons.mpr ⟨⟨⟨skipped.1, skipped.2, parent⟩, clean⟩, held⟩

theorem held_foldlM {components kept after : List Bytes} (held : Held kept)
    (clean : ∀ component ∈ components, separator ∉ component ∧ 0 ∉ component)
    (folded : components.foldlM pushComponent kept = .ok after) : Held after := by
  induction components generalizing kept with
  | nil =>
    cases folded
    exact held
  | cons component components ih =>
    obtain ⟨first, others⟩ := forall_mem_cons.mp clean
    rw [foldlM_cons] at folded
    obtain ⟨between, pushed, rest⟩ := except_bind_eq_ok.mp folded
    exact ih (held_push held first pushed) others rest

/-! ## Splitting -/

theorem mem_of_mem_splitOn {raw component : Bytes} (member : component ∈ raw.splitOn separator)
    {byte : UInt8} (inside : byte ∈ component) : byte ∈ raw ∧ byte ≠ separator := by
  induction raw generalizing component with
  | nil =>
    obtain rfl := mem_singleton.mp member
    cases inside
  | cons first raw ih =>
    rw [splitOn, splitOnP_cons_eq_if_modifyHead] at member
    have later {part : Bytes} (listed : part ∈ raw.splitOn separator) (held : byte ∈ part) :
        byte ∈ first :: raw ∧ byte ≠ separator :=
      ⟨mem_cons_of_mem _ (ih listed held).1, (ih listed held).2⟩
    split at member
    next =>
        obtain rfl | listed := mem_cons.mp member
        · cases inside
        · exact later listed inside
    next other =>
        have parts : raw.splitOnP (· == separator) = raw.splitOn separator := rfl
        rw [parts] at member
        cases split : raw.splitOn separator with
        | nil =>
          rw [split] at member
          cases member
        | cons head tail =>
          rw [split, modifyHead_cons] at member
          obtain rfl | listed := mem_cons.mp member
          · obtain rfl | held := mem_cons.mp inside
            · exact ⟨mem_cons_self, by simpa using other⟩
            · exact later (split ▸ mem_cons_self) held
          · exact later (split ▸ mem_cons_of_mem _ listed) inside

theorem splitOn_append (raw rest : Bytes) : (raw ++ separator :: rest).splitOn separator =
      raw.splitOn separator ++ rest.splitOn separator :=
  splitOnP_append_cons raw rest (beq_self_eq_true separator)

/-! ## Kept components -/

/-- The components left of a path, last first, as far as it stays inside the root. -/
def resolve (raw : Bytes) : Except PathError (List Bytes) :=
  (raw.splitOn separator).foldlM pushComponent []

theorem canonicalize_eq (raw : Bytes) : canonicalize raw = if 0 ∈ raw then .error .nulByte else (do
      let kept ← resolve raw
      if maxCanonicalPathBytes < (join kept.reverse).length then .error .tooLong
      else .ok (join kept.reverse)) := rfl

theorem canonicalize_eq_ok : canonicalize raw = .ok path ↔ 0 ∉ raw ∧ ∃ kept, resolve raw = .ok kept ∧
      path = join kept.reverse ∧ path.length ≤ maxCanonicalPathBytes := by
  rw [canonicalize_eq]
  by_cases nul : 0 ∈ raw
  · simp [nul]
  · rw [if_neg nul, except_bind_eq_ok]
    simp only [nul, not_false_eq_true, true_and]
    refine exists_congr fun kept => and_congr_right fun _ => ?_
    split_ifs with long
    · exact iff_of_false nofun fun ⟨same, short⟩ => absurd (same ▸ short) (Nat.not_le.mpr long)
    · exact ⟨fun same => by cases same; exact ⟨rfl, Nat.not_lt.mp long⟩, fun ⟨same, _⟩ => same ▸ rfl⟩

theorem resolve_append (raw rest : Bytes) : resolve (raw ++ separator :: rest) =
      (do (rest.splitOn separator).foldlM pushComponent (← resolve raw)) := by
  rw [resolve, splitOn_append, List.foldlM_append]
  rfl

theorem resolve_held {raw : Bytes} (clean : 0 ∉ raw) (resolved : resolve raw = .ok kept) : Held kept := by
  refine held_foldlM (List.forall_mem_nil _) (fun component member => ?_) resolved
  refine ⟨fun inside => (mem_of_mem_splitOn member inside).2 rfl, fun inside => ?_⟩
  exact clean (mem_of_mem_splitOn member inside).1

theorem splitOn_intercalate (held : Held kept) (some : kept ≠ []) :
    ([separator].intercalate kept).splitOn separator = kept :=
  List.splitOn_intercalate separator (fun component member => (held component member).2.1) some

theorem resolve_join (held : Held kept) : resolve (join kept.reverse) = .ok kept := by
  have reversed : Held kept.reverse := fun component member =>
    held component (List.mem_reverse.mp member)
  have split : (join kept.reverse).splitOn separator =
      [] :: ([separator].intercalate kept.reverse).splitOn separator :=
    splitOn_append [] _
  rw [resolve, split, foldlM_cons]
  change foldlM pushComponent [] _ = _
  cases kept with
  | nil => rfl
  | cons last earlier =>
    rw [splitOn_intercalate reversed (by simp),
      foldlM_plain (fun component member => (reversed component member).1), reverse_reverse,
      append_nil]

theorem mem_intercalate {byte : UInt8} (inside : byte ∈ [separator].intercalate kept) :
    byte = separator ∨ ∃ component ∈ kept, byte ∈ component := by
  induction kept with
  | nil => cases inside
  | cons first others ih =>
    cases others with
    | nil =>
      rw [intercalate_singleton] at inside
      exact .inr ⟨first, mem_cons_self, inside⟩
    | cons second rest =>
      rw [intercalate_cons_cons, mem_append, mem_append, mem_singleton] at inside
      obtain (here | between) | later := inside
      · exact .inr ⟨first, mem_cons_self, here⟩
      · exact .inl between
      · obtain same | ⟨component, listed, held⟩ := ih later
        · exact .inl same
        · exact .inr ⟨component, mem_cons_of_mem _ listed, held⟩

/-! ## Normal forms -/

/-- Absolute, without NUL, without empty or dotted components, and with no separator at the end
unless it is the root. -/
structure Normal (path : Bytes) : Prop where
  absolute : path.head? = some separator
  clean : 0 ∉ path
  components : path ≠ [separator] → ∀ component ∈ path.tail.splitOn separator, Plain component
  unterminated : path ≠ [separator] → path.getLast? ≠ some separator
  short : path.length ≤ maxCanonicalPathBytes

theorem join_ne_root (beyond : join kept ≠ [separator]) : kept ≠ [] := by
  rintro rfl
  exact beyond rfl

theorem unterminated_of_components {path : Bytes} (beyond : path ≠ [separator])
    (components : ∀ component ∈ path.tail.splitOn separator, Plain component) :
    path.getLast? ≠ some separator := by
  intro last
  obtain ⟨front, same⟩ := getLast?_eq_some_iff.mp last
  cases front with
  | nil => exact beyond same
  | cons first front =>
    have empty : [] ∈ path.tail.splitOn separator := by
      rw [same, cons_append, tail_cons, splitOn_append]
      simp
    exact (components [] empty).1 rfl

theorem normal_join (held : Held kept)
    (short : (join kept).length ≤ maxCanonicalPathBytes) : Normal (join kept) := by
  have components (beyond : join kept ≠ [separator]) :
      ∀ component ∈ (join kept).tail.splitOn separator, Plain component := by
    intro component member
    rw [join, tail_cons, splitOn_intercalate held (join_ne_root beyond)] at member
    exact (held component member).1
  refine ⟨rfl, fun nul => ?_, components, fun beyond =>
    unterminated_of_components beyond (components beyond), short⟩
  obtain root | rest := mem_cons.mp nul
  · cases root
  · obtain root | ⟨component, member, inside⟩ := mem_intercalate rest
    · cases root
    · exact (held component member).2.2 inside

theorem Normal.joined {path : Bytes} (normal : Normal path) : ∃ kept, Held kept ∧ path = join kept := by
  obtain ⟨rest, rfl⟩ := head?_eq_some_iff.mp normal.absolute
  by_cases root : separator :: rest = [separator]
  · exact ⟨[], forall_mem_nil _, root⟩
  · refine ⟨rest.splitOn separator, fun component member => ?_, ?_⟩
    · refine ⟨normal.components root component member, fun inside => ?_, fun inside => ?_⟩
      · exact (mem_of_mem_splitOn member inside).2 rfl
      · exact normal.clean (mem_cons_of_mem _ (mem_of_mem_splitOn member inside).1)
    · rw [join, intercalate_splitOn]

/-- Exactly the normal forms are left as they are. -/
theorem canonicalize_self_iff {path : Bytes} : canonicalize path = .ok path ↔ Normal path := by
  constructor
  · intro result
    obtain ⟨clean, kept, resolved, same, short⟩ := canonicalize_eq_ok.mp result
    have held := resolve_held clean resolved
    rw [same] at short ⊢
    exact normal_join (fun component member => held component (mem_reverse.mp member)) short
  · intro normal
    obtain ⟨kept, held, same⟩ := normal.joined
    have reversed : Held kept.reverse := fun component member =>
      held component (mem_reverse.mp member)
    have resolved := resolve_join reversed
    rw [reverse_reverse, ← same] at resolved
    exact canonicalize_eq_ok.mpr ⟨normal.clean, kept.reverse, resolved,
      by rw [reverse_reverse, same], normal.short⟩

theorem resolve_canonical (result : canonicalize raw = .ok path) : resolve path = resolve raw := by
  obtain ⟨clean, kept, resolved, rfl, short⟩ := canonicalize_eq_ok.mp result
  rw [resolve_join (resolve_held clean resolved), resolved]

theorem normal_canonical (result : canonicalize raw = .ok path) : Normal path := by
  obtain ⟨clean, kept, resolved, rfl, short⟩ := canonicalize_eq_ok.mp result
  have held := resolve_held clean resolved
  exact normal_join (fun component member => held component (mem_reverse.mp member)) short

theorem canonicalize_append (result : canonicalize raw = .ok path) (rest : Bytes) :
    canonicalize (raw ++ separator :: rest) = canonicalize (path ++ separator :: rest) := by
  have clean : 0 ∉ raw := (canonicalize_eq_ok.mp result).1
  have cleanPath := (normal_canonical result).clean
  have nul : 0 ∈ raw ++ separator :: rest ↔ 0 ∈ path ++ separator :: rest := by
    simp only [mem_append, clean, cleanPath, false_or]
  rw [canonicalize_eq, canonicalize_eq, resolve_append, resolve_append, resolve_canonical result]
  simp only [nul]

/-- Canonicalizing reaches a normal form that can stand for the path in front of a separator, the
error of the longer path included. -/
theorem canonicalize_normal_form {raw path : Bytes} (result : canonicalize raw = .ok path) (rest : Bytes) :
    canonicalize path = .ok path ∧
      canonicalize (raw ++ separator :: rest) = canonicalize (path ++ separator :: rest) ∧
      Normal path :=
  ⟨canonicalize_self_iff.mpr (normal_canonical result), canonicalize_append result rest,
    normal_canonical result⟩

/-- `a//./b/../c` and then `../../..`, which leaves the root. -/
theorem dotted_normal_form : canonicalize [0x61, 0x2f, 0x2f, 0x2e, 0x2f, 0x62, 0x2f, 0x2e, 0x2e, 0x2f, 0x63] =
        .ok [0x2f, 0x61, 0x2f, 0x63] ∧
      canonicalize ([0x61, 0x2f, 0x2f, 0x2e, 0x2f, 0x62, 0x2f, 0x2e, 0x2e, 0x2f, 0x63] ++
          separator :: [0x2e, 0x2e, 0x2f, 0x2e, 0x2e, 0x2f, 0x2e, 0x2e]) =
        canonicalize ([0x2f, 0x61, 0x2f, 0x63] ++
          separator :: [0x2e, 0x2e, 0x2f, 0x2e, 0x2e, 0x2f, 0x2e, 0x2e]) :=
  ⟨rfl, (canonicalize_normal_form rfl _).2.1⟩

end Ldgr.Format.Path
