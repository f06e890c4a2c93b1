import Ldgr.Base.Action
import Ldgr.Base.Bytes

/-! A directory of files, the calls a program makes on it, and the faults these calls may meet. -/

namespace Ldgr.Base

open Action AList List

structure IoError where
  notFound : Bool
  message : String
  deriving DecidableEq

def IoError.missing : IoError :=
  { notFound := true, message := "No such file or directory (os error 2)" }

abbrev Files (ν : Type) := AList fun _ : ν => Bytes

/-- The files under their names, and the faults the coming calls meet, in order. -/
structure Directory (ν : Type) where
  files : Files ν
  faults : Nat → Option IoError

namespace Directory

variable {ν α : Type} [DecidableEq ν]

/-- No call fails for a reason outside the directory. -/
def ofFiles (files : Files ν) : Directory ν :=
  { files, faults := fun _ => none }

/-- The directory as a later process finds it. -/
def reopen (dir : Directory ν) : Directory ν :=
  ofFiles dir.files

/-- The directory when the process stops after `count` more calls. -/
def stopAfter (count : Nat) (dir : Directory ν) : Directory ν :=
  { dir with
    faults := fun call =>
      if call < count then none else some { notFound := false, message := "stopped" } }

/-- The directory once a call has met the first of its faults. -/
def called (dir : Directory ν) : Directory ν :=
  { dir with faults := fun call => dir.faults (call + 1) }

omit [DecidableEq ν] in
theorem called_stopAfter (dir : Directory ν) (count : Nat) :
    (dir.stopAfter (count + 1)).called = dir.stopAfter count := by
  simp [called, stopAfter]

/-! ## Calls -/

def call (effect : Files ν → Except IoError (α × Files ν)) : Action (Directory ν) IoError α :=
  fun dir =>
    match dir.faults 0 with
    | some fault => (.error fault, dir.called)
    | none =>
      match effect dir.files with
      | .error fault => (.error fault, dir.called)
      | .ok (value, files) => (.ok value, { dir.called with files })

def onFile (name : ν) (effect : Bytes → Files ν → α × Files ν) : Action (Directory ν) IoError α :=
  call fun files =>
    match files.lookup name with
    | none => .error .missing
    | some content => .ok (effect content files)

def createDirAll : Action (Directory ν) IoError Unit :=
  call fun files => .ok ((), files)

def isFile {ε : Type} (name : ν) : Action (Directory ν) ε Bool :=
  fun dir => (.ok (dir.files.lookup name).isSome, dir)

def readDir : Action (Directory ν) IoError (List ν) :=
  call fun files => .ok (files.keys, files)

def read (name : ν) : Action (Directory ν) IoError Bytes :=
  onFile name fun content files => (content, files)

def openFile (name : ν) : Action (Directory ν) IoError Unit :=
  onFile name fun _ files => ((), files)

def create (name : ν) : Action (Directory ν) IoError Unit :=
  call fun files => .ok ((), files.insert name [])

/-- `bytes` over the content from `position` on; a gap is filled with zeros. -/
def overwrite (content : Bytes) (position : Nat) (bytes : Bytes) : Bytes :=
  content.take position ++ replicate (position - content.length) 0 ++ bytes ++
    content.drop (position + bytes.length)

def writeAt (name : ν) (position : Nat) (bytes : Bytes) : Action (Directory ν) IoError Unit :=
  onFile name fun content files => ((), files.insert name (overwrite content position bytes))

def append (name : ν) (bytes : Bytes) : Action (Directory ν) IoError Unit :=
  onFile name fun content files => ((), files.insert name (content ++ bytes))

def setLen (name : ν) (length : Nat) : Action (Directory ν) IoError Unit :=
  onFile name fun content files => ((), files.insert name
    (content.take length ++ replicate (length - content.length) 0))

def sync (name : ν) : Action (Directory ν) IoError Unit :=
  onFile name fun _ files => ((), files)

def rename (source target : ν) : Action (Directory ν) IoError Unit :=
  onFile source fun content files => ((), (files.erase source).insert target content)

def remove (name : ν) : Action (Directory ν) IoError Unit :=
  onFile name fun _ files => ((), files.erase name)

def removeIfPresent (name : ν) : Action (Directory ν) IoError Unit :=
  fun dir =>
    match remove name dir with
    | (.error fault, after) => (if fault.notFound then .ok () else .error fault, after)
    | done => done

/-- Writes a temporary file, syncs it and renames it over the target. -/
def replace (temporary target : ν) (bytes : Bytes) : Action (Directory ν) IoError Unit := do
  create temporary
  append temporary bytes
  sync temporary
  rename temporary target

def writeEach (name : ν) : List (Nat × Bytes) → Action (Directory ν) IoError Unit
  | [] => pure ()
  | (position, bytes) :: writes => do
      writeAt name position bytes
      writeEach name writes

/-! ## One call -/

variable {dir : Directory ν}

omit [DecidableEq ν] in
theorem call_of_fault {fault : IoError} (refused : dir.faults 0 = some fault)
    (effect : Files ν → Except IoError (α × Files ν)) :
    call effect dir = (.error fault, dir.called) := by
  simp only [call, refused]

variable {effect : Files ν → Except IoError (α × Files ν)}

omit [DecidableEq ν] in
theorem call_of_ok (allowed : dir.faults 0 = none) {value : α} {files : Files ν}
    (succeeds : effect dir.files = .ok (value, files)) :
    call effect dir = (.ok value, { dir.called with files }) := by
  simp only [call, allowed, succeeds]

theorem onFile_of_fault {fault : IoError} (refused : dir.faults 0 = some fault)
    (name : ν) (effect : Bytes → Files ν → α × Files ν) :
    onFile name effect dir = (.error fault, dir.called) :=
  call_of_fault refused _

variable {name : ν}

theorem onFile_of_lookup (allowed : dir.faults 0 = none)
    {content : Bytes} (present : dir.files.lookup name = some content)
    (effect : Bytes → Files ν → α × Files ν) :
    onFile name effect dir = (.ok (effect content dir.files).1,
      { dir.called with files := (effect content dir.files).2 }) :=
  call_of_ok allowed (by simp only [present])

omit [DecidableEq ν] in
theorem call_eq_ok {dir after : Directory ν} {value : α} :
    call effect dir = (.ok value, after) ↔ dir.faults 0 = none ∧ ∃ files,
      effect dir.files = .ok (value, files) ∧ after = { dir.called with files } := by
  unfold call
  cases dir.faults 0 with
  | some fault => simp
  | none =>
    cases effect dir.files with
    | error fault => simp
    | ok result =>
      obtain ⟨found, files⟩ := result
      simp [eq_comm]

theorem onFile_eq_ok {dir after : Directory ν} {effect : Bytes → Files ν → α × Files ν} {value : α} :
    onFile name effect dir = (.ok value, after) ↔ dir.faults 0 = none ∧ ∃ content,
      dir.files.lookup name = some content ∧ value = (effect content dir.files).1 ∧
      after = { dir.called with files := (effect content dir.files).2 } := by
  rw [onFile, call_eq_ok]
  refine and_congr_right fun _ => ?_
  cases dir.files.lookup name with
  | none => simp
  | some content =>
    simp only [Except.ok.injEq, Prod.ext_iff, Option.some.injEq]
    constructor
    · rintro ⟨files, ⟨rfl, rfl⟩, rfl⟩
      exact ⟨content, rfl, rfl, rfl⟩
    · rintro ⟨_, rfl, rfl, rfl⟩
      exact ⟨_, ⟨rfl, rfl⟩, rfl⟩

/-! ## Without faults -/

section Reliable

variable (files : Files ν) (name : ν)

omit [DecidableEq ν] in
omit [DecidableEq ν] in
@[simp] theorem readDir_ofFiles : readDir (ofFiles files) = (.ok files.keys, ofFiles files) := rfl

@[simp] theorem isFile_ofFiles {ε : Type} : (isFile name : Action (Directory ν) ε Bool) (ofFiles files) =
    (.ok (files.lookup name).isSome, ofFiles files) := rfl

@[simp] theorem create_ofFiles : create name (ofFiles files) = (.ok (), ofFiles (files.insert name [])) := rfl

variable {files name} {content : Bytes}

theorem onFile_ofFiles (present : files.lookup name = some content) (effect : Bytes → Files ν → α × Files ν) :
    onFile name effect (ofFiles files) = (.ok (effect content files).1, ofFiles (effect content files).2) :=
  onFile_of_lookup rfl present effect

theorem read_ofFiles (present : files.lookup name = some content) :
    read name (ofFiles files) = (.ok content, ofFiles files) :=
  onFile_ofFiles present _

theorem readIfFile_ofFiles {ε : Type} (relabel : IoError → ε) (parse : Bytes → Except ε α) (empty : α) :
    (do
      if ← isFile name then
        let bytes ← Action.mapError relabel (read name)
        Action.ofExcept (parse bytes)
      else
        pure empty : Action (Directory ν) ε α) (ofFiles files) =
      (match files.lookup name with
        | none => .ok empty
        | some content => parse content, ofFiles files) := by
  rw [Action.bind_of_ok (isFile_ofFiles files name)]
  cases present : files.lookup name with
  | none => rfl
  | some content =>
    rw [Option.isSome_some, if_pos rfl,
      Action.bind_of_ok (Action.mapError_eq_ok.mpr (read_ofFiles present))]
    rfl

theorem openFile_ofFiles (present : files.lookup name = some content) :
    openFile name (ofFiles files) = (.ok (), ofFiles files) :=
  onFile_ofFiles present _

theorem append_ofFiles (present : files.lookup name = some content) (bytes : Bytes) :
    append name bytes (ofFiles files) = (.ok (), ofFiles (files.insert name (content ++ bytes))) :=
  onFile_ofFiles present _

theorem setLen_ofFiles (present : files.lookup name = some content) (length : Nat) :
    setLen name length (ofFiles files) = (.ok (), ofFiles (files.insert name
      (content.take length ++ replicate (length - content.length) 0))) :=
  onFile_ofFiles present _

/-- No other file changes, and no call fails after that would not have failed before. -/
structure Only (name : ν) (before after : Directory ν) : Prop where
  others : ∀ other, other ≠ name → after.files.lookup other = before.files.lookup other
  faultless : before = ofFiles before.files → after = ofFiles after.files

instance (name : ν) : Std.Refl (Only name) where
  refl _ := ⟨fun _ _ => rfl, id⟩

instance (name : ν) : IsTrans (Directory ν) (Only name) where
  trans _ _ _ first second :=
    ⟨fun other apart => (second.others other apart).trans (first.others other apart),
      second.faultless ∘ first.faultless⟩

theorem called_only (name : ν) (dir : Directory ν) : Only name dir dir.called :=
  ⟨fun _ _ => rfl, fun faultless => by rw [faultless]; rfl⟩

theorem call_only {name : ν} (touches : ∀ files value after, effect files = .ok (value, after) →
      ∀ other, other ≠ name → after.lookup other = files.lookup other) :
    (call effect).Relates (Only name) := by
  intro dir
  unfold call
  cases dir.faults 0 with
  | some fault => exact called_only name dir
  | none =>
    cases result : effect dir.files with
    | error fault => exact called_only name dir
    | ok produced =>
      refine ⟨touches _ _ _ result, fun faultless => ?_⟩
      rw [faultless]
      rfl

theorem onFile_only {name : ν} {effect : Bytes → Files ν → α × Files ν}
    (touches : ∀ content files, ∀ other, other ≠ name →
      (effect content files).2.lookup other = files.lookup other) :
    (onFile name effect).Relates (Only name) := by
  refine call_only fun files value after result other apart => ?_
  cases present : files.lookup name with
  | none =>
    rw [present] at result
    cases result
  | some content =>
    rw [present] at result
    rw [← touches content files other apart, Except.ok.inj result]

theorem create_only (name : ν) : (create name).Relates (Only name) := by
  refine call_only fun files value after result other apart => ?_
  cases result
  exact lookup_insert_ne apart

theorem append_only (name : ν) (bytes : Bytes) : (append name bytes).Relates (Only name) :=
  onFile_only fun _ _ _ apart => lookup_insert_ne apart

/-- The files of a directory once `name` is gone. -/
def Without (files : Files ν) (name : ν) (after : Files ν) : Prop :=
  ∀ other, after.lookup other = if other = name then none else files.lookup other

theorem without_erase (files : Files ν) (name : ν) : Without files name (files.erase name) := by
  intro other
  split_ifs with same
  · rw [same, lookup_erase]
  · exact lookup_erase_ne same

theorem without_self (absent : files.lookup name = none) : Without files name files := by
  intro other
  split_ifs with same
  · rw [same, absent]
  · rfl

theorem remove_ofFiles (files : Files ν) (name : ν) :
    ∃ outcome after, remove name (ofFiles files) = (outcome, ofFiles after) ∧
      Without files name after ∧ ∀ fault, outcome = .error fault → fault.notFound = true := by
  cases present : files.lookup name with
  | none =>
    have missing : remove name (ofFiles files) = (.error .missing, ofFiles files) := by
      simp only [remove, onFile, call, ofFiles, present]
      rfl
    refine ⟨_, _, missing, without_self present, ?_⟩
    rintro fault ⟨⟩
    rfl
  | some content =>
    exact ⟨_, _, onFile_ofFiles present _, without_erase files name, nofun⟩

theorem removeIfPresent_ofFiles (files : Files ν) (name : ν) :
    ∃ after, removeIfPresent name (ofFiles files) = (.ok (), ofFiles after) ∧
      Without files name after := by
  obtain ⟨outcome, after, removed, gone, harmless⟩ := remove_ofFiles files name
  refine ⟨after, ?_, gone⟩
  cases outcome with
  | error fault => simp only [removeIfPresent, removed, harmless fault rfl, if_true]
  | ok _ => simp only [removeIfPresent, removed]

/-- The files of a directory once a temporary file has taken the place of `target`. -/
def Replaced (files : Files ν) (temporary target : ν) (bytes : Bytes) (after : Files ν) : Prop :=
  ∀ name, after.lookup name =
    if name = target then some bytes else if name = temporary then none else files.lookup name

theorem replaced_rename (files : Files ν) (temporary target : ν) (bytes : Bytes) :
    Replaced files temporary target bytes
      ((((files.insert temporary []).insert temporary bytes).erase temporary).insert target bytes) := by
  intro name
  split_ifs with atTarget atTemporary
  · rw [atTarget, lookup_insert]
  · rw [lookup_insert_ne atTarget, atTemporary, lookup_erase]
  · rw [lookup_insert_ne atTarget, lookup_erase_ne atTemporary,
      lookup_insert_ne atTemporary, lookup_insert_ne atTemporary]

theorem replace_ofFiles (files : Files ν) (temporary target : ν) (bytes : Bytes) :
    ∃ after, replace temporary target bytes (ofFiles files) = (.ok (), ofFiles after) ∧
      Replaced files temporary target bytes after := by
  have appended := append_ofFiles (lookup_insert (s := files) (a := temporary) (b := [])) bytes
  rw [nil_append] at appended
  have written : ((files.insert temporary []).insert temporary bytes).lookup temporary = some bytes :=
    lookup_insert _
  exact ⟨_, (bind_of_ok (create_ofFiles files temporary)).trans <|
    (bind_of_ok appended).trans <|
    (bind_of_ok (onFile_ofFiles written _)).trans (onFile_ofFiles written _),
    replaced_rename files temporary target bytes⟩

end Reliable

/-! ## Writes to one file -/

theorem lookup_of_create {dir after : Directory ν} {result : Unit}
    (created : create name dir = (.ok result, after)) : after.files.lookup name = some [] := by
  obtain ⟨_, _, ⟨⟩, rfl⟩ := call_eq_ok.mp created
  exact lookup_insert _

theorem lookup_of_append {dir after : Directory ν} {bytes content : Bytes} {result : Unit}
    (appended : append name bytes dir = (.ok result, after))
    (present : dir.files.lookup name = some content) :
    after.files.lookup name = some (content ++ bytes) := by
  obtain ⟨_, found, same, _, rfl⟩ := onFile_eq_ok.mp appended
  cases present.symm.trans same
  exact lookup_insert _

theorem overwrite_end {content : Bytes} {position : Nat} (atEnd : content.length = position)
    (bytes : Bytes) : overwrite content position bytes = content ++ bytes := by
  subst atEnd
  simp [overwrite]

theorem overwrite_inside {front middle bytes : Bytes} (rest : Bytes) {position : Nat}
    (start : front.length = position) (size : middle.length = bytes.length) :
    overwrite (front ++ (middle ++ rest)) position bytes = front ++ (bytes ++ rest) := by
  have past : drop (position + bytes.length) (front ++ (middle ++ rest)) = rest := by
    rw [← append_assoc, drop_left' (by rw [length_append, start, size])]
  have inside : position - (front ++ (middle ++ rest)).length = 0 := by
    rw [length_append]
    omega
  rw [overwrite, take_left' start, past, inside, replicate_zero, append_nil, append_assoc]

theorem writeEach_ofFiles {files : Files ν} {content : Bytes}
    (present : files.lookup name = some content) (writes : List (Nat × Bytes)) :
    ∃ after, writeEach name writes (ofFiles files) = (.ok (), ofFiles after) ∧
      after.lookup name = some (writes.foldl (fun content write => overwrite content write.1 write.2)
        content) ∧ ∀ other, other ≠ name → after.lookup other = files.lookup other := by
  induction writes generalizing files content with
  | nil => exact ⟨files, rfl, present, fun _ _ => rfl⟩
  | cons write writes ih =>
    have written : writeAt name write.1 write.2 (ofFiles files) = _ := onFile_ofFiles present _
    obtain ⟨after, ran, found, others⟩ := ih (lookup_insert files)
    refine ⟨after, (bind_of_ok written).trans ran, found, fun other apart => ?_⟩
    rw [others other apart, lookup_insert_ne apart]

/-- A process that stops after `count` calls has made the first `count` writes. -/
theorem writeEach_stopAfter {content : Bytes}
    (present : dir.files.lookup name = some content) (writes : List (Nat × Bytes)) (count : Nat) :
    (writeEach name writes (dir.stopAfter count)).2.files.lookup name =
      some ((writes.take count).foldl (fun content write => overwrite content write.1 write.2) content) := by
  induction writes generalizing dir content count with
  | nil =>
    rw [take_nil]
    exact present
  | cons write writes ih =>
    cases count with
    | zero =>
      have stopped : writeAt name write.1 write.2 (dir.stopAfter 0) = _ :=
        onFile_of_fault rfl name _
      rw [writeEach, bind_of_error stopped]
      exact present
    | succ count =>
      have allowed : (dir.stopAfter (count + 1)).faults 0 = none := rfl
      have written : writeAt name write.1 write.2 (dir.stopAfter (count + 1)) = _ :=
        onFile_of_lookup allowed present _
      rw [writeEach, bind_of_ok written, called_stopAfter]
      let next : Directory ν := { dir with
        files := dir.files.insert name (overwrite content write.1 write.2) }
      exact @ih next (overwrite content write.1 write.2) (lookup_insert _) count

/-! ## Stopping -/

section Stopping

variable {files : Files ν} {name : ν} {content : Bytes}

theorem onFile_stopAfter_zero (files : Files ν) (name : ν) (effect : Bytes → Files ν → α × Files ν) :
    ∃ fault after, onFile name effect ((ofFiles files).stopAfter 0) = (.error fault, after) ∧
      fault.notFound = false ∧ after.files = files :=
  ⟨_, _, onFile_of_fault rfl name effect, rfl, rfl⟩

theorem onFile_stopAfter_succ (present : files.lookup name = some content)
    (effect : Bytes → Files ν → α × Files ν) (count : Nat) :
    onFile name effect ((ofFiles files).stopAfter (count + 1)) =
      (.ok (effect content files).1, (ofFiles (effect content files).2).stopAfter count) := by
  have allowed : ((ofFiles files).stopAfter (count + 1)).faults 0 = none := rfl
  refine (onFile_of_lookup allowed present effect).trans ?_
  rw [called_stopAfter]
  rfl

theorem create_stopAfter_succ (files : Files ν) (name : ν) (count : Nat) :
    create name ((ofFiles files).stopAfter (count + 1)) =
      (.ok (), (ofFiles (files.insert name [])).stopAfter count) := by
  have allowed : ((ofFiles files).stopAfter (count + 1)).faults 0 = none := rfl
  refine (call_of_ok allowed rfl).trans ?_
  rw [called_stopAfter]
  rfl

/-- Until it is renamed, only the temporary file is touched. -/
theorem replace_stopAfter_lt (files : Files ν) (temporary target : ν) (bytes : Bytes) {count : Nat}
    (early : count < 4) :
    ∃ fault after, replace temporary target bytes ((ofFiles files).stopAfter count) = (.error fault, after) ∧
      ∀ name, name ≠ temporary → after.files.lookup name = files.lookup name := by
  have created : (files.insert temporary []).lookup temporary = some [] := lookup_insert _
  have written : ((files.insert temporary []).insert temporary bytes).lookup temporary = some bytes :=
    lookup_insert _
  have appended (count : Nat) : append temporary bytes
      ((ofFiles (files.insert temporary [])).stopAfter (count + 1)) = (.ok (),
        (ofFiles ((files.insert temporary []).insert temporary bytes)).stopAfter count) :=
    onFile_stopAfter_succ created _ count
  have untouched (name : ν) (other : name ≠ temporary) :
      ((files.insert temporary []).insert temporary bytes).lookup name = files.lookup name :=
    (lookup_insert_ne other).trans (lookup_insert_ne other)
  match count, early with
  | 0, _ => exact ⟨_, _, bind_of_error (call_of_fault rfl _), fun _ _ => rfl⟩
  | 1, _ =>
    obtain ⟨fault, after, stopped, _, same⟩ := onFile_stopAfter_zero (files.insert temporary [])
      temporary fun content files => ((), files.insert temporary (content ++ bytes))
    refine ⟨fault, after, (bind_of_ok (create_stopAfter_succ files temporary 0)).trans
      (bind_of_error stopped), fun name other => ?_⟩
    rw [same, lookup_insert_ne other]
  | 2, _ =>
    obtain ⟨fault, after, stopped, _, same⟩ := onFile_stopAfter_zero
      ((files.insert temporary []).insert temporary bytes) temporary fun _ files => ((), files)
    refine ⟨fault, after, (bind_of_ok (create_stopAfter_succ files temporary 1)).trans
      ((bind_of_ok (appended 0)).trans (bind_of_error stopped)), fun name other => ?_⟩
    rw [same, untouched name other]
  | 3, _ =>
    obtain ⟨fault, after, stopped, _, same⟩ := onFile_stopAfter_zero
      ((files.insert temporary []).insert temporary bytes) temporary
      fun content files => ((), (files.erase temporary).insert target content)
    refine ⟨fault, after, (bind_of_ok (create_stopAfter_succ files temporary 2)).trans
      ((bind_of_ok (appended 1)).trans
        ((bind_of_ok (onFile_stopAfter_succ written _ 0)).trans stopped)), fun name other => ?_⟩
    rw [same, untouched name other]

theorem replace_stopAfter_add (files : Files ν) (temporary target : ν) (bytes : Bytes) (count : Nat) :
    ∃ after, replace temporary target bytes ((ofFiles files).stopAfter (count + 4)) =
        (.ok (), (ofFiles after).stopAfter count) ∧ Replaced files temporary target bytes after := by
  have created : (files.insert temporary []).lookup temporary = some [] := lookup_insert _
  have written : ((files.insert temporary []).insert temporary bytes).lookup temporary = some bytes :=
    lookup_insert _
  exact ⟨_, (bind_of_ok (create_stopAfter_succ files temporary (count + 3))).trans <|
    (bind_of_ok (onFile_stopAfter_succ created _ (count + 2))).trans <|
    (bind_of_ok (onFile_stopAfter_succ written _ (count + 1))).trans (onFile_stopAfter_succ written _ count),
    replaced_rename files temporary target bytes⟩

theorem removeIfPresent_stopAfter (files : Files ν) (name : ν) (count : Nat) :
    ∃ outcome after, removeIfPresent name ((ofFiles files).stopAfter count) = (outcome, after) ∧
      if count = 0 then after.files = files
      else outcome = .ok () ∧ Without files name after.files := by
  cases count with
  | zero =>
    obtain ⟨fault, after, stopped, real, same⟩ := onFile_stopAfter_zero files name
      fun _ files => ((), files.erase name)
    refine ⟨.error fault, after, ?_, same⟩
    rw [removeIfPresent, remove, stopped]
    simp [real]
  | succ count =>
    cases present : files.lookup name with
    | some content =>
      have removed : remove name ((ofFiles files).stopAfter (count + 1)) = _ :=
        onFile_stopAfter_succ present _ count
      refine ⟨.ok (), _, by rw [removeIfPresent, removed], rfl, without_erase files name⟩
    | none =>
      have allowed : ((ofFiles files).stopAfter (count + 1)).faults 0 = none := rfl
      have missing : remove name ((ofFiles files).stopAfter (count + 1)) =
          (.error .missing, ((ofFiles files).stopAfter (count + 1)).called) := by
        simp only [remove, onFile, call, allowed]
        rw [show ((ofFiles files).stopAfter (count + 1)).files.lookup name = none from present]
      refine ⟨.ok (), _, by rw [removeIfPresent, missing]; rfl, rfl, without_self present⟩

end Stopping

end Directory

end Ldgr.Base
