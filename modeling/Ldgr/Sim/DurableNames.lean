import Ldgr.Journal.DagProperties
import Ldgr.Sim.FileExtents

/-! The calls that change the storage, and which bytes a crash leaves under which name, against what the
syncs before it have made durable. -/

namespace Ldgr.Sim

open Base Format

inductive StorageCall where
  | writeBytes (actor : ActorId) (path : String) (offset : UInt64) (content : Bytes)
  | allocate (actor : ActorId) (path : String)
  | rename (actor : ActorId) (source target : String)
  | fsync (actor : ActorId)
  | fsyncPath (actor : ActorId) (path : String)

namespace StorageCall

variable (blake3 : Bytes → EntryHash)

def perform : StorageCall → Action (Journal × SimFs) SimFsError EntryHash
  | writeBytes actor path offset content => SimFs.writeBytes blake3 actor path offset content
  | allocate actor path => SimFs.allocate blake3 actor path
  | rename actor source target => SimFs.rename blake3 actor source target
  | fsync actor => SimFs.fsync blake3 actor
  | fsyncPath actor path => SimFs.fsyncPath blake3 actor path

def run (calls : List StorageCall) (state : Journal × SimFs) : Journal × SimFs :=
  calls.foldl (fun state call => (call.perform blake3 state).2) state

def check (fs : SimFs) : StorageCall → Except SimFsError Unit
  | writeBytes _ path offset content => fs.checkWrite path offset content
  | allocate _ path =>
    if fs.contains (canonicalKey path) then .error (.alreadyExists path)
    else fs.chargeResident 0 true true
  | rename _ source _ => if fs.contains (canonicalKey source) then .ok () else .error (.notFound source)
  | fsync _ => .ok ()
  | fsyncPath _ path => if fs.contains (canonicalKey path) then .ok () else .error (.notFound path)

def kind : StorageCall → EntryKind
  | writeBytes .. | allocate .. | rename .. => .fsWrite
  | fsync _ | fsyncPath .. => .fsFsync

def payload : StorageCall → EntryPayload
  | writeBytes _ path offset content => .fsWrite (.write (pathRef blake3 path) offset content)
  | allocate _ path => .fsWrite (.allocate (pathRef blake3 path))
  | rename _ source target => .fsWrite (.rename (pathRef blake3 source) (pathRef blake3 target))
  | fsync _ => .fsFsync (pathRef blake3 "/")
  | fsyncPath _ path => .fsFsync (pathRef blake3 path)

def actor : StorageCall → ActorId
  | writeBytes actor .. | allocate actor _ | rename actor .. | fsync actor | fsyncPath actor _ => actor

def effect (id : EntryHash) (fs : SimFs) : StorageCall → SimFs
  | writeBytes _ path offset content =>
    if content.isEmpty then fs else fs.applyWrite path offset.toNat content id
  | allocate _ path => fs.setFile (canonicalKey path) { File.default with createdBy := some id }
  | rename _ source target =>
    if canonicalKey source = canonicalKey target then fs
    else
      let renamed := fs.renameFile (canonicalKey source) (canonicalKey target)
      if fs.features.fsJournaling then
        { renamed with
          pendingRenames := renamed.pendingRenames.insert (canonicalKey source) (canonicalKey target) }
      else renamed
  | fsync _ => fs.commitJournal.persistAll
  | fsyncPath _ path =>
    match fs.files.lookup (canonicalKey path) with
    | some file => fs.setFile (canonicalKey path) file.persist
    | none => fs

/-- The call goes through and records `entry`. -/
structure Passes (journal : Journal) (fs : SimFs) (call : StorageCall) (entry : Entry) : Prop where
  checked : call.check fs = .ok ()
  prepared : journal.prepareAppend blake3 call.kind call.actor [] (call.payload blake3) = .ok entry

variable {blake3} {journal : Journal} {fs : SimFs} {call : StorageCall}

theorem perform_eq : call.perform blake3 (journal, fs) = (match call.check fs with
    | .error fault => (.error fault, (journal, fs))
    | .ok _ =>
      match (Journal.append blake3 false call.kind call.actor [] (call.payload blake3)) journal with
      | (.error fault, after) => (.error (.journal fault), (after, fs))
      | (.ok id, after) => (.ok id, (after, call.effect id fs))) := by
  have journaled {next : EntryHash → Action (Journal × SimFs) SimFsError EntryHash}
      (ends : ∀ id after, next id (after, fs) = (.ok id, (after, call.effect id fs))) :
      (SimFs.journaled blake3 call.kind call.actor [] (call.payload blake3) >>= next) (journal, fs) =
        match (Journal.append blake3 false call.kind call.actor [] (call.payload blake3)) journal with
        | (.error fault, after) => (.error (.journal fault), (after, fs))
        | (.ok id, after) => (.ok id, (after, call.effect id fs)) := by
    cases appended : (Journal.append blake3 false call.kind call.actor [] (call.payload blake3)) journal with
    | mk outcome after =>
      cases outcome with
      | error fault =>
        simp only [bind, SimFs.journaled, Action.mapError, Action.zoom, appended, Except.mapError]
      | ok id =>
        simp only [bind, SimFs.journaled, Action.mapError, Action.zoom, appended, Except.mapError, ends]
  cases call with
  | writeBytes actor path offset content =>
    simp only [perform, SimFs.writeBytes, Action.get_bind, check]
    cases fs.checkWrite path offset content with
    | error fault => rfl
    | ok done =>
      refine journaled fun id after => ?_
      cases empty : content.isEmpty <;> simp [effect, empty, SimFs.update]
  | allocate actor path =>
    simp only [perform, SimFs.allocate, Action.get_bind, check]
    cases fs.contains (canonicalKey path) with
    | true => rfl
    | false =>
      cases fs.chargeResident 0 true true with
      | error fault => rfl
      | ok done => exact journaled fun id after => rfl
  | rename actor source target =>
    simp only [perform, SimFs.rename, Action.get_bind, check]
    cases fs.contains (canonicalKey source) with
    | false => rfl
    | true =>
      refine journaled fun id after => ?_
      by_cases same : canonicalKey source = canonicalKey target <;>
        simp [effect, same, SimFs.update]
  | fsync actor => exact journaled fun id after => rfl
  | fsyncPath actor path =>
    simp only [perform, SimFs.fsyncPath, Action.get_bind, check]
    cases found : fs.files.lookup (canonicalKey path) with
    | none =>
      have absent : fs.contains (canonicalKey path) = false := by simp [SimFs.contains, found]
      rw [absent]
      rfl
    | some file =>
      have present : fs.contains (canonicalKey path) = true := by simp [SimFs.contains, found]
      rw [present]
      refine journaled fun id after => ?_
      simp [effect, found, SimFs.update]

theorem perform_of_passes {entry : Entry} (passes : Passes blake3 journal fs call entry) :
    call.perform blake3 (journal, fs) =
      (.ok entry.id, ((journal.insert entry call.actor).freezeIfFull false, call.effect entry.id fs)) := by
  rw [perform_eq, passes.checked, Journal.append_of_ok false passes.prepared]

theorem perform_of_not_passes (stopped : ∀ entry, ¬Passes blake3 journal fs call entry) :
    ∃ fault, call.perform blake3 (journal, fs) = (.error fault, (journal, fs)) := by
  rw [perform_eq]
  cases checked : call.check fs with
  | error fault => exact ⟨fault, rfl⟩
  | ok done =>
    cases prepared : journal.prepareAppend blake3 call.kind call.actor [] (call.payload blake3) with
    | ok entry => exact absurd ⟨checked, prepared⟩ (stopped entry)
    | error fault =>
      rw [Journal.append_of_error false prepared]
      exact ⟨.journal fault, rfl⟩

end StorageCall

open StorageCall SortedMap SimFs

/-- A read of a size the interface admits. -/
structure Window where
  offset : UInt64
  requestedLen : UInt64
  admitted : requestedLen.toNat ≤ maxReadBytes

/-- What every read finds under each name. -/
abbrev Names := String → Option (Window → Bytes)

namespace Names

def move (source target : String) (names : Names) : Names :=
  match names source with
  | some contents => Function.update (Function.update names source none) target (some contents)
  | none => names

def replay (renames : List (String × String)) (names : Names) : Names :=
  renames.foldl (fun names (source, target) => names.move source target) names

end Names

namespace File

def contents (file : File) (window : Window) : Bytes :=
  file.observe window.offset.toNat window.requestedLen.toNat

def survivor (file : File) : Option (Window → Bytes) :=
  file.dropUnsynced.map contents

/-- The extents do not overlap, and the last one ends the file. -/
structure Sound (file : File) : Prop where
  tiled : Extent.Tiled file.extents
  reaches : Extent.Reaches file.extents file.length

def cleaned (file : File) : SortedMap Nat ByteRange :=
  file.cache.mapValues fun range => { range with state := .clean }

theorem extents_cleaned (file : File) : ({ file with cache := file.cleaned } : File).extents = file.extents := by
  simp [extents, cleaned, mapValues, Placed.extent, Function.comp_def]

theorem contents_cleaned (file : File) : ({ file with cache := file.cleaned } : File).contents = file.contents := by
  funext window
  simp only [contents, observe, reading, take, cleaned, mapValues, List.filter_map, List.foldl_map]
  rfl

variable {file : File}

theorem recomputeLength_of_reaches (reaches : Extent.Reaches file.extents file.length) :
    file.recomputeLength = file := by
  have ends : file.cache.entries.map Placed.finish = file.extents.map Extent.finish := by
    simp [extents, Function.comp_def]
  have same : (file.cache.entries.map Placed.finish).foldl max 0 = file.length := by
    rw [ends, List.foldl_eq_foldr]
    refine Nat.le_antisymm (List.max_le_of_forall_le _ _ fun stop member => ?_) ?_
    · obtain ⟨extent, inside, rfl⟩ := List.mem_map.mp member
      exact reaches.within extent inside
    · cases reaches.attained with
      | inl empty => exact empty.le.trans (Nat.zero_le _)
      | inr last =>
        obtain ⟨extent, inside, stop⟩ := last
        exact List.le_max_of_le (List.mem_map_of_mem inside) stop.ge
  rw [recomputeLength, same]

theorem survivor_persist (sound : file.Sound) : file.persist.survivor = some file.contents := by
  have settled : ({ file with cache := file.cleaned } : File).recomputeLength =
      { file with cache := file.cleaned } :=
    recomputeLength_of_reaches (file.extents_cleaned.symm ▸ sound.reaches)
  calc file.persist.survivor
    _ = some ({ file with cache := file.cleaned } : File).recomputeLength.contents := rfl
    _ = some file.contents := by rw [settled, contents_cleaned]

theorem Sound.persist (sound : file.Sound) : file.persist.Sound :=
  ⟨sound.tiled, sound.reaches⟩

theorem sound_default (id : Option EntryHash) : Sound { File.default with createdBy := id } :=
  ⟨⟨nofun, nofun, nofun⟩, nofun, .inl rfl⟩

theorem Sound.write (sound : file.Sound) (offset : Nat) {content : Bytes}
    (some : content ≠ []) (id : EntryHash) : (file.write offset content id).Sound :=
  ⟨tiled_write sound.tiled offset some id, reaches_write sound.tiled offset some id sound.reaches⟩

/-- The files differ in the state of their pages at most. -/
structure Alike (file other : File) : Prop where
  cleaned : other.cleaned = file.cleaned
  length : other.length = file.length
  survivor : other.survivor = file.survivor

theorem Alike.trans {first second third : File} (left : first.Alike second) (right : second.Alike third) :
    first.Alike third :=
  ⟨right.cleaned.trans left.cleaned, right.length.trans left.length, right.survivor.trans left.survivor⟩

theorem Alike.contents {file other : File} (alike : file.Alike other) : other.contents = file.contents := by
  rw [← file.contents_cleaned, ← other.contents_cleaned, alike.cleaned]
  funext window
  simp only [File.contents, observe, reading, take, alike.length]
  rfl

theorem Alike.sound {file other : File} (alike : file.Alike other) (sound : file.Sound) : other.Sound := by
  have extents : other.extents = file.extents := by
    rw [← file.extents_cleaned, ← other.extents_cleaned, alike.cleaned]
    rfl
  exact ⟨extents ▸ sound.tiled, by rw [extents, alike.length]; exact sound.reaches⟩

theorem settle_alike (file : File) (ranges : List (Nat × EntryHash)) :
    file.Alike (settle file ranges) := by
  induction ranges generalizing file with
  | nil => exact ⟨rfl, rfl, rfl⟩
  | cons pending ranges ih =>
    refine Alike.trans ?_ (ih _)
    dsimp only
    split
    · rename_i range found
      split_ifs
      · refine ⟨eq_of_lookup fun key => ?_, rfl, rfl⟩
        simp only [File.cleaned, lookup_mapValues, lookup_insert]
        split_ifs with same
        · rw [same, found]
          rfl
        · rfl
      · exact ⟨rfl, rfl, rfl⟩
    · exact ⟨rfl, rfl, rfl⟩

end File

namespace SimFs

variable (fs : SimFs)

def visible : Names :=
  fun key => (fs.files.lookup key).map File.contents

def durable : Names :=
  fun key => (fs.files.lookup key).bind File.survivor

def Persisted (key : String) : Prop :=
  ∃ file, fs.files.lookup key = some file ∧ file.durableExists = true

structure Sound : Prop where
  files : ∀ key file, fs.files.lookup key = some file → file.Sound
  keys : ∀ key, (fs.files.lookup key).isSome → ∃ path, canonicalKey path = key
  targets : ∀ renamed ∈ fs.pendingRenames.entries, ∃ path, canonicalKey path = renamed.2

theorem visible_crash : fs.crash.visible = fs.durable := by
  funext key
  simp only [visible, durable, crash, dropAllUnsynced, lookup_filterMapValues]
  cases fs.files.lookup key <;> rfl

theorem durable_eq_none {fs : SimFs} {key : String} : fs.durable key = none ↔ ¬fs.Persisted key := by
  unfold durable Persisted
  cases fs.files.lookup key with
  | none => simp
  | some file => cases known : file.durableExists <;> simp [File.survivor, File.dropUnsynced, known]

theorem visible_setFile (key : String) (file : File) :
    (fs.setFile key file).visible = Function.update fs.visible key (some file.contents) := by
  funext other
  simp only [visible, setFile, lookup_insert, Function.update_apply]
  split_ifs <;> rfl

theorem durable_setFile (key : String) (file : File) :
    (fs.setFile key file).durable = Function.update fs.durable key file.survivor := by
  funext other
  simp only [durable, setFile, lookup_insert, Function.update_apply]
  split_ifs <;> rfl

theorem visible_renameFile (source target : String) :
    (fs.renameFile source target).visible = fs.visible.move source target := by
  funext key
  cases found : fs.files.lookup source with
  | none => simp [renameFile, Names.move, visible, found]
  | some file =>
    simp only [renameFile, Names.move, visible, found, lookup_insert,
      lookup_erase, Function.update_apply, Option.map_some]
    split_ifs <;> rfl

theorem durable_renameFile {fs : SimFs} {source : String} {file : File}
    (found : fs.files.lookup source = some file) (target : String) :
    (fs.renameFile source target).durable =
      Function.update (Function.update fs.durable source none) target file.survivor := by
  funext key
  simp only [renameFile, durable, found, lookup_insert, lookup_erase, Function.update_apply]
  split_ifs <;> rfl

section Sound

variable {fs : SimFs} (sound : fs.Sound)

include sound

theorem Sound.setFile {file : File} (proper : file.Sound) {key : String}
    (canonical : ∃ path, canonicalKey path = key) : (fs.setFile key file).Sound where
  files other found := by
    simp only [SimFs.setFile, lookup_insert]
    split_ifs
    · rintro ⟨⟩
      exact proper
    · exact sound.files other found
  keys other := by
    simp only [SimFs.setFile, lookup_insert]
    split_ifs with same
    · exact fun _ => same ▸ canonical
    · exact sound.keys other
  targets := sound.targets

theorem Sound.renameFile (source : String) {target : String}
    (canonical : ∃ path, canonicalKey path = target) : (fs.renameFile source target).Sound := by
  unfold SimFs.renameFile
  cases moved : fs.files.lookup source with
  | none => exact sound
  | some file =>
    have erased : ({ fs with files := fs.files.erase source } : SimFs).Sound := by
      refine ⟨fun key found => ?_, fun key => ?_, sound.targets⟩ <;>
        simp only [lookup_erase] <;> split_ifs
      · exact nofun
      · exact sound.files key found
      · exact nofun
      · exact sound.keys key
    exact erased.setFile (sound.files source file moved) canonical

theorem Sound.settled (pending : List (String × List (Nat × EntryHash))) :
    let settled := pending.foldl (fun fs (path, ranges) =>
      match fs.files.lookup path with
      | some file => fs.setFile path (settle file ranges)
      | none => fs) fs
    settled.Sound ∧ settled.visible = fs.visible := by
  induction pending generalizing fs with
  | nil => exact ⟨sound, rfl⟩
  | cons written pending ih =>
    obtain ⟨path, ranges⟩ := written
    rw [List.foldl_cons]
    dsimp only
    cases found : fs.files.lookup path with
    | none => exact ih sound
    | some file =>
      have alike := File.settle_alike file ranges
      have next := sound.setFile (alike.sound (sound.files path file found))
        (sound.keys path (by rw [found]; rfl))
      obtain ⟨kept, same⟩ := ih next
      refine ⟨kept, same.trans ?_⟩
      rw [visible_setFile, alike.contents]
      exact Function.update_eq_self_iff.mpr (by rw [visible, found]; rfl)

theorem Sound.replayed {renames : List (String × String)}
    (canonical : ∀ renamed ∈ renames, ∃ path, canonicalKey path = renamed.2) :
    let renamed := renames.foldl (fun fs (source, target) => fs.renameFile source target) fs
    renamed.Sound ∧ renamed.visible = fs.visible.replay renames := by
  induction renames generalizing fs with
  | nil => exact ⟨sound, rfl⟩
  | cons renamed renames ih =>
    obtain ⟨first, others⟩ := List.forall_mem_cons.mp canonical
    have next := ih (sound.renameFile renamed.1 first) others
    rw [visible_renameFile] at next
    exact next

theorem Sound.commitJournal : fs.commitJournal.Sound ∧ fs.commitJournal.visible =
      if fs.features.fsJournaling then fs.visible.replay fs.pendingRenames.entries else fs.visible := by
  unfold SimFs.commitJournal
  cases fs.features.fsJournaling with
  | false => exact ⟨sound, rfl⟩
  | true =>
    obtain ⟨settled, same⟩ := sound.settled fs.journal.entries
    dsimp only at settled same ⊢
    generalize fs.journal.entries.foldl _ fs = between at settled same ⊢
    have cleared : ({ between with journal := .empty, pendingRenames := .empty } : SimFs).Sound :=
      ⟨settled.files, settled.keys, nofun⟩
    obtain ⟨kept, moved⟩ := cleared.replayed sound.targets
    refine ⟨kept, moved.trans ?_⟩
    rw [if_pos rfl, ← same]
    rfl

theorem Sound.persistAll : fs.persistAll.Sound ∧ fs.persistAll.visible = fs.visible ∧
    fs.persistAll.durable = fs.visible := by
  have looked (key : String) : fs.persistAll.files.lookup key =
      (fs.files.lookup key).map File.persist := lookup_mapValues _ _ key
  refine ⟨⟨fun key file found => ?_, fun key => ?_, sound.targets⟩, funext fun key => ?_, funext fun key => ?_⟩
  · rw [looked, Option.map_eq_some_iff] at found
    obtain ⟨before, found, rfl⟩ := found
    exact (sound.files key before found).persist
  · rw [looked, Option.isSome_map]
    exact sound.keys key
  · rw [visible, looked, visible, Option.map_map]
    rfl
  · rw [durable, looked, visible]
    cases found : fs.files.lookup key with
    | none => rfl
    | some file => exact File.survivor_persist (sound.files key file found)

end Sound

end SimFs

namespace StorageCall

variable {fs : SimFs} (sound : fs.Sound)

/-- The namespace that is durable after a call that goes through, if only syncs move it. -/
def synced (fs : SimFs) (names : Names) : StorageCall → Names
  | fsync _ => fs.visible
  | fsyncPath _ path => Function.update names (canonicalKey path) (fs.visible (canonicalKey path))
  | _ => names

/-- A rename concerns no persisted file, and a barrier finds no rename to repeat. -/
def Spares (fs : SimFs) : StorageCall → Prop
  | rename _ source target => canonicalKey source ≠ canonicalKey target →
      ¬fs.Persisted (canonicalKey source) ∧ ¬fs.Persisted (canonicalKey target)
  | fsync _ => fs.features.fsJournaling = true → fs.visible.replay fs.pendingRenames.entries = fs.visible
  | _ => True

theorem fileFor_of_none {key : String} (absent : fs.files.lookup key = none) (id : EntryHash) :
    fs.fileFor key id = { File.default with createdBy := some id } := by
  rw [fileFor, absent]
  rfl

theorem fileFor_of_some {key : String} {file : File} (found : fs.files.lookup key = some file)
    (id : EntryHash) : fs.fileFor key id = file := by
  rw [fileFor, found]
  rfl

theorem survivor_fileFor (fs : SimFs) (key : String) (id : EntryHash) :
    (fs.fileFor key id).survivor = fs.durable key := by
  unfold durable
  cases found : fs.files.lookup key with
  | none => rw [fileFor_of_none found]; rfl
  | some file => rw [fileFor_of_some found]; rfl

theorem durable_rename_iff {source target : String} (present : fs.contains source = true)
    (differ : source ≠ target) :
    (fs.renameFile source target).durable = fs.durable ↔ ¬fs.Persisted source ∧ ¬fs.Persisted target := by
  obtain ⟨file, found⟩ := Option.isSome_iff_exists.mp present
  have held : file.survivor = fs.durable source := by rw [durable, found]; rfl
  rw [durable_renameFile found, ← durable_eq_none, ← durable_eq_none, held]
  constructor
  · intro same
    have atSource := congrFun same source
    have atTarget := congrFun same target
    rw [Function.update_of_ne differ, Function.update_self] at atSource
    rw [Function.update_self] at atTarget
    exact ⟨atSource.symm, atTarget ▸ atSource.symm⟩
  · rintro ⟨first, second⟩
    have idle : Function.update fs.durable source none = fs.durable :=
      Function.update_eq_self_iff.mpr first.symm
    rw [first, idle]
    exact Function.update_eq_self_iff.mpr second.symm

include sound

theorem sound_fileFor (path : String) (id : EntryHash) : (fs.fileFor (canonicalKey path) id).Sound := by
  cases found : fs.files.lookup (canonicalKey path) with
  | none => exact fileFor_of_none found id ▸ File.sound_default _
  | some file => exact fileFor_of_some found id ▸ sound.files _ file found

theorem sound_effect (call : StorageCall) (id : EntryHash) : (call.effect id fs).Sound := by
  cases call with
  | writeBytes actor path offset content =>
    simp only [effect, applyWrite, noteJournaled]
    by_cases empty : content.isEmpty
    · rw [if_pos empty]
      exact sound
    · have written := sound.setFile
        ((sound_fileFor sound path id).write offset.toNat (by simpa using empty) id) ⟨path, rfl⟩
      rw [if_neg empty]
      split
      · exact ⟨written.files, written.keys, written.targets⟩
      · exact written
  | allocate actor path => exact sound.setFile (File.sound_default _) ⟨path, rfl⟩
  | rename actor source target =>
    have renamed := sound.renameFile (canonicalKey source) ⟨target, rfl⟩
    simp only [effect]
    split
    · exact sound
    · split
      · refine ⟨renamed.files, renamed.keys, fun entry member => ?_⟩
        cases mem_insert.mp member with
        | inl added => exact ⟨target, by rw [added]⟩
        | inr listed => exact renamed.targets entry listed.2
      · exact renamed
  | fsync actor => exact sound.commitJournal.1.persistAll.1
  | fsyncPath actor path =>
    simp only [effect]
    cases found : fs.files.lookup (canonicalKey path) with
    | none => exact sound
    | some file => exact sound.setFile (sound.files _ file found).persist ⟨path, rfl⟩

theorem durable_effect_iff {call : StorageCall} (checked : call.check fs = .ok ()) (id : EntryHash) :
    (call.effect id fs).durable = call.synced fs fs.durable ↔ call.Spares fs := by
  cases call with
  | writeBytes actor path offset content =>
    have kept : (fs.setFile (canonicalKey path)
        ((fs.fileFor (canonicalKey path) id).write offset.toNat content id)).durable = fs.durable := by
      rw [durable_setFile]
      exact Function.update_eq_self_iff.mpr (survivor_fileFor fs (canonicalKey path) id)
    refine iff_of_true ?_ trivial
    simp only [effect, applyWrite, noteJournaled, synced]
    split
    · rfl
    · split <;> exact kept
  | allocate actor path =>
    simp only [check] at checked
    split_ifs at checked with present
    have absent : fs.durable (canonicalKey path) = none := by
      rw [durable, Option.not_isSome_iff_eq_none.mp present]
      rfl
    refine iff_of_true ?_ trivial
    rw [effect, durable_setFile]
    exact Function.update_eq_self_iff.mpr absent.symm
  | rename actor source target =>
    simp only [check] at checked
    split_ifs at checked with present
    simp only [effect, synced, Spares]
    by_cases same : canonicalKey source = canonicalKey target
    · rw [if_pos same]
      exact iff_of_true rfl fun differ => absurd same differ
    · rw [if_neg same, imp_iff_right same, ← durable_rename_iff present same]
      split <;> rfl
  | fsync actor =>
    obtain ⟨committed, seen⟩ := sound.commitJournal
    rw [effect, committed.persistAll.2.2, seen, synced, Spares]
    cases fs.features.fsJournaling <;> simp
  | fsyncPath actor path =>
    refine iff_of_true ?_ trivial
    simp only [effect, synced, visible]
    cases found : fs.files.lookup (canonicalKey path) with
    | none =>
      refine (Function.update_eq_self_iff.mpr ?_).symm
      rw [durable, found]
      rfl
    | some file =>
      rw [durable_setFile, File.survivor_persist (sound.files _ file found)]
      rfl

end StorageCall

/-! ## Runs -/

section Runs

variable (blake3 : Bytes → EntryHash)

/-- A call and, beside the storage, the namespace that its syncs have made durable. -/
def StorageCall.follow (state : (Journal × SimFs) × Names) (call : StorageCall) : (Journal × SimFs) × Names :=
  ((call.perform blake3 state.1).2,
    match (call.perform blake3 state.1).1 with
    | .ok _ => call.synced state.1.2 state.2
    | .error _ => state.2)

variable {blake3}

variable {state : Journal × SimFs}

theorem StorageCall.sound_perform (sound : state.2.Sound) (call : StorageCall) :
    (call.perform blake3 state).2.2.Sound := by
  by_cases passes : ∃ entry, call.Passes blake3 state.1 state.2 entry
  · obtain ⟨entry, passes⟩ := passes
    rw [perform_of_passes passes]
    exact sound_effect sound call entry.id
  · obtain ⟨fault, failed⟩ := perform_of_not_passes (not_exists.mp passes)
    rw [failed]
    exact sound

theorem StorageCall.sound_run (calls : List StorageCall)
    (sound : state.2.Sound) : (run blake3 calls state).2.Sound := by
  induction calls generalizing state with
  | nil => exact sound
  | cons call calls ih => exact ih (call.sound_perform sound)

theorem StorageCall.follow_cases (state : (Journal × SimFs) × Names) (call : StorageCall) :
    (∃ entry, call.Passes blake3 state.1.1 state.1.2 entry ∧
      (call.follow blake3 state).1.2 = call.effect entry.id state.1.2 ∧
      (call.follow blake3 state).2 = call.synced state.1.2 state.2) ∨
    (∀ entry, ¬call.Passes blake3 state.1.1 state.1.2 entry) ∧ call.follow blake3 state = state := by
  obtain ⟨⟨journal, fs⟩, names⟩ := state
  by_cases passes : ∃ entry, call.Passes blake3 journal fs entry
  · obtain ⟨entry, passes⟩ := passes
    have done := perform_of_passes passes
    exact .inl ⟨entry, passes, by simp [follow, done], by simp [follow, done]⟩
  · have stopped := not_exists.mp passes
    obtain ⟨fault, failed⟩ := perform_of_not_passes stopped
    exact .inr ⟨stopped, by simp [follow, failed]⟩

/-- An empty storage, with nothing durable. -/
def fresh (journal : Journal) (features : Features) (maxFileExtent : Nat)
    (maxResidentBytes : Option Nat) (mode : JournalingMode) : (Journal × SimFs) × Names :=
  ((journal, (withBudgets features maxFileExtent maxResidentBytes).setJournalingMode mode),
    fun _ => none)

variable (journal : Journal) (features : Features) (maxFileExtent : Nat)
  (maxResidentBytes : Option Nat) (mode : JournalingMode)

theorem sound_fresh : (fresh journal features maxFileExtent maxResidentBytes mode).1.2.Sound :=
  ⟨nofun, nofun, nofun⟩

/-- A crash after any prefix of a run finds what its syncs have made durable, exactly if no rename that
goes through concerns a persisted file and no barrier repeats a rename that shows. -/
theorem crash_finds_synced_iff (blake3 : Bytes → EntryHash) (calls : List StorageCall) :
    let start := fresh journal features maxFileExtent maxResidentBytes mode
    (∀ done rest, calls = done ++ rest →
        let state := done.foldl (follow blake3) start
        state.1.2.crash.visible = state.2) ↔
      ∀ done call rest, calls = done ++ call :: rest →
        let state := done.foldl (follow blake3) start
        ∀ entry, call.Passes blake3 state.1.1 state.1.2 entry → call.Spares state.1.2 := by
  have each (state : (Journal × SimFs) × Names) (call : StorageCall) (sound : state.1.2.Sound)
      (durable : state.1.2.crash.visible = state.2) :
      (call.follow blake3 state).1.2.crash.visible = (call.follow blake3 state).2 ↔
        ∀ entry, call.Passes blake3 state.1.1 state.1.2 entry → call.Spares state.1.2 := by
    rw [visible_crash] at durable ⊢
    cases follow_cases state call with
    | inl passed =>
      obtain ⟨entry, passes, storage, names⟩ := passed
      rw [storage, names, ← durable, durable_effect_iff sound passes.checked]
      exact ⟨fun spares _ _ => spares, fun spares => spares entry passes⟩
    | inr stopped =>
      rw [stopped.2]
      exact iff_of_true durable fun entry passes => absurd passes (stopped.1 entry)
  exact prefixes_iff (fun _ call sound => call.sound_perform sound) each (sound_fresh journal features maxFileExtent maxResidentBytes mode) rfl calls

/-- Nothing is left of a synced file once an unsynced one has been renamed to it. -/
theorem renamed_over_lost :
    let calls : List StorageCall := [.writeBytes ⟨0⟩ "/a" 0 [1], .fsync ⟨0⟩, .writeBytes ⟨0⟩ "/b" 0 [2],
      .rename ⟨0⟩ "/b" "/a"]
    let state := calls.foldl (follow checksum) (fresh .new ⟨false⟩ 16 none .data)
    (state.1.2.crash.visible "/a").isNone = true ∧ (state.2 "/a").isSome = true := by
  decide +kernel

/-- What a read finds, once the journal takes its entry. -/
def SimFs.look (fs : SimFs) (path : String) (window : Window) : ObservedRead :=
  match fs.visible (canonicalKey path) with
  | some contents => .present (contents window)
  | none => .missing

theorem SimFs.readBytes_looks {actor : ActorId} {path : String} {window : Window}
    {observed : ObservedRead}
    (returned : (readBytes blake3 actor path window.offset window.requestedLen state).1 = .ok observed) :
    observed = state.2.look path window := by
  obtain ⟨journal, fs⟩ := state
  rw [readBytes, if_neg (Nat.not_lt.mpr window.admitted), Action.get_bind] at returned
  dsimp only at returned ⊢
  rw [look, visible]
  cases found : fs.files.lookup (canonicalKey path) <;> rw [found] at returned <;> dsimp only at returned
  all_goals
    rw [Action.bind_pure_apply, except_map_eq_ok] at returned
    obtain ⟨_, -, rfl⟩ := returned
    rfl

theorem SimFs.Sound.look_iff {fs other : SimFs} (sound : fs.Sound) (otherSound : other.Sound) :
    (∀ path window, other.look path window = fs.look path window) ↔ other.visible = fs.visible := by
  constructor
  · intro same
    funext key
    by_cases named : ∃ path, canonicalKey path = key
    · obtain ⟨path, rfl⟩ := named
      have reads := same path
      simp only [look] at reads
      cases here : fs.visible (canonicalKey path) with
      | none =>
        cases there : other.visible (canonicalKey path) with
        | none => rfl
        | some contents => simpa [here, there] using reads ⟨0, 0, Nat.zero_le _⟩
      | some contents =>
        cases there : other.visible (canonicalKey path) with
        | none => simpa [here, there] using reads ⟨0, 0, Nat.zero_le _⟩
        | some others =>
          refine congrArg some (funext fun window => ObservedRead.present.inj ?_)
          simpa only [here, there] using reads window
    · have absent {fs : SimFs} (sound : fs.Sound) : fs.visible key = none := by
        rw [visible, Option.map_eq_none_iff, ← Option.not_isSome_iff_eq_none]
        exact fun present => named (sound.keys key present)
      rw [absent sound, absent otherSound]
  · intro same path window
    rw [look, same, look]

end Runs

end Ldgr.Sim
