import Ldgr.Format.EntryProperties
import Ldgr.Format.PathProperties

/-! Paths of decoded entries: the decoder asks that a path canonicalizes, not that it is canonical. -/

namespace Ldgr.Format

open Ldgr.Base Ldgr.Format.Cbor EntryPayload EntryData List Reader Format.Path

/-! ## What a reader returns -/

def Gives {α : Type} (read : ItemReader α) (post : α → Prop) : Prop :=
  ∀ input value rest, read input = .ok (value, rest) → post value

section Gives

variable {α β : Type} {post : α → Prop} {late : β → Prop}

theorem Gives.bind {read : ItemReader α} {next : α → ItemReader β} (first : Gives read post)
    (rest : ∀ value, post value → Gives (next value) late) : Gives (read >>= next) late := by
  intro input value left result
  obtain ⟨early, middle, before, after⟩ := bind_eq_ok.mp result
  exact rest early (first input early middle before) middle value left after

theorem gives_any (read : ItemReader α) : Gives read fun _ => True :=
  fun _ _ _ _ => trivial

theorem Gives.after {read : ItemReader α} {next : α → ItemReader β}
    (rest : ∀ value, Gives (next value) late) : Gives (read >>= next) late :=
  (gives_any read).bind fun value _ => rest value

theorem gives_pure {value : α} (holds : post value) : Gives (pure value) post := by
  intro input found rest result
  obtain ⟨rfl, _⟩ := pure_eq_ok.mp result
  exact holds

theorem gives_fail (fault : CborError) : Gives (fail fault : ItemReader α) post :=
  nofun

theorem gives_many {read : ItemReader α} (each : Gives read post) (count : Nat) :
    Gives (many read count) fun values => ∀ value ∈ values, post value := by
  induction count with
  | zero => exact gives_pure (forall_mem_nil _)
  | succ count ih =>
    exact each.bind fun value first => ih.bind fun values others =>
      gives_pure (forall_mem_cons.mpr ⟨first, others⟩)

end Gives

/-! ## Payloads -/

theorem decodePathRef_gives : Gives decodePathRef PathRef.Decodable := by
  refine .after fun count => .after fun _ => .after fun pathHash => .after fun path => ?_
  intro input pathRef rest result
  obtain ⟨canonical, middle, canonicalized, result⟩ := bind_eq_ok.mp result
  obtain ⟨_, _, required, result⟩ := bind_eq_ok.mp result
  obtain ⟨short, _⟩ := require_eq_ok.mp required
  obtain ⟨rfl, _⟩ := pure_eq_ok.mp result
  obtain ⟨canonicalizes, _⟩ := ofExcept_eq_ok.mp canonicalized
  exact ⟨⟨_, except_mapError_eq_ok.mp canonicalizes⟩, short⟩

theorem decodeFsWrite_gives : Gives decodeFsWrite fun write =>
    ∀ pathRef ∈ (fsWrite write).paths, pathRef.Decodable := by
  refine .after fun count => .after fun _ => .after fun discriminant => ?_
  split
  · exact .after fun _ => decodePathRef_gives.bind fun pathRef decodable => .after fun _ =>
      .after fun _ => gives_pure (by simpa [paths] using decodable)
  · exact .after fun _ => decodePathRef_gives.bind fun pathRef decodable =>
      gives_pure (by simpa [paths] using decodable)
  · exact .after fun _ => decodePathRef_gives.bind fun source first =>
      decodePathRef_gives.bind fun target second =>
        gives_pure (by simpa [paths] using ⟨first, second⟩)
  · exact gives_fail _

theorem decodeFsRead_gives : Gives decodeFsRead fun read =>
    ∀ pathRef ∈ (fsRead read).paths, pathRef.Decodable :=
  .after fun _ => .after fun _ => decodePathRef_gives.bind fun pathRef decodable => .after fun _ =>
    .after fun _ => .after fun _ => gives_pure (by simpa [paths] using decodable)

def CrashOperation.paths : CrashOperation → List PathRef
  | .dropPaths paths => paths
  | _ => []

theorem decodeCrashOperation_gives : Gives decodeCrashOperation fun crash =>
    ∀ pathRef ∈ crash.paths, pathRef.Decodable := by
  refine .after fun count => .after fun _ => .after fun discriminant => ?_
  split
  · exact gives_pure (forall_mem_nil _)
  · have listed : Gives (readArray >>= many decodePathRef) fun paths =>
        ∀ pathRef ∈ paths, pathRef.Decodable := .after fun count => gives_many decodePathRef_gives count
    exact listed.bind fun paths decodable => gives_pure decodable
  · exact .after fun _ => .after fun _ => gives_pure (forall_mem_nil _)
  · exact .after fun _ => .after fun _ => .after fun _ => gives_pure (forall_mem_nil _)
  · exact .after fun _ => .after fun _ => .after fun _ => gives_pure (forall_mem_nil _)
  · exact gives_fail _

theorem paths_crashActor (actor : ActorId) (crash : CrashOperation) :
    (fault (.crashActor actor crash)).paths = crash.paths := by
  cases crash <;> rfl

theorem decodeFaultPayload_gives : Gives decodeFaultPayload fun injected =>
    ∀ pathRef ∈ (fault injected).paths, pathRef.Decodable := by
  refine .after fun count => .after fun _ => .after fun discriminant => ?_
  split
  · exact .after fun _ => gives_pure (forall_mem_nil _)
  · exact .after fun _ => .after fun _ => gives_pure (forall_mem_nil _)
  · exact .after fun _ => .after fun _ => gives_pure (forall_mem_nil _)
  · exact .after fun _ => .after fun _ => .after fun _ => gives_pure (forall_mem_nil _)
  · exact .after fun _ => .after fun _ => .after fun _ => gives_pure (forall_mem_nil _)
  · refine .after fun actor => decodeCrashOperation_gives.bind fun crash decodable => gives_pure ?_
    rw [paths_crashActor]
    exact decodable
  · exact gives_fail _

theorem decodePayload_gives (kind : EntryKind) : Gives (decodePayload kind) fun payload =>
    ∀ pathRef ∈ payload.paths, pathRef.Decodable := by
  cases kind with
  | fsWrite => exact decodeFsWrite_gives.bind fun write decodable => gives_pure decodable
  | fsFsync =>
    have field : Gives (readFields 1 "FsFsync payload must have 1 item" decodePathRef)
        PathRef.Decodable := .after fun _ => .after fun _ => decodePathRef_gives
    exact field.bind fun pathRef decodable =>
      gives_pure (by simpa [paths] using decodable)
  | fsRead => exact decodeFsRead_gives.bind fun read decodable => gives_pure decodable
  | fault => exact decodeFaultPayload_gives.bind fun injected decodable => gives_pure decodable
  | _ => exact .after fun _ => gives_pure (forall_mem_nil _)

theorem EntryData.decodable_of_decoded {input : Bytes} {data : EntryData}
    (decoded : fromCanonicalBytes input = .ok data) :
    ∀ pathRef ∈ data.payload.paths, pathRef.Decodable := by
  have entry : Gives decodeEntry fun data => ∀ pathRef ∈ data.payload.paths, pathRef.Decodable :=
    .after fun _ => .after fun _ => .after fun _ => .after fun _ => .after fun kind => .after fun _ =>
      .after fun _ => .after fun _ => .after fun _ => (decodePayload_gives kind).bind
        fun payload decodable => gives_pure decodable
  unfold fromCanonicalBytes at decoded
  split at decoded
  · cases decoded
  · obtain ⟨⟨found, rest⟩, read, decoded⟩ := except_bind_eq_ok.mp decoded
    have holds := entry input found rest read
    dsimp only at decoded
    split at decoded
    · cases decoded
      exact holds
    · cases decoded

/-! ## Canonical paths -/

/-- The spelling of a canonical path: absolute, each component standing for itself. -/
structure Path.Spelled (path : Bytes) : Prop where
  absolute : path.head? = some separator
  components : path ≠ [separator] → ∀ component ∈ path.tail.splitOn separator, Plain component

theorem Path.normal_of_spelled {path : Bytes} (spelled : Spelled path) (clean : 0 ∉ path)
    (short : path.length ≤ maxCanonicalPathBytes) : Normal path := by
  refine ⟨spelled.absolute, clean, spelled.components, fun beyond last => ?_, short⟩
  exact absurd last (unterminated_of_components beyond (spelled.components beyond))

theorem Path.canonicalize_self_iff_spelled {pathRef : PathRef} (decodable : pathRef.Decodable) :
    canonicalize pathRef.canonicalPath = .ok pathRef.canonicalPath ↔ Spelled pathRef.canonicalPath := by
  obtain ⟨canonical, canonicalizes⟩ := decodable.canonicalizes
  have clean := (canonicalize_eq_ok.mp canonicalizes).1
  rw [canonicalize_self_iff]
  constructor
  · intro normal
    exact ⟨normal.absolute, normal.components⟩
  · intro spelled
    exact normal_of_spelled spelled clean decodable.short

/-- Of the paths a decoded entry carries, exactly those spelled canonically are canonical, and two of
these that name one file are the same bytes. -/
theorem EntryData.decodedPaths_canonical_iff {input : Bytes} {data : EntryData}
    (decoded : fromCanonicalBytes input = .ok data) :
    ((∀ pathRef ∈ data.payload.paths, canonicalize pathRef.canonicalPath = .ok pathRef.canonicalPath) ↔
      ∀ pathRef ∈ data.payload.paths, Path.Spelled pathRef.canonicalPath) ∧
    ∀ {otherInput : Bytes} {other : EntryData}, fromCanonicalBytes otherInput = .ok other →
      ∀ left ∈ data.payload.paths, ∀ right ∈ other.payload.paths,
        Path.Spelled left.canonicalPath → Path.Spelled right.canonicalPath →
        canonicalize left.canonicalPath = canonicalize right.canonicalPath →
        left.canonicalPath = right.canonicalPath := by
  have decodable := decodable_of_decoded decoded
  refine ⟨forall₂_congr fun pathRef member =>
    canonicalize_self_iff_spelled (decodable pathRef member), ?_⟩
  intro otherInput other otherDecoded left leftMember right rightMember leftSpelled rightSpelled same
  rw [(canonicalize_self_iff_spelled (decodable left leftMember)).mpr leftSpelled,
    (canonicalize_self_iff_spelled
      (decodable_of_decoded otherDecoded right rightMember)).mpr rightSpelled] at same
  exact Except.ok.inj same

/-! ## Samples -/

/-- A sync of the file at `path`, with the path as it is given. -/
def syncOf (path : Bytes) : EntryData where
  formatVersion := formatVersion
  kind := .fsFsync
  actor := ⟨1⟩
  parents := []
  vectorClock := []
  sequence := 0
  payload := .fsFsync ⟨⟨replicate 32 0, length_replicate⟩, path⟩

theorem syncOf_decoded {path canonical : Bytes} (canonicalizes : canonicalize path = .ok canonical)
    (short : path.length ≤ maxCanonicalPathBytes) {encoded : Bytes}
    (encodes : (syncOf path).tryCanonicalBytes = .ok encoded) :
    fromCanonicalBytes encoded = .ok (syncOf path) := by
  have decodable : ∀ pathRef ∈ (syncOf path).payload.paths, pathRef.Decodable := by
    intro pathRef member
    obtain rfl := mem_singleton.mp member
    exact ⟨⟨canonical, canonicalizes⟩, short⟩
  exact fromCanonicalBytes_of_valid
    ⟨rfl, Nat.zero_le _, Nat.zero_le _, rfl, decodable, nofun, nofun, nofun⟩ encodes

theorem plainSync_canonical : ∃ encoded, fromCanonicalBytes encoded = .ok (syncOf [0x2f, 0x62]) ∧
    ∀ pathRef ∈ (syncOf [0x2f, 0x62]).payload.paths,
      canonicalize pathRef.canonicalPath = .ok pathRef.canonicalPath := by
  cases encodes : (syncOf [0x2f, 0x62]).tryCanonicalBytes with
  | error fault =>
    have encodable : (syncOf [0x2f, 0x62]).tryCanonicalBytes.toOption.isSome = true := by decide +kernel
    simp [encodes, Except.toOption] at encodable
  | ok encoded =>
    have decoded := syncOf_decoded rfl (by decide) encodes
    refine ⟨encoded, decoded, (decodedPaths_canonical_iff decoded).1.mpr ?_⟩
    intro pathRef member
    obtain rfl := mem_singleton.mp member
    refine ⟨rfl, fun _ component listed => ?_⟩
    obtain rfl : component = [0x62] := mem_singleton.mp listed
    exact ⟨by decide, by decide, by decide⟩

/-- `/a/../b` is accepted next to `/b`, the canonical path of the same file. -/
theorem dottedSync_accepted : (∃ encoded, fromCanonicalBytes encoded =
      .ok (syncOf [0x2f, 0x61, 0x2f, 0x2e, 0x2e, 0x2f, 0x62])) ∧
    (∃ pathRef ∈ (syncOf [0x2f, 0x61, 0x2f, 0x2e, 0x2e, 0x2f, 0x62]).payload.paths,
      canonicalize pathRef.canonicalPath ≠ .ok pathRef.canonicalPath) ∧
    canonicalize [0x2f, 0x61, 0x2f, 0x2e, 0x2e, 0x2f, 0x62] = canonicalize [0x2f, 0x62] := by
  refine ⟨?_, ⟨_, mem_singleton_self _, ?_⟩, ?_⟩
  · cases encodes : (syncOf [0x2f, 0x61, 0x2f, 0x2e, 0x2e, 0x2f, 0x62]).tryCanonicalBytes with
    | error fault =>
      have encodable : (syncOf [0x2f, 0x61, 0x2f, 0x2e, 0x2e, 0x2f, 0x62]).tryCanonicalBytes.toOption.isSome =
        true := by decide +kernel
      simp [encodes, Except.toOption] at encodable
    | ok encoded => exact ⟨encoded, syncOf_decoded rfl (by decide) encodes⟩
  · decide
  · decide

end Ldgr.Format
