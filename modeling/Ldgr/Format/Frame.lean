import Ldgr.Base.Bytes
import Ldgr.Format.Limits

/-! Outer frame prefix of every independently readable durable container: magic, format version,
header length and flags, four bytes each. -/

namespace Ldgr.Format

open Ldgr.Base

def framePrefixLen : Nat := 16

/-- `LDGW`, WAL or journal stream. -/
def magicWal : Bytes := [0x4c, 0x44, 0x47, 0x57]

/-- `LDGM`, segment-store manifest. -/
def magicStoreManifest : Bytes := [0x4c, 0x44, 0x47, 0x4d]

/-- `LDGS`, sealed segment. -/
def magicSegment : Bytes := [0x4c, 0x44, 0x47, 0x53]

/-- `LDAR`, journal archive file. -/
def magicJournalArchive : Bytes := [0x4c, 0x44, 0x41, 0x52]

/-- `LDSN`, snapshot-store file. -/
def magicSnapshotStore : Bytes := [0x4c, 0x44, 0x53, 0x4e]

inductive FrameError where
  | wrongMagic
  | unsupportedVersion (version : UInt32)
  | reservedFlags (flags : UInt32)
  | headerTooLarge (length : UInt32)
  | truncatedFrame
  deriving DecidableEq

/-- How the error prints with its variant name and fields. -/
def FrameError.debug : FrameError → String
  | .wrongMagic => "WrongMagic"
  | .unsupportedVersion version => "UnsupportedVersion(" ++ toString version ++ ")"
  | .reservedFlags flags => "ReservedFlags(" ++ toString flags ++ ")"
  | .headerTooLarge length => "HeaderTooLarge(" ++ toString length ++ ")"
  | .truncatedFrame => "TruncatedFrame"

/-- A validated outer frame prefix. -/
structure FramePrefix where
  magic : Bytes
  formatVersion : UInt32
  headerLen : UInt32

def readU32Le (bytes : Bytes) (offset : Nat) : UInt32 :=
  UInt32.ofNat (leAt 4 bytes offset)

def encodePrefix (magic : Bytes) (headerLen : UInt32) : Bytes :=
  magic ++ leBytes 4 formatVersion.toNat ++ leBytes 4 headerLen.toNat ++ leBytes 4 0

def parsePrefix (bytes : Bytes) (expectedMagic : Bytes) : Except FrameError FramePrefix :=
  if bytes.length < framePrefixLen then .error .truncatedFrame
  else if bytes.take 4 ≠ expectedMagic then .error .wrongMagic
  else if readU32Le bytes 4 ≠ formatVersion then .error (.unsupportedVersion (readU32Le bytes 4))
  else if maxHeaderBytes < (readU32Le bytes 8).toNat then
    .error (.headerTooLarge (readU32Le bytes 8))
  else if readU32Le bytes 12 ≠ 0 then .error (.reservedFlags (readU32Le bytes 12))
  else
    .ok { magic := bytes.take 4, formatVersion := readU32Le bytes 4, headerLen := readU32Le bytes 8 }

theorem length_encodePrefix {magic : Bytes} (four : magic.length = 4) (headerLen : UInt32) :
    (encodePrefix magic headerLen).length = framePrefixLen := by
  simp [encodePrefix, four, framePrefixLen]

theorem readU32Le_append {front : Bytes} (rest : Bytes) {offset : Nat} (value : UInt32)
    (start : front.length = offset) :
    readU32Le (front ++ (leBytes 4 value.toNat ++ rest)) offset = value := by
  rw [readU32Le, leAt_append rest start value.toNat_lt, UInt32.ofNat_toNat]

theorem parsePrefix_encodePrefix {magic : Bytes} (four : magic.length = 4) {headerLen : UInt32}
    (small : headerLen.toNat ≤ maxHeaderBytes) (rest : Bytes) :
    parsePrefix (encodePrefix magic headerLen ++ rest) magic =
      .ok { magic, formatVersion := formatVersion, headerLen } := by
  have long : ¬ (encodePrefix magic headerLen ++ rest).length < framePrefixLen := by
    rw [List.length_append, length_encodePrefix four]
    omega
  have version : readU32Le (encodePrefix magic headerLen ++ rest) 4 = formatVersion := by
    simp only [encodePrefix, List.append_assoc]
    exact readU32Le_append _ formatVersion four
  have header : readU32Le (encodePrefix magic headerLen ++ rest) 8 = headerLen := by
    rw [encodePrefix, List.append_assoc, List.append_assoc, List.append_assoc, ← List.append_assoc]
    exact readU32Le_append _ headerLen (by simp [four])
  have flags : readU32Le (encodePrefix magic headerLen ++ rest) 12 = 0 := by
    rw [encodePrefix, List.append_assoc]
    exact readU32Le_append rest 0 (by simp [four])
  have found : (encodePrefix magic headerLen ++ rest).take 4 = magic := by
    simp only [encodePrefix, List.append_assoc]
    exact List.take_left' four
  simp only [parsePrefix, if_neg long, found, version, header, flags, if_neg (Nat.not_lt.mpr small),
    ne_eq, not_true_eq_false, if_false]

end Ldgr.Format
