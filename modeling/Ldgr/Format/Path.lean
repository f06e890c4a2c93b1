import Ldgr.Format.Cbor.Encode
import Ldgr.Format.Limits

/-! Canonical path identity: opaque bytes, `/` separates, empty components and `.` vanish, `..` pops
one component and fails past the virtual root, NUL fails. -/

namespace Ldgr.Format

open Ldgr.Base

inductive PathError where
  | rootEscape
  | nulByte
  | tooLong
  deriving DecidableEq, Repr

namespace Path

def separator : UInt8 := 0x2f

def dot : UInt8 := 0x2e

/-- One component against the kept ones, last first. -/
def pushComponent (kept : List Bytes) (component : Bytes) : Except PathError (List Bytes) :=
  if component = [] ∨ component = [dot] then
    .ok kept
  else if component = [dot, dot] then
    match kept with
    | [] => .error .rootEscape
    | _ :: earlier => .ok earlier
  else
    .ok (component :: kept)

def join (components : List Bytes) : Bytes :=
  separator :: [separator].intercalate components

/-- The absolute virtual path; the length limit applies to the result. -/
def canonicalize (raw : Bytes) : Except PathError Bytes :=
  if 0 ∈ raw then
    .error .nulByte
  else do
    let kept ← (raw.splitOn separator).foldlM pushComponent []
    let canonical := join kept.reverse
    if maxCanonicalPathBytes < canonical.length then
      .error .tooLong
    else
      .ok canonical

end Path

/-- A canonicalized path with its raw 32-byte content address. -/
structure PathRef where
  pathHash : FixedBytes 32
  canonicalPath : Bytes
  deriving DecidableEq

def encodePathRef (pathRef : PathRef) : Bytes :=
  Cbor.array 2 ++ Cbor.bytes pathRef.pathHash.1 ++ Cbor.bytes pathRef.canonicalPath

end Ldgr.Format
