import Mathlib

/-! Hard format limits, enforced before content allocation. -/

namespace Ldgr.Format

/-- Outer format version; decoders reject anything else. -/
def formatVersion : UInt32 := 3

/-- Crash-semantics version bound by manifests and identities. -/
def crashSemanticsVersion : UInt32 := 1

def maxHeaderBytes : Nat := 1024 * 1024

def maxEntryBytes : Nat := 17 * 1024 * 1024

def maxParentsPerEntry : Nat := 4096

def maxVectorClockActors : Nat := 65536

def maxCompressedSegmentBytes : Nat := 256 * 1024 * 1024

def maxDecompressedSegmentBytes : Nat := 1024 * 1024 * 1024

def maxCanonicalPathBytes : Nat := 4096

def maxWriteBytes : Nat := 16 * 1024 * 1024

def maxReadBytes : Nat := 16 * 1024 * 1024

def maxFileExtentHard : Nat := 1024 * 1024 * 1024 * 1024

def maxMessageBytes : Nat := 1024 * 1024

def maxCanonicalValueDepth : Nat := 32

def maxCanonicalValueItems : Nat := 65536

def maxCanonicalValueStringBytes : Nat := 1024 * 1024

end Ldgr.Format
