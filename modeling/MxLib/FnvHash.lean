import MxLib.Defines

/-!
# FNV-1a

The hash the mask of a frame is made from.
-/

namespace MxLib

def fnv1a32Init : UInt32 := 0x811C9DC5

/-- `fnv_32a_buf` -/
def fnv32aBuf (buf : List Byte) (hval : UInt32) : UInt32 :=
  buf.foldl (fun hval bp =>
    let hval := hval ^^^ bp.toUInt32
    hval + ((hval <<< 1) + (hval <<< 4) + (hval <<< 7) + (hval <<< 8) + (hval <<< 24))) hval

/-- The bytes of a `DWORD` in memory. -/
def dwordBytes (dw : UInt32) : List Byte :=
  [dw.toUInt8, (dw >>> 8).toUInt8, (dw >>> 16).toUInt8, (dw >>> 24).toUInt8]

/-- The bytes of a pointer in memory. -/
def pointerBytes (p : UInt64) : List Byte :=
  [p.toUInt8, (p >>> 8).toUInt8, (p >>> 16).toUInt8, (p >>> 24).toUInt8,
    (p >>> 32).toUInt8, (p >>> 40).toUInt8, (p >>> 48).toUInt8, (p >>> 56).toUInt8]

end MxLib
