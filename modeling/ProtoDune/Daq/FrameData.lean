import Mathlib.Algebra.Group.Nat.Defs

/-!
# `FrameBuffer.h`: what is read from the data of a frame

The words of a frame are followed by two trailer words, the first of which has the type
of the frame and of its record. What else is read depends on them.
-/

namespace ProtoDune.Daq

namespace FrameBuffer

/-- `FrameBuffer::Type::Data` -/
def TypeData : Nat := 1

namespace DataType

def WibFrame : Nat := 1
def Transposed : Nat := 2
def Compressed : Nat := 3

end DataType

/-- `getTrailer`, of the words `d64`. -/
def getTrailer (d64 : Nat → Nat) (nbytes : Nat) : Nat := d64 (nbytes / 8 - 2)

/-- `getFrameType` -/
def getFrameType (tlr : Nat) : Nat := tlr >>> 28 &&& 0xf

/-- `getDataType` -/
def getDataType (tlr : Nat) : Nat := tlr >>> 24 &&& 0xf

/-- `getWibIdentifier`; none when it is not found. -/
def getWibIdentifier (d64 : Nat → Nat) (nbytes : Nat) : Option Nat :=
  let tlr := getTrailer d64 nbytes
  if getFrameType tlr = TypeData then
    if getDataType tlr = DataType.WibFrame then some (d64 0 >>> 13 &&& 0x7ff)
    else if getDataType tlr = DataType.Compressed then some (d64 1 >>> 13 &&& 0x7ff)
    else none
  else none

/-- `getCsf`: the identifier with the slot and the crate exchanged. -/
def getCsf (d64 : Nat → Nat) (size : Nat) : Nat :=
  let wibId := (getWibIdentifier d64 size).getD 0x7ff
  let crate := wibId >>> 3 &&& 0x1f
  let slot := wibId >>> 8 &&& 0x07
  let fiber := wibId >>> 0 &&& 0x07
  crate <<< 6 ||| slot <<< 3 ||| fiber

/-- `getDataFormat`, from the first trailer word. -/
def getDataFormat (d64 : Nat → Nat) (size : Nat) : Nat := d64 (size / 8 - 2) >>> 24 &&& 0xf

end FrameBuffer

end ProtoDune.Daq
