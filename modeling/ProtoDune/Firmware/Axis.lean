import ProtoDune.Lib.Bits

/-!
# `Axis.h`, `Frame.h`: the output stream and the packet framing

Words go to the output stream by `commit`; `epilogue` ends a packet with its
identifier and trailer words.
-/

namespace ProtoDune.Firmware

/-- A word of the output stream, `AxisOut_t`; `strb`, `id` and `dest` are 0. -/
structure AxisOut where
  data : BitVec 64
  keep : BitVec 8
  user : BitVec 4
  last : Bool
deriving DecidableEq

/-- `1 << AxisUserFirst::Sof`. -/
def axisSof : BitVec 4 := 1 <<< 1

/-- `commit`: append a word and count it, if `write`. -/
def commit (axis : List AxisOut) (odx : Nat) (write : Bool) (data : BitVec 64) (user : BitVec 4)
    (last : Bool) : List AxisOut × Nat :=
  if write then (axis ++ [⟨data, 0xff, user, last⟩], odx + 1) else (axis, odx)

/-- `Identifier::DataType`. -/
inductive DataType where
  | RESERVED
  | WIB
  | TRANSPOSED
  | COMPRESSED

def DataType.code : DataType → Nat
  | .RESERVED => 0
  | .WIB => 1
  | .TRANSPOSED => 2
  | .COMPRESSED => 3

/-- `Identifier::identifier` of a data frame. -/
def identifier (dataType : DataType) (nbytes : Nat) : BitVec 32 :=
  1#32 <<< 28 ||| BitVec.ofNat 32 dataType.code <<< 24 ||| BitVec.ofNat 32 nbytes

/-- `Trailer::trailer`, for the version 1.0.0.0. -/
def trailer : BitVec 64 := 0x708b309e#64 <<< 32 ||| 1#64 <<< 24

/-- The word before the trailer: the status, and the identifier. -/
def statusId (dataType : DataType) (status : BitVec 32) (nbytes : Nat) : BitVec 64 :=
  status.setWidth 64 <<< 32 ||| (identifier dataType nbytes).setWidth 64

/-- `epilogue`: the two words that end a packet. -/
def epilogue (axis : List AxisOut) (odx : Nat) (dataType : DataType) (status : BitVec 32) :
    List AxisOut × Nat :=
  let nbytes := odx * 8 + 8 + 8
  let (axis, odx) := commit axis odx true (statusId dataType status nbytes) 0 false
  commit axis odx true trailer 0 true

/-- The words that end a packet of `n` words. -/
def epilogueWords (dataType : DataType) (status : BitVec 32) (n : Nat) : List AxisOut :=
  [⟨statusId dataType status (n * 8 + 16), 0xff, 0, false⟩, ⟨trailer, 0xff, 0, true⟩]

theorem epilogueWords_getElem {dataType : DataType} {status : BitVec 32} {n j : Nat}
    {w : AxisOut} (h : (epilogueWords dataType status n)[j]? = some w) :
    (j = 0 ∧ w = ⟨statusId dataType status (n * 8 + 16), 0xff, 0, false⟩) ∨
      (j = 1 ∧ w = ⟨trailer, 0xff, 0, true⟩) := by
  cases j with
  | zero => exact .inl ⟨rfl, (Option.some.inj h).symm⟩
  | succ j =>
      cases j with
      | zero => exact .inr ⟨rfl, (Option.some.inj h).symm⟩
      | succ j => exact absurd h (by simp [epilogueWords])

theorem epilogue_eq (axis : List AxisOut) (odx : Nat) (dataType : DataType) (status : BitVec 32) :
    epilogue axis odx dataType status =
      (axis ++ epilogueWords dataType status odx, odx + 2) := by
  simp [epilogue, commit, epilogueWords]

end ProtoDune.Firmware
