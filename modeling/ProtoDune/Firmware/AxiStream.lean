import Mathlib.Logic.Function.Basic

/-!
# AXI streams of the programmable logic

A word of an AXI stream, and the registers of a master, which hold a word and
its `tValid`. `Data` stands for what a word carries besides `tLast` and
`tUser`.
-/

namespace ProtoDune.Firmware

structure AxiWord (Data User : Type*) where
  tData : Data
  tLast : Bool
  tUser : User
deriving DecidableEq

/-- `AxiStreamMasterType`. -/
structure AxiStreamMaster (Data User : Type*) extends AxiWord Data User where
  tValid : Bool
deriving DecidableEq

end ProtoDune.Firmware
