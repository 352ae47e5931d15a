import ProtoDune.Firmware.WibLine
import ProtoDune.Lib.Crc

/-!
# `EthernetCRCD16B` and `EthernetCRCD32`

The two CRC engines of the line: 16 bits a clock cycle in the receiver and the
emulator, and up to 32 bits in the event builder. Each bit of the next register
is an equation; here an equation is the list of its terms.

Main results:

* `d16b_eq_run`, `d32_eq_run` — the equations are the CRC of Ethernet, bit by
  bit from the low bit of a word on.
* `engines_serial` — both engines, and a word of 32 bits against two of 16.
* `badCrc_iff` — the output `bad_crc` after the CRC was received.
-/

namespace ProtoDune.Firmware.EthernetCRC

open Crc

variable {n : Nat}

/-- Polynomial: (0 1 2 4 5 7 8 10 11 12 16 22 23 26 32). -/
def poly : BitVec 32 := 0x04c11db7

/-- The exclusive or of the bits of `v` at the places `is`. -/
def terms (v : BitVec n) (is : List Nat) : Bool := is.foldr (fun i b => v.getLsbD i ^^ b) false

/-- The next register: one equation for each bit, from `c(0)` on. -/
def assign (eqs : List (List Nat × List Nat)) (d : BitVec n) (c : BitVec 32) : BitVec 32 :=
  (BitVec.ofBoolListLE (eqs.map fun eq => terms d eq.1 ^^ terms c eq.2)).setWidth 32

/-- `EthernetCRCD16B`: the terms of `c(0)` to `c(31)` in `di` and in `c`. -/
def d16bEquations : List (List Nat × List Nat) :=
  [([12, 10, 9, 6, 0], [16, 22, 25, 26, 28]),
   ([13, 12, 11, 9, 7, 6, 1, 0], [16, 17, 22, 23, 25, 27, 28, 29]),
   ([14, 13, 9, 8, 7, 6, 2, 1, 0], [16, 17, 18, 22, 23, 24, 25, 29, 30]),
   ([15, 14, 10, 9, 8, 7, 3, 2, 1], [17, 18, 19, 23, 24, 25, 26, 30, 31]),
   ([15, 12, 11, 8, 6, 4, 3, 2, 0], [16, 18, 19, 20, 22, 24, 27, 28, 31]),
   ([13, 10, 7, 6, 5, 4, 3, 1, 0], [16, 17, 19, 20, 21, 22, 23, 26, 29]),
   ([14, 11, 8, 7, 6, 5, 4, 2, 1], [17, 18, 20, 21, 22, 23, 24, 27, 30]),
   ([15, 10, 8, 7, 5, 3, 2, 0], [16, 18, 19, 21, 23, 24, 26, 31]),
   ([12, 11, 10, 8, 4, 3, 1, 0], [16, 17, 19, 20, 24, 26, 27, 28]),
   ([13, 12, 11, 9, 5, 4, 2, 1], [17, 18, 20, 21, 25, 27, 28, 29]),
   ([14, 13, 9, 5, 3, 2, 0], [16, 18, 19, 21, 25, 29, 30]),
   ([15, 14, 12, 9, 4, 3, 1, 0], [16, 17, 19, 20, 25, 28, 30, 31]),
   ([15, 13, 12, 9, 6, 5, 4, 2, 1, 0], [16, 17, 18, 20, 21, 22, 25, 28, 29, 31]),
   ([14, 13, 10, 7, 6, 5, 3, 2, 1], [17, 18, 19, 21, 22, 23, 26, 29, 30]),
   ([15, 14, 11, 8, 7, 6, 4, 3, 2], [18, 19, 20, 22, 23, 24, 27, 30, 31]),
   ([15, 12, 9, 8, 7, 5, 4, 3], [19, 20, 21, 23, 24, 25, 28, 31]),
   ([13, 12, 8, 5, 4, 0], [0, 16, 20, 21, 24, 28, 29]),
   ([14, 13, 9, 6, 5, 1], [1, 17, 21, 22, 25, 29, 30]),
   ([15, 14, 10, 7, 6, 2], [2, 18, 22, 23, 26, 30, 31]),
   ([15, 11, 8, 7, 3], [3, 19, 23, 24, 27, 31]),
   ([12, 9, 8, 4], [4, 20, 24, 25, 28]),
   ([13, 10, 9, 5], [5, 21, 25, 26, 29]),
   ([14, 12, 11, 9, 0], [6, 16, 25, 27, 28, 30]),
   ([15, 13, 9, 6, 1, 0], [7, 16, 17, 22, 25, 29, 31]),
   ([14, 10, 7, 2, 1], [8, 17, 18, 23, 26, 30]),
   ([15, 11, 8, 3, 2], [9, 18, 19, 24, 27, 31]),
   ([10, 6, 4, 3, 0], [10, 16, 19, 20, 22, 26]),
   ([11, 7, 5, 4, 1], [11, 17, 20, 21, 23, 27]),
   ([12, 8, 6, 5, 2], [12, 18, 21, 22, 24, 28]),
   ([13, 9, 7, 6, 3], [13, 19, 22, 23, 25, 29]),
   ([14, 10, 8, 7, 4], [14, 20, 23, 24, 26, 30]),
   ([15, 11, 9, 8, 5], [15, 21, 24, 25, 27, 31])]

/-- `EthernetCRCD32`: the terms of `c(0)` to `c(31)` in `d` and in `c` when `byte_cnt = "01"`. -/
def d32Equations1 : List (List Nat × List Nat) :=
  [([7, 1], [30, 24]),
   ([7, 6, 1, 0], [31, 30, 25, 24]),
   ([7, 6, 5, 1, 0], [31, 30, 26, 25, 24]),
   ([6, 5, 4, 0], [31, 27, 26, 25]),
   ([7, 5, 4, 3, 1], [30, 28, 27, 26, 24]),
   ([7, 6, 4, 3, 2, 1, 0], [31, 30, 29, 28, 27, 25, 24]),
   ([6, 5, 3, 2, 1, 0], [31, 30, 29, 28, 26, 25]),
   ([7, 5, 4, 2, 0], [31, 29, 27, 26, 24]),
   ([7, 6, 4, 3], [28, 27, 25, 24, 0]),
   ([6, 5, 3, 2], [29, 28, 26, 25, 1]),
   ([7, 5, 4, 2], [29, 27, 26, 24, 2]),
   ([7, 6, 4, 3], [28, 27, 25, 24, 3]),
   ([7, 6, 5, 3, 2, 1], [30, 29, 28, 26, 25, 24, 4]),
   ([6, 5, 4, 2, 1, 0], [31, 30, 29, 27, 26, 25, 5]),
   ([5, 4, 3, 1, 0], [31, 30, 28, 27, 26, 6]),
   ([4, 3, 2, 0], [31, 29, 28, 27, 7]),
   ([7, 3, 2], [29, 28, 24, 8]),
   ([6, 2, 1], [30, 29, 25, 9]),
   ([5, 1, 0], [31, 30, 26, 10]),
   ([4, 0], [31, 27, 11]),
   ([3], [28, 12]),
   ([2], [29, 13]),
   ([7], [24, 14]),
   ([7, 6, 1], [30, 25, 24, 15]),
   ([6, 5, 0], [31, 26, 25, 16]),
   ([5, 4], [27, 26, 17]),
   ([7, 4, 3, 1], [30, 28, 27, 24, 18]),
   ([6, 3, 2, 0], [31, 29, 28, 25, 19]),
   ([5, 2, 1], [30, 29, 26, 20]),
   ([4, 1, 0], [31, 30, 27, 21]),
   ([3, 0], [31, 28, 22]),
   ([2], [29, 23])]

/-- The terms when `byte_cnt = "10"`. -/
def d32Equations2 : List (List Nat × List Nat) :=
  [([15, 9, 6, 5, 3], [28, 26, 25, 22, 16]),
   ([15, 14, 9, 8, 6, 4, 3, 2], [29, 28, 27, 25, 23, 22, 17, 16]),
   ([15, 14, 13, 9, 8, 7, 6, 2, 1], [30, 29, 25, 24, 23, 22, 18, 17, 16]),
   ([14, 13, 12, 8, 7, 6, 5, 1, 0], [31, 30, 26, 25, 24, 23, 19, 18, 17]),
   ([15, 13, 12, 11, 9, 7, 4, 3, 0], [31, 28, 27, 24, 22, 20, 19, 18, 16]),
   ([15, 14, 12, 11, 10, 9, 8, 5, 2], [29, 26, 23, 22, 21, 20, 19, 17, 16]),
   ([14, 13, 11, 10, 9, 8, 7, 4, 1], [30, 27, 24, 23, 22, 21, 20, 18, 17]),
   ([15, 13, 12, 10, 8, 7, 5, 0], [31, 26, 24, 23, 21, 19, 18, 16]),
   ([15, 14, 12, 11, 7, 5, 4, 3], [28, 27, 26, 24, 20, 19, 17, 16]),
   ([14, 13, 11, 10, 6, 4, 3, 2], [29, 28, 27, 25, 21, 20, 18, 17]),
   ([15, 13, 12, 10, 6, 2, 1], [30, 29, 25, 21, 19, 18, 16]),
   ([15, 14, 12, 11, 6, 3, 1, 0], [31, 30, 28, 25, 20, 19, 17, 16]),
   ([15, 14, 13, 11, 10, 9, 6, 3, 2, 0], [31, 29, 28, 25, 22, 21, 20, 18, 17, 16]),
   ([14, 13, 12, 10, 9, 8, 5, 2, 1], [30, 29, 26, 23, 22, 21, 19, 18, 17]),
   ([13, 12, 11, 9, 8, 7, 4, 1, 0], [31, 30, 27, 24, 23, 22, 20, 19, 18]),
   ([12, 11, 10, 8, 7, 6, 3, 0], [31, 28, 25, 24, 23, 21, 20, 19]),
   ([15, 11, 10, 7, 3, 2], [29, 28, 24, 21, 20, 16, 0]),
   ([14, 10, 9, 6, 2, 1], [30, 29, 25, 22, 21, 17, 1]),
   ([13, 9, 8, 5, 1, 0], [31, 30, 26, 23, 22, 18, 2]),
   ([12, 8, 7, 4, 0], [31, 27, 24, 23, 19, 3]),
   ([11, 7, 6, 3], [28, 25, 24, 20, 4]),
   ([10, 6, 5, 2], [29, 26, 25, 21, 5]),
   ([15, 6, 4, 3, 1], [30, 28, 27, 25, 16, 6]),
   ([15, 14, 9, 6, 2, 0], [31, 29, 25, 22, 17, 16, 7]),
   ([14, 13, 8, 5, 1], [30, 26, 23, 18, 17, 8]),
   ([13, 12, 7, 4, 0], [31, 27, 24, 19, 18, 9]),
   ([15, 12, 11, 9, 5], [26, 22, 20, 19, 16, 10]),
   ([14, 11, 10, 8, 4], [27, 23, 21, 20, 17, 11]),
   ([13, 10, 9, 7, 3], [28, 24, 22, 21, 18, 12]),
   ([12, 9, 8, 6, 2], [29, 25, 23, 22, 19, 13]),
   ([11, 8, 7, 5, 1], [30, 26, 24, 23, 20, 14]),
   ([10, 7, 6, 4, 0], [31, 27, 25, 24, 21, 15])]

/-- The terms when `byte_cnt = "11"`. -/
def d32Equations3 : List (List Nat × List Nat) :=
  [([23, 17, 14, 13, 11, 7], [24, 20, 18, 17, 14, 8]),
   ([23, 22, 17, 16, 14, 12, 11, 10, 7, 6], [25, 24, 21, 20, 19, 17, 15, 14, 9, 8]),
   ([23, 22, 21, 17, 16, 15, 14, 10, 9, 7, 6, 5], [26, 25, 24, 22, 21, 17, 16, 15, 14, 10, 9, 8]),
   ([22, 21, 20, 16, 15, 14, 13, 9, 8, 6, 5, 4], [27, 26, 25, 23, 22, 18, 17, 16, 15, 11, 10, 9]),
   ([23, 21, 20, 19, 17, 15, 12, 11, 8, 5, 4, 3], [28, 27, 26, 23, 20, 19, 16, 14, 12, 11, 10, 8]),
   ([23, 22, 20, 19, 18, 17, 16, 13, 10, 4, 3, 2], [29, 28, 27, 21, 18, 15, 14, 13, 12, 11, 9, 8]),
   ([22, 21, 19, 18, 17, 16, 15, 12, 9, 3, 2, 1], [30, 29, 28, 22, 19, 16, 15, 14, 13, 12, 10, 9]),
   ([23, 21, 20, 18, 16, 15, 13, 8, 7, 2, 1, 0], [31, 30, 29, 24, 23, 18, 16, 15, 13, 11, 10, 8]),
   ([23, 22, 20, 19, 15, 13, 12, 11, 6, 1, 0], [31, 30, 25, 20, 19, 18, 16, 12, 11, 9, 8]),
   ([22, 21, 19, 18, 14, 12, 11, 10, 5, 0], [31, 26, 21, 20, 19, 17, 13, 12, 10, 9]),
   ([23, 21, 20, 18, 14, 10, 9, 7, 4], [27, 24, 22, 21, 17, 13, 11, 10, 8]),
   ([23, 22, 20, 19, 14, 11, 9, 8, 7, 6, 3], [28, 25, 24, 23, 22, 20, 17, 12, 11, 9, 8]),
   ([23, 22, 21, 19, 18, 17, 14, 11, 10, 8, 6, 5, 2],
     [29, 26, 25, 23, 21, 20, 17, 14, 13, 12, 10, 9, 8]),
   ([22, 21, 20, 18, 17, 16, 13, 10, 9, 7, 5, 4, 1],
     [30, 27, 26, 24, 22, 21, 18, 15, 14, 13, 11, 10, 9]),
   ([21, 20, 19, 17, 16, 15, 12, 9, 8, 6, 4, 3, 0],
     [31, 28, 27, 25, 23, 22, 19, 16, 15, 14, 12, 11, 10]),
   ([20, 19, 18, 16, 15, 14, 11, 8, 7, 5, 3, 2], [29, 28, 26, 24, 23, 20, 17, 16, 15, 13, 12, 11]),
   ([23, 19, 18, 15, 11, 10, 6, 4, 2, 1], [30, 29, 27, 25, 21, 20, 16, 13, 12, 8]),
   ([22, 18, 17, 14, 10, 9, 5, 3, 1, 0], [31, 30, 28, 26, 22, 21, 17, 14, 13, 9]),
   ([21, 17, 16, 13, 9, 8, 4, 2, 0], [31, 29, 27, 23, 22, 18, 15, 14, 10]),
   ([20, 16, 15, 12, 8, 7, 3, 1], [30, 28, 24, 23, 19, 16, 15, 11]),
   ([19, 15, 14, 11, 7, 6, 2, 0], [31, 29, 25, 24, 20, 17, 16, 12]),
   ([18, 14, 13, 10, 6, 5, 1], [30, 26, 25, 21, 18, 17, 13]),
   ([23, 14, 12, 11, 9, 7, 5, 4, 0], [31, 27, 26, 24, 22, 20, 19, 17, 8]),
   ([23, 22, 17, 14, 10, 8, 7, 6, 4, 3], [28, 27, 25, 24, 23, 21, 17, 14, 9, 8]),
   ([22, 21, 16, 13, 9, 7, 6, 5, 3, 2], [29, 28, 26, 25, 24, 22, 18, 15, 10, 9, 0]),
   ([21, 20, 15, 12, 8, 6, 5, 4, 2, 1], [30, 29, 27, 26, 25, 23, 19, 16, 11, 10, 1]),
   ([23, 20, 19, 17, 13, 5, 4, 3, 1, 0], [31, 30, 28, 27, 26, 18, 14, 12, 11, 8, 2]),
   ([22, 19, 18, 16, 12, 4, 3, 2, 0], [31, 29, 28, 27, 19, 15, 13, 12, 9, 3]),
   ([21, 18, 17, 15, 11, 3, 2, 1], [30, 29, 28, 20, 16, 14, 13, 10, 4]),
   ([20, 17, 16, 14, 10, 2, 1, 0], [31, 30, 29, 21, 17, 15, 14, 11, 5]),
   ([19, 16, 15, 13, 9, 1, 0], [31, 30, 22, 18, 16, 15, 12, 6]),
   ([18, 15, 14, 12, 8, 0], [31, 23, 19, 17, 16, 13, 7])]

/-- The terms for the other values of `byte_cnt`. -/
def d32Equations4 : List (List Nat × List Nat) :=
  [([31, 25, 22, 21, 19, 15, 7, 6, 5, 3, 2, 1, 0],
     [31, 30, 29, 28, 26, 25, 24, 16, 12, 10, 9, 6, 0]),
   ([31, 30, 25, 24, 22, 20, 19, 18, 15, 14, 7, 4, 3],
     [28, 27, 24, 17, 16, 13, 12, 11, 9, 7, 6, 1, 0]),
   ([31, 30, 29, 25, 24, 23, 22, 18, 17, 15, 14, 13, 7, 5, 1, 0],
     [31, 30, 26, 24, 18, 17, 16, 14, 13, 9, 8, 7, 6, 2, 1, 0]),
   ([30, 29, 28, 24, 23, 22, 21, 17, 16, 14, 13, 12, 6, 4, 0],
     [31, 27, 25, 19, 18, 17, 15, 14, 10, 9, 8, 7, 3, 2, 1]),
   ([31, 29, 28, 27, 25, 23, 20, 19, 16, 13, 12, 11, 7, 6, 2, 1, 0],
     [31, 30, 29, 25, 24, 20, 19, 18, 15, 12, 11, 8, 6, 4, 3, 2, 0]),
   ([31, 30, 28, 27, 26, 25, 24, 21, 18, 12, 11, 10, 7, 3, 2],
     [29, 28, 24, 21, 20, 19, 13, 10, 7, 6, 5, 4, 3, 1, 0]),
   ([30, 29, 27, 26, 25, 24, 23, 20, 17, 11, 10, 9, 6, 2, 1],
     [30, 29, 25, 22, 21, 20, 14, 11, 8, 7, 6, 5, 4, 2, 1]),
   ([31, 29, 28, 26, 24, 23, 21, 16, 15, 10, 9, 8, 7, 6, 3, 2],
     [29, 28, 25, 24, 23, 22, 21, 16, 15, 10, 8, 7, 5, 3, 2, 0]),
   ([31, 30, 28, 27, 23, 21, 20, 19, 14, 9, 8, 3, 0],
     [31, 28, 23, 22, 17, 12, 11, 10, 8, 4, 3, 1, 0]),
   ([30, 29, 27, 26, 22, 20, 19, 18, 13, 8, 7, 2], [29, 24, 23, 18, 13, 12, 11, 9, 5, 4, 2, 1]),
   ([31, 29, 28, 26, 22, 18, 17, 15, 12, 5, 3, 2, 0],
     [31, 29, 28, 26, 19, 16, 14, 13, 9, 5, 3, 2, 0]),
   ([31, 30, 28, 27, 22, 19, 17, 16, 15, 14, 11, 7, 6, 5, 4, 3, 0],
     [31, 28, 27, 26, 25, 24, 20, 17, 16, 15, 14, 12, 9, 4, 3, 1, 0]),
   ([31, 30, 29, 27, 26, 25, 22, 19, 18, 16, 14, 13, 10, 7, 4, 1, 0],
     [31, 30, 27, 24, 21, 18, 17, 15, 13, 12, 9, 6, 5, 4, 2, 1, 0]),
   ([30, 29, 28, 26, 25, 24, 21, 18, 17, 15, 13, 12, 9, 6, 3, 0],
     [31, 28, 25, 22, 19, 18, 16, 14, 13, 10, 7, 6, 5, 3, 2, 1]),
   ([29, 28, 27, 25, 24, 23, 20, 17, 16, 14, 12, 11, 8, 5, 2],
     [29, 26, 23, 20, 19, 17, 15, 14, 11, 8, 7, 6, 4, 3, 2]),
   ([28, 27, 26, 24, 23, 22, 19, 16, 15, 13, 11, 10, 7, 4, 1],
     [30, 27, 24, 21, 20, 18, 16, 15, 12, 9, 8, 7, 5, 4, 3]),
   ([31, 27, 26, 23, 19, 18, 14, 12, 10, 9, 7, 5, 2, 1],
     [30, 29, 26, 24, 22, 21, 19, 17, 13, 12, 8, 5, 4, 0]),
   ([30, 26, 25, 22, 18, 17, 13, 11, 9, 8, 6, 4, 1, 0],
     [31, 30, 27, 25, 23, 22, 20, 18, 14, 13, 9, 6, 5, 1]),
   ([29, 25, 24, 21, 17, 16, 12, 10, 8, 7, 5, 3, 0],
     [31, 28, 26, 24, 23, 21, 19, 15, 14, 10, 7, 6, 2]),
   ([28, 24, 23, 20, 16, 15, 11, 9, 7, 6, 4, 2], [29, 27, 25, 24, 22, 20, 16, 15, 11, 8, 7, 3]),
   ([27, 23, 22, 19, 15, 14, 10, 8, 6, 5, 3, 1], [30, 28, 26, 25, 23, 21, 17, 16, 12, 9, 8, 4]),
   ([26, 22, 21, 18, 14, 13, 9, 7, 5, 4, 2, 0], [31, 29, 27, 26, 24, 22, 18, 17, 13, 10, 9, 5]),
   ([31, 22, 20, 19, 17, 15, 13, 12, 8, 7, 5, 4, 2, 0],
     [31, 29, 27, 26, 24, 23, 19, 18, 16, 14, 12, 11, 9, 0]),
   ([31, 30, 25, 22, 18, 16, 15, 14, 12, 11, 5, 4, 2, 0],
     [31, 29, 27, 26, 20, 19, 17, 16, 15, 13, 9, 6, 1, 0]),
   ([30, 29, 24, 21, 17, 15, 14, 13, 11, 10, 4, 3, 1],
     [30, 28, 27, 21, 20, 18, 17, 16, 14, 10, 7, 2, 1]),
   ([29, 28, 23, 20, 16, 14, 13, 12, 10, 9, 3, 2, 0],
     [31, 29, 28, 22, 21, 19, 18, 17, 15, 11, 8, 3, 2]),
   ([31, 28, 27, 25, 21, 13, 12, 11, 9, 8, 7, 6, 5, 3, 0],
     [31, 28, 26, 25, 24, 23, 22, 20, 19, 18, 10, 6, 4, 3, 0]),
   ([30, 27, 26, 24, 20, 12, 11, 10, 8, 7, 6, 5, 4, 2],
     [29, 27, 26, 25, 24, 23, 21, 20, 19, 11, 7, 5, 4, 1]),
   ([29, 26, 25, 23, 19, 11, 10, 9, 7, 6, 5, 4, 3, 1],
     [30, 28, 27, 26, 25, 24, 22, 21, 20, 12, 8, 6, 5, 2]),
   ([28, 25, 24, 22, 18, 10, 9, 8, 6, 5, 4, 3, 2, 0],
     [31, 29, 28, 27, 26, 25, 23, 22, 21, 13, 9, 7, 6, 3]),
   ([27, 24, 23, 21, 17, 9, 8, 7, 5, 4, 3, 2, 1],
     [30, 29, 28, 27, 26, 24, 23, 22, 14, 10, 8, 7, 4]),
   ([26, 23, 22, 20, 16, 8, 7, 6, 4, 3, 2, 1, 0],
     [31, 30, 29, 28, 27, 25, 24, 23, 15, 11, 9, 8, 5])]

/-- `EthernetCRCD16B`: the next register, with `di(i) = d(15-i)`. -/
def d16b (c : BitVec 32) (d : BitVec 16) : BitVec 32 := assign d16bEquations d.reverse c

/-- `EthernetCRCD32`: the next register. -/
def d32 (byteCnt : BitVec 2) (c d : BitVec 32) : BitVec 32 :=
  match byteCnt with
  | 0b01#2 => assign d32Equations1 d c
  | 0b10#2 => assign d32Equations2 d c
  | 0b11#2 => assign d32Equations3 d c
  | _ => assign d32Equations4 d c

/-- The output `crc`. -/
def crc (c : BitVec 32) : BitVec 32 := ~~~c.reverse

def crc_R : BitVec 32 := 0xc704dd7b

/-- The output `bad_crc`. -/
def badCrc (c : BitVec 32) : Bool := c != crc_R

/-- The engine of the receiver and of the emulator. -/
def d16bEngine : CrcEngine (BitVec 32) where
  seed := BitVec.allOnes 32
  next := d16b
  crc := crc

/-- How many bits of `d` are taken. -/
def dataBits (byteCnt : BitVec 2) : Nat := if byteCnt = 0 then 32 else 8 * byteCnt.toNat

/-! ## The equations -/

theorem terms_xor (v u : BitVec n) (is : List Nat) :
    terms (v ^^^ u) is = (terms v is ^^ terms u is) := by
  induction is with
  | nil => rfl
  | cons i is ih =>
    unfold terms at ih ⊢
    rw [List.foldr_cons, List.foldr_cons, List.foldr_cons, ih, BitVec.getLsbD_xor]
    simp [Bool.xor_left_comm]

theorem assign_xor (eqs : List (List Nat × List Nat)) (c b : BitVec 32) (d e : BitVec n) :
    assign eqs (d ^^^ e) (c ^^^ b) = assign eqs d c ^^^ assign eqs e b := by
  apply BitVec.eq_of_getLsbD_eq
  intro i hi
  simp only [assign, BitVec.getLsbD_xor, BitVec.getLsbD_setWidth, BitVec.getLsbD_ofBoolListLE,
    hi, decide_true, Bool.true_and, List.getD_eq_getElem?_getD, List.getElem?_map]
  cases eqs[i]? with
  | none => rfl
  | some eq =>
    simp only [Option.map_some, Option.getD_some, terms_xor]
    simp [Bool.xor_left_comm]

theorem d16b_xor (c b : BitVec 32) (d e : BitVec 16) :
    d16b (c ^^^ b) (d ^^^ e) = d16b c d ^^^ d16b b e := by
  have hrev : (d ^^^ e).reverse = d.reverse ^^^ e.reverse := by
    apply BitVec.eq_of_getLsbD_eq
    intro i _
    simp [BitVec.getLsbD_reverse]
  rw [d16b, hrev, assign_xor]
  rfl

theorem d32_xor (byteCnt : BitVec 2) (c b d e : BitVec 32) :
    d32 byteCnt (c ^^^ b) (d ^^^ e) = d32 byteCnt c d ^^^ d32 byteCnt b e := by
  unfold d32
  split <;> exact assign_xor _ _ _ _ _

theorem d16b_eq_run (c : BitVec 32) (d : BitVec 16) : d16b c d = run poly c (bitsLE d) := by
  have h : d16b c d = run poly c ((bitsLE d).take 16) :=
    eq_run_of_additive 16 d16b_xor (by decide +kernel) (by decide +kernel) c d
  rwa [List.take_of_length_le (by simp)] at h

theorem d32_eq_run (byteCnt : BitVec 2) (c d : BitVec 32) :
    d32 byteCnt c d = run poly c ((bitsLE d).take (dataBits byteCnt)) := by
  have hall : ∀ k : BitVec 2,
      (∀ i < 32, d32 k (BitVec.twoPow 32 i) 0#32 =
        run poly (BitVec.twoPow 32 i) ((bitsLE 0#32).take (dataBits k))) ∧
      (∀ i < 32, d32 k 0#32 (BitVec.twoPow 32 i) =
        run poly 0#32 ((bitsLE (BitVec.twoPow 32 i)).take (dataBits k))) := by
    decide +kernel
  exact eq_run_of_additive _ (d32_xor byteCnt) (hall byteCnt).1 (hall byteCnt).2 c d

/-- A word of 32 bits is two of 16, the low one first. -/
theorem d32_append (byteCnt : BitVec 2) (h : dataBits byteCnt = 32) (c : BitVec 32)
    (hi lo : BitVec 16) : d32 byteCnt c (hi ++ lo) = d16b (d16b c lo) hi := by
  rw [d32_eq_run, h, List.take_of_length_le (by simp), bitsLE_append, run_append, ← d16b_eq_run,
    ← d16b_eq_run]

/-- Both engines take the bits of a word one by one, from the low one on, and 32 bits at once are
two words of 16 bits. -/
theorem engines_serial (c : BitVec 32) :
    (∀ d, d16b c d = run poly c (bitsLE d)) ∧
      (∀ byteCnt d, d32 byteCnt c d = run poly c ((bitsLE d).take (dataBits byteCnt))) ∧
      (∀ byteCnt hi lo, dataBits byteCnt = 32 →
        d32 byteCnt c (hi ++ lo) = d16b (d16b c lo) hi) :=
  ⟨d16b_eq_run c, fun byteCnt => d32_eq_run byteCnt c,
    fun byteCnt hi lo h => d32_append byteCnt h c hi lo⟩

/-! ## The received CRC -/

theorem poly_low : poly.getLsbD 0 = true := by decide

theorem crc_R_eq : crc_R = run poly 0#32 (List.replicate 32 true) := by decide +kernel

/-- The output is sent low bit first, so the register leaves with its top bit first. -/
theorem bitsLE_crc (c : BitVec 32) : bitsLE (crc c) = (bitsBE c).map not := by
  apply List.ext_getElem
  · simp
  · intro i hi hi'
    have hlt : i < 32 := by simpa using hi
    simp [crc, -BitVec.getLsbD_eq_getElem, BitVec.getLsbD_reverse, hlt]

/-- The register after the words and a CRC is the residue if and only if this is the CRC of the
words. -/
theorem foldl_eq_residue_iff (c : BitVec 32) (ws : List (BitVec 16)) (hi lo : BitVec 16) :
    (ws ++ [lo, hi]).foldl d16b c = crc_R ↔ hi ++ lo = crc (ws.foldl d16b c) := by
  rw [List.foldl_append, foldl_eq_run d16b_eq_run _ [lo, hi]]
  simp only [List.flatMap_cons, List.flatMap_nil, List.append_nil]
  rw [← bitsLE_append, crc_R_eq, run_complement_iff poly_low (by simp), ← bitsLE_crc]
  exact ⟨bitsLE_injective, fun h => by rw [h]⟩

/-- After the words of a frame and the two halves of a CRC, `bad_crc` is clear if and only if the
CRC is the one of the words. -/
theorem badCrc_iff (ws : List (BitVec 16)) (hi lo : BitVec 16) :
    badCrc ((ws ++ [lo, hi]).foldl d16bEngine.next d16bEngine.seed) = false ↔
      hi ++ lo = d16bEngine.checksum ws := by
  rw [badCrc, bne_eq_false_iff_eq]
  exact foldl_eq_residue_iff _ ws hi lo

end ProtoDune.Firmware.EthernetCRC
