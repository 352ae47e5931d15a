import Mathlib.Tactic.IntervalCases
import ProtoDune.Lib.Bits
import ProtoDune.Lib.BitTree

/-!
# `BTE.cpp`: binary tree encoding of a word

The pattern word holds the levels of the tree above the bits of the word; pattern
and word are coded two bits at a time.

Main results:

* `wordPairs_eq` — pattern and word spell the tree from the root down.
* `encode_spec` — the encoder appends the codes of a word's pairs.
* `wordSize_spec` — the scheme is a best one, and the size is what it emits.
-/

namespace ProtoDune.Firmware.BTE

open BitString BitTree

/-- The body of the loop of `encode`. -/
def encodeStep (e w p1 p3 : BitVec 32) : BitVec 32 :=
  let x := w &&& 0xc0000000#32
  if x ≠ 0#32 then
    if x = p1 then e <<< 1
    else
      let e := e <<< 2
      let e := e ||| 2#32
      if x = p3 then e ||| 1#32 else e
  else e

/-- The loop of `encode`: `k` passes are still to come. -/
def encodeLoop (p1 p3 : BitVec 32) : Nat → BitVec 32 → BitVec 32 → BitVec 32
  | 0, e, _ => e
  | k + 1, e, w => encodeLoop p1 p3 k (encodeStep e w p1 p3) (w <<< 2)

def encode (e w p1 p3 : BitVec 32) : BitVec 32 :=
  encodeLoop p1 p3 16 e w

/-- The pattern that has the code `11`. -/
def pattern3 (scheme : BitVec 32) : BitVec 32 :=
  if scheme = 3#32 then 0x80000000#32 else 0xc0000000#32

/-- Pattern and word encoded, right justified. -/
def encodeWords (w p scheme : BitVec 32) : BitVec 32 :=
  let p3 := pattern3 scheme
  let scheme := scheme <<< 30
  let e := encode 0#32 p scheme p3
  encode e w scheme p3

/-- `BTE_wordEncode`. -/
def wordEncode (w p schemeSize : BitVec 32) : BitVec 32 :=
  let scheme := schemeSize >>> 16
  if scheme = 0#32 then w
  else
    let e := encodeWords w p scheme
    -- left justify the encoded word
    e <<< (32#32 - (schemeSize &&& 0xffff#32)).toNat

/-- The pattern of `BTE_wordPrepare`, from the words that hold the ORs. -/
def gather (l1 l2 l3 l4 : BitVec 32) : BitVec 32 :=
  -- halfword level
  let p := (l1 >>> 15 &&& 2#32 ||| l1 &&& 1#32) <<< 30
  -- byte level
  let p := p ||| (l2 >>> (24 - 3) &&& 0x8#32
    ||| l2 >>> (16 - 2) &&& 0x4#32
    ||| l2 >>> (8 - 1) &&& 0x2#32
    ||| l2 >>> 0 &&& 0x1#32) <<< 26
  -- nibble level
  let p := p ||| (l3 >>> (28 - 7) &&& 0x80#32
    ||| l3 >>> (24 - 6) &&& 0x40#32
    ||| l3 >>> (20 - 5) &&& 0x20#32
    ||| l3 >>> (16 - 4) &&& 0x10#32
    ||| l3 >>> (12 - 3) &&& 0x08#32
    ||| l3 >>> (8 - 2) &&& 0x04#32
    ||| l3 >>> (4 - 1) &&& 0x02#32
    ||| l3 >>> 0 &&& 0x01#32) <<< 18
  -- 2-bit level
  p ||| (l4 >>> (30 - 15) &&& 0x8000#32
    ||| l4 >>> (28 - 14) &&& 0x4000#32
    ||| l4 >>> (26 - 13) &&& 0x2000#32
    ||| l4 >>> (24 - 12) &&& 0x1000#32
    ||| l4 >>> (22 - 11) &&& 0x0800#32
    ||| l4 >>> (20 - 10) &&& 0x0400#32
    ||| l4 >>> (18 - 9) &&& 0x0200#32
    ||| l4 >>> (16 - 8) &&& 0x0100#32
    ||| l4 >>> (14 - 7) &&& 0x0080#32
    ||| l4 >>> (12 - 6) &&& 0x0040#32
    ||| l4 >>> (10 - 5) &&& 0x0020#32
    ||| l4 >>> (8 - 4) &&& 0x0010#32
    ||| l4 >>> (6 - 3) &&& 0x0008#32
    ||| l4 >>> (4 - 2) &&& 0x0004#32
    ||| l4 >>> (2 - 1) &&& 0x0002#32
    ||| l4 >>> 0 &&& 0x0001#32) <<< 2

/-- `BTE_wordPrepare`. -/
def wordPrepare (w : BitVec 32) : BitVec 32 :=
  let l5 := w
  let l4 := l5 ||| l5 >>> 1
  let l3 := l4 ||| l4 >>> 2
  let l2 := l3 ||| l3 >>> 4
  let l1 := l2 ||| l2 >>> 8
  gather l1 l2 l3 l4

/-- The loop of `BTE_wordSize`: a byte of `cnts` for each value of two bits. -/
def countLoop : Nat → Nat → BitVec 32 → BitVec 32 → Nat
  | 0, cnts, _, _ => cnts
  | k + 1, cnts, p, w =>
    let x := p &&& 3#32
    let y := w &&& 3#32
    let cnts := cnts + 1 <<< (8 * x.toNat)
    let cnts := cnts + 1 <<< (8 * y.toNat)
    countLoop k cnts (p >>> 2) (w >>> 2)

/-- `tot < min ? (scheme = s, tot) : min`, on the pair of scheme and minimum. -/
def better (s tot : Nat) (best : Nat × Nat) : Nat × Nat :=
  if tot < best.2 then (s, tot) else best

/-- `BTE_wordSize`: scheme and size packed. -/
def wordSize (w p : BitVec 32) : BitVec 32 :=
  if w = 0#32 then 32#32
  else
    let cnts := countLoop 16 0 p w
    let cnt01 := cnts >>> 8 &&& 0xff
    let cnt10 := cnts >>> 16 &&& 0xff
    let cnt11 := cnts >>> 24 &&& 0xff
    let tot01 := cnt01 + 2 * (cnt10 + cnt11)
    let tot10 := cnt10 + 2 * (cnt11 + cnt01)
    let tot11 := cnt11 + 2 * (cnt01 + cnt10)
    let best := if 32 < tot01 then (0, 32) else (1, tot01)
    let best := better 3 tot11 (better 2 tot10 best)
    BitVec.ofNat 32 best.1 <<< 16 ||| BitVec.ofNat 32 best.2

/-- `BTE_scheme`. -/
def scheme (schemeSize : BitVec 32) : BitVec 32 := schemeSize >>> 16

/-- `BTE_size`. -/
def size (schemeSize : BitVec 32) : BitVec 32 := schemeSize &&& 0xffff#32

/-! ## The pattern -/

/-- The bits of the word, as the leaves of its tree. -/
abbrev leaves (w : BitVec 32) : Nat → Bool := w.getLsbD

/-- One level of OR-folding. -/
theorem fold_node {leaf : Nat → Bool} {l : BitVec 32} {k : Nat}
    (h : ∀ q, l.getLsbD (2 ^ k * q) = node leaf k q) (q : Nat) :
    (l ||| l >>> 2 ^ k).getLsbD (2 ^ (k + 1) * q) = node leaf (k + 1) q := by
  rw [BitVec.getLsbD_or, BitVec.getLsbD_ushiftRight, node, ← h, ← h, Bool.or_comm, Nat.pow_succ]
  congr 2 <;> ring

/-- The levels of the pattern, from the top: each has its nodes in a field. -/
theorem gather_getLsbD (l1 l2 l3 l4 : BitVec 32) :
    (∀ q < 2, (gather l1 l2 l3 l4).getLsbD (30 + q) = l1.getLsbD (2 ^ 4 * q))
      ∧ (∀ q < 4, (gather l1 l2 l3 l4).getLsbD (26 + q) = l2.getLsbD (2 ^ 3 * q))
      ∧ (∀ q < 8, (gather l1 l2 l3 l4).getLsbD (18 + q) = l3.getLsbD (2 ^ 2 * q))
      ∧ (∀ q < 16, (gather l1 l2 l3 l4).getLsbD (2 + q) = l4.getLsbD (2 ^ 1 * q))
      ∧ (∀ q < 2, (gather l1 l2 l3 l4).getLsbD q = false) := by
  refine ⟨fun q hq => ?_, fun q hq => ?_, fun q hq => ?_, fun q hq => ?_, fun q hq => ?_⟩ <;>
    interval_cases q <;>
    simp [gather]

/-- The pattern holds the levels above the leaves, the root's children first. -/
theorem wordPrepare_pairs (w : BitVec 32) :
    levelPairs (leaves (wordPrepare w)) 0 16
      = levelPairs (leaves w) 4 1 ++ (levelPairs (leaves w) 3 2 ++ (levelPairs (leaves w) 2 4
        ++ (levelPairs (leaves w) 1 8 ++ [0]))) := by
  have h0 : ∀ q, w.getLsbD (2 ^ 0 * q) = node (leaves w) 0 q := fun q => by
    rw [Nat.pow_zero, Nat.one_mul, node]
  have h1 := fold_node h0
  have h2 := fold_node h1
  have h3 := fold_node h2
  have h4 := fold_node h3
  obtain ⟨g4, g3, g2, g1, g0⟩ := gather_getLsbD _ _ _ _
  rw [show 16 = 1 + (2 + (4 + (8 + 1))) from rfl, levelPairs_add, levelPairs_add, levelPairs_add,
    levelPairs_add]
  refine congrArg₂ _ ?_ (congrArg₂ _ ?_ (congrArg₂ _ ?_ (congrArg₂ _ ?_ ?_)))
  · exact levelPairs_congr fun q hq => (g4 q hq).trans (h4 q)
  · exact levelPairs_congr fun q hq => (g3 q hq).trans (h3 q)
  · exact levelPairs_congr fun q hq => (g2 q hq).trans (h2 q)
  · exact levelPairs_congr fun q hq => (g1 q hq).trans (h1 q)
  · rw [levelPairs, levelPairs, pair, node, node]
    rw [show leaves (wordPrepare w) (2 * 0 + 1) = false from g0 1 (by omega),
      show leaves (wordPrepare w) (2 * 0) = false from g0 0 (by omega)]
    rfl

/-- Pattern and word spell the tree, from the root down. -/
theorem wordPairs_eq {code : Nat → List Bool} (hcode : code 0 = []) (w : BitVec 32) :
    (levelPairs (leaves (wordPrepare w)) 0 16).flatMap code
        ++ (levelPairs (leaves w) 0 16).flatMap code
      = (treePairs (leaves w) 4 1).flatMap code := by
  rw [wordPrepare_pairs]
  simp [treePairs, hcode]

/-! ## The encoder -/

/-- How far a step of the loop of `encode` shifts `e`. -/
def stepBits (w p1 : BitVec 32) : Nat :=
  let x := w &&& 0xc0000000#32
  if x ≠ 0#32 then
    if x = p1 then 1 else 2
  else 0

/-- How far the loop of `encode` shifts `e`. -/
def loopBits (p1 : BitVec 32) : Nat → BitVec 32 → Nat
  | 0, _ => 0
  | k + 1, w => stepBits w p1 + loopBits p1 k (w <<< 2)

/-- The bits a word takes under a scheme. -/
def wordBits (w p scheme : BitVec 32) : Nat :=
  if scheme = 0#32 then 32
  else loopBits (scheme <<< 30) 16 p + loopBits (scheme <<< 30) 16 w

/-- The code of two bits under scheme `s`. -/
def code (s v : Nat) : List Bool :=
  if v = 0 then []
  else if v = s then [false]
  else [true, v == if s = 3 then 2 else 3]

/-- The word `e` holds the bits emitted so far. -/
def Emitted (e : BitVec 32) (bs : List Bool) : Prop :=
  e.toNat = ofBits bs

theorem Emitted.append {e : BitVec 32} {bs cs : List Bool} (he : Emitted e bs)
    (hle : (bs ++ cs).length ≤ 32) :
    Emitted (e <<< cs.length ||| BitVec.ofNat 32 (ofBits cs)) (bs ++ cs) := by
  have hword : ∀ xs : List Bool, xs.length ≤ 32 → ofBits xs < 2 ^ 32 := fun xs hxs =>
    Nat.lt_of_lt_of_le (ofBits_lt xs) (Nat.pow_le_pow_right (by decide) hxs)
  have hall := hword _ hle
  rw [ofBits_append] at hall
  rw [List.length_append] at hle
  rw [Emitted, BitVec.toNat_or, BitVec.toNat_shiftLeft, BitVec.toNat_ofNat, he, ofBits_append,
    Nat.mod_eq_of_lt (hword cs (by omega)), Nat.shiftLeft_eq, Nat.mod_eq_of_lt (by omega),
    ← Nat.shiftLeft_eq, Nat.shiftLeft_add_eq_or_of_lt (ofBits_lt cs)]

/-- The two bits on top of a word, as the encoder looks at them. -/
theorem and_top (w : BitVec 32) :
    w &&& 0xc0000000#32
      = BitVec.ofNat 32 (2 * (w.getLsbD 31).toNat + (w.getLsbD 30).toNat) <<< 30 := by
  have hlow : ∀ i < 30, (0xc0000000#32).getLsbD i = false := by decide
  apply BitVec.eq_of_getLsbD_eq
  intro i hi
  rw [BitVec.getLsbD_and, BitVec.getLsbD_shiftLeft]
  rcases Nat.lt_or_ge i 30 with hlt | hge
  · rw [hlow i hlt]
    simp [hlt]
  · obtain rfl | rfl : i = 30 ∨ i = 31 := by omega
    all_goals cases w.getLsbD 30 <;> cases w.getLsbD 31 <;> decide

/-- A step of the encoder shifts in the code of the two bits on top. -/
theorem encodeStep_eq (e w : BitVec 32) {s : Nat} (hs : 0 < s) (hlt : s < 4) {v : Nat}
    (hv : v = 2 * (w.getLsbD 31).toNat + (w.getLsbD 30).toNat) :
    encodeStep e w (BitVec.ofNat 32 s <<< 30) (pattern3 (BitVec.ofNat 32 s))
        = e <<< (code s v).length ||| BitVec.ofNat 32 (ofBits (code s v))
      ∧ stepBits w (BitVec.ofNat 32 s <<< 30) = (code s v).length := by
  have hv4 : v < 4 := by
    have h1 := Bool.toNat_lt (w.getLsbD 31)
    have h2 := Bool.toNat_lt (w.getLsbD 30)
    omega
  rw [encodeStep, stepBits, and_top, ← hv]
  have hor : (e <<< 2 ||| 2#32) ||| 1#32 = e <<< 2 ||| 3#32 := BitVec.or_assoc _ _ _
  interval_cases s <;> interval_cases v <;> simp [code, pattern3, ofBits, hor]

section Loop

variable {s : Nat} {f : Nat → Bool} {k : Nat}

/-- The pair on top of what is left of a word. -/
theorem top_pair {w : BitVec 32} (hk : k < 16)
    (hw : ∀ i < 2 * (k + 1), w.getLsbD (32 - 2 * (k + 1) + i) = f i) :
    pair f 0 k = 2 * (w.getLsbD 31).toNat + (w.getLsbD 30).toNat := by
  rw [pair, node, node, ← hw (2 * k + 1) (by omega), ← hw (2 * k) (by omega)]
  rw [show 32 - 2 * (k + 1) + (2 * k + 1) = 31 by omega,
    show 32 - 2 * (k + 1) + 2 * k = 30 by omega]

/-- What is left of a word after a pass. -/
theorem shift_pair {w : BitVec 32} (hk : k < 16)
    (hw : ∀ i < 2 * (k + 1), w.getLsbD (32 - 2 * (k + 1) + i) = f i) :
    ∀ i < 2 * k, (w <<< 2).getLsbD (32 - 2 * k + i) = f i := by
  intro i hi
  rw [BitVec.getLsbD_shiftLeft, ← hw i (by omega)]
  rw [show 32 - 2 * k + i - 2 = 32 - 2 * (k + 1) + i by omega]
  simp [show 32 - 2 * k + i < 32 by omega, show ¬32 - 2 * k + i < 2 by omega]

/-- The encoder appends the codes of the pairs that are left, top pair first. -/
theorem encodeLoop_spec (hs : 0 < s) (hlt : s < 4) :
    ∀ {e w : BitVec 32} {bs : List Bool}, k ≤ 16 →
      (∀ i < 2 * k, w.getLsbD (32 - 2 * k + i) = f i) → Emitted e bs →
      (bs ++ (levelPairs f 0 k).flatMap (code s)).length ≤ 32 →
      Emitted (encodeLoop (BitVec.ofNat 32 s <<< 30) (pattern3 (BitVec.ofNat 32 s)) k e w)
        (bs ++ (levelPairs f 0 k).flatMap (code s)) := by
  induction k with
  | zero =>
      intro e w bs _ _ he _
      rw [levelPairs, List.flatMap_nil, List.append_nil, encodeLoop]
      exact he
  | succ k ih =>
      intro e w bs hk hw he hle
      rw [levelPairs, List.flatMap_cons, ← List.append_assoc] at hle ⊢
      rw [encodeLoop, (encodeStep_eq e w hs hlt (top_pair hk hw)).1]
      apply ih (Nat.le_of_succ_le hk) (shift_pair hk hw) (he.append _) hle
      rw [List.length_append] at hle
      exact Nat.le_trans (Nat.le_add_right _ _) hle

theorem loopBits_eq (hs : 0 < s) (hlt : s < 4) :
    ∀ {w : BitVec 32}, k ≤ 16 → (∀ i < 2 * k, w.getLsbD (32 - 2 * k + i) = f i) →
      loopBits (BitVec.ofNat 32 s <<< 30) k w
        = ((levelPairs f 0 k).flatMap (code s)).length := by
  induction k with
  | zero => intro w _ _; rfl
  | succ k ih =>
      intro w hk hw
      rw [loopBits, (encodeStep_eq 0#32 w hs hlt (top_pair hk hw)).2,
        ih (Nat.le_of_succ_le hk) (shift_pair hk hw), levelPairs, List.flatMap_cons,
        List.length_append]

end Loop

/-- The encoder appends the codes of the pairs of a word. -/
theorem encode_spec {s : Nat} (hs : 0 < s) (hlt : s < 4) {e w : BitVec 32} {bs : List Bool}
    (he : Emitted e bs) (hle : (bs ++ (levelPairs (leaves w) 0 16).flatMap (code s)).length ≤ 32) :
    Emitted (encode e w (BitVec.ofNat 32 s <<< 30) (pattern3 (BitVec.ofNat 32 s)))
      (bs ++ (levelPairs (leaves w) 0 16).flatMap (code s)) := by
  apply encodeLoop_spec hs hlt (Nat.le_refl 16) _ he hle
  intro i _
  rw [show 32 - 2 * 16 + i = i by omega]

/-- The bits the encoder emits for a word under scheme `s`. -/
def stream (w : BitVec 32) (s : Nat) : List Bool :=
  (treePairs (leaves w) 4 1).flatMap (code s)

/-- A word that starts with a bit string, from its top bit. -/
def StartsWith (w : BitVec 32) (bs : List Bool) : Prop :=
  bs <+: toBits 32 w.toNat

/-- Left justification brings what was emitted to the top. -/
theorem Emitted.justify {e : BitVec 32} {bs : List Bool} (he : Emitted e bs)
    (hle : bs.length ≤ 32) : StartsWith (e <<< (32 - bs.length)) bs := by
  refine ⟨toBits (32 - bs.length) 0, ?_⟩
  have hsplit := toBits_shift_mod_or (Nat.two_pow_pos (32 - bs.length))
    (show bs.length + (32 - bs.length) ≤ 32 by omega) e.toNat
  rw [Nat.or_zero, Nat.add_sub_cancel' hle, he, toBits_ofBits] at hsplit
  rw [BitVec.toNat_shiftLeft, he, hsplit]

/-- Left justification loses nothing. -/
theorem Emitted.toNat_justify {e : BitVec 32} {bs : List Bool} (he : Emitted e bs)
    (hle : bs.length ≤ 32) :
    (e <<< (32 - bs.length)).toNat = e.toNat * 2 ^ (32 - bs.length) := by
  have hlt : e.toNat < 2 ^ bs.length := he ▸ ofBits_lt bs
  have hmul : e.toNat * 2 ^ (32 - bs.length) < 2 ^ bs.length * 2 ^ (32 - bs.length) :=
    Nat.mul_lt_mul_of_pos_right hlt (Nat.two_pow_pos _)
  rw [← Nat.pow_add, Nat.add_sub_cancel' hle] at hmul
  rw [BitVec.toNat_shiftLeft, Nat.shiftLeft_eq, Nat.mod_eq_of_lt hmul]

/-- Pattern and word are encoded as the tree. -/
theorem encodeWords_spec (w : BitVec 32) {s : Nat} (hs : 0 < s) (hlt : s < 4)
    (hle : (stream w s).length ≤ 32) :
    Emitted (encodeWords w (wordPrepare w) (BitVec.ofNat 32 s)) (stream w s) := by
  have hcode : code s 0 = [] := rfl
  have hall := wordPairs_eq hcode w
  have hpart : ((levelPairs (leaves (wordPrepare w)) 0 16).flatMap (code s)).length ≤ 32 := by
    rw [stream, ← hall, List.length_append] at hle
    omega
  have hnil : Emitted 0#32 [] := rfl
  have hpattern := encode_spec hs hlt (w := wordPrepare w) hnil (by rwa [List.nil_append])
  rw [List.nil_append] at hpattern
  have hword := encode_spec hs hlt (w := w) hpattern (by rwa [hall])
  rw [hall, ← stream] at hword
  exact hword

/-- The shifts of the encoder add up to the length of the code. -/
theorem wordBits_eq (w : BitVec 32) {s : Nat} (hs : 0 < s) (hlt : s < 4) :
    wordBits w (wordPrepare w) (BitVec.ofNat 32 s) = (stream w s).length := by
  have hcode : code s 0 = [] := rfl
  have hne : BitVec.ofNat 32 s ≠ 0#32 := by
    interval_cases s <;> decide
  have hloop : ∀ x : BitVec 32, loopBits (BitVec.ofNat 32 s <<< 30) 16 x
      = ((levelPairs (leaves x) 0 16).flatMap (code s)).length := fun x =>
    loopBits_eq hs hlt (Nat.le_refl 16) fun i _ => by rw [show 32 - 2 * 16 + i = i by omega]
  rw [wordBits, if_neg hne, hloop, hloop, stream, ← wordPairs_eq hcode, List.length_append]

/-- The encoded word, under a scheme and the size it takes. -/
theorem wordEncode_eq (w : BitVec 32) {s : Nat} (hs : 0 < s) (hlt : s < 4) {t : BitVec 32}
    (hscheme : scheme t = BitVec.ofNat 32 s)
    (hsize : size t = BitVec.ofNat 32 (stream w s).length) (hle : (stream w s).length ≤ 32) :
    wordEncode w (wordPrepare w) t
      = encodeWords w (wordPrepare w) (BitVec.ofNat 32 s) <<< (32 - (stream w s).length) := by
  have hne : scheme t ≠ 0#32 := by
    rw [hscheme]
    interval_cases s <;> decide
  have hshift : (32#32 - size t).toNat = 32 - (stream w s).length := by
    rw [hsize, BitVec.toNat_sub, BitVec.toNat_ofNat, BitVec.toNat_ofNat]
    omega
  rw [wordEncode, ← scheme, ← size, if_neg hne, hshift, hscheme]

/-! ## The size -/

/-- The two bits at the bottom of a word. -/
theorem and_bottom (w : BitVec 32) : (w &&& 3#32).toNat = pair (leaves w) 0 0 := by
  have h0 : (w.getLsbD 0).toNat = w.toNat / 2 ^ 0 % 2 := Nat.toNat_testBit _ _
  have h1 : (w.getLsbD 1).toNat = w.toNat / 2 ^ 1 % 2 := Nat.toNat_testBit _ _
  rw [BitVec.toNat_and, show (3#32).toNat = 2 ^ 2 - 1 from rfl, Nat.and_two_pow_sub_one_eq_mod]
  rw [pair, node, node, h0, h1]
  omega

/-- The byte counters hold what each pair of bits has added. -/
theorem countLoop_eq (k : Nat) : ∀ (cnts : Nat) (p w : BitVec 32),
    countLoop k cnts p w
      = cnts + ((levelPairs (leaves p) 0 k ++ levelPairs (leaves w) 0 k).map
          fun v => 2 ^ (8 * v)).sum := by
  induction k with
  | zero => intro cnts p w; rfl
  | succ k ih =>
      intro cnts p w
      have hsplit : ∀ x : BitVec 32, levelPairs (leaves x) 0 (k + 1)
          = levelPairs (leaves (x >>> 2)) 0 k ++ [pair (leaves x) 0 0] := fun x => by
        rw [levelPairs_add]
        congr 2
        funext i
        exact (BitVec.getLsbD_ushiftRight x 2 i).symm
      rw [countLoop, ih, and_bottom, and_bottom, hsplit, hsplit]
      simp only [List.map_append, List.sum_append, List.map_cons, List.map_nil, List.sum_singleton,
        Nat.one_shiftLeft]
      ring

/-- The bits scheme `s` takes for a word. -/
def cost (w : BitVec 32) (s : Nat) : Nat :=
  wordBits w (wordPrepare w) (BitVec.ofNat 32 s)

/-- The counts of the four values of two bits, in tree and counters. -/
theorem exists_counts (w : BitVec 32) : ∃ n0 n1 n2 n3 : Nat, n0 + n1 + n2 + n3 = 32
    ∧ countLoop 16 0 (wordPrepare w) w = n0 + 2 ^ 8 * n1 + 2 ^ 16 * n2 + 2 ^ 24 * n3
    ∧ cost w 1 = n1 + 2 * (n2 + n3) ∧ cost w 2 = n2 + 2 * (n3 + n1)
    ∧ cost w 3 = n3 + 2 * (n1 + n2) := by
  have hlt : ∀ v ∈ levelPairs (leaves (wordPrepare w)) 0 16 ++ levelPairs (leaves w) 0 16,
      v < 4 := fun v hv => (List.mem_append.mp hv).elim lt_of_mem_levelPairs lt_of_mem_levelPairs
  have hcost : ∀ s, 0 < s → s < 4 → cost w s
      = ((levelPairs (leaves (wordPrepare w)) 0 16 ++ levelPairs (leaves w) 0 16).map
          fun v => (code s v).length).sum := fun s hs hlt4 => by
    have hcode : code s 0 = [] := rfl
    rw [cost, wordBits_eq w hs hlt4, stream, ← wordPairs_eq hcode w, ← List.flatMap_append,
      List.length_flatMap]
  have hcount := countLoop_eq 16 0 (wordPrepare w) w
  have hlen : (levelPairs (leaves (wordPrepare w)) 0 16 ++ levelPairs (leaves w) 0 16).length
      = 32 := by
    rw [List.length_append, length_levelPairs, length_levelPairs]
  generalize levelPairs (leaves (wordPrepare w)) 0 16 ++ levelPairs (leaves w) 0 16 = xs at *
  have hone := sum_map_eq (fun _ => 1) hlt
  rw [List.map_const', List.sum_replicate_nat, hlen] at hone
  refine ⟨xs.count 0, xs.count 1, xs.count 2, xs.count 3, by simpa using hone.symm, ?_, ?_, ?_, ?_⟩
  · rw [hcount, sum_map_eq _ hlt]
    ring
  all_goals
    rw [hcost _ (by decide) (by decide), sum_map_eq _ hlt]
    simp [code]
    ring

/-- The byte of a counter word. -/
theorem byte_eq (cnts k : Nat) : cnts >>> k &&& 0xff = cnts / 2 ^ k % 256 := by
  rw [Nat.shiftRight_eq_div_pow]
  exact Nat.and_two_pow_sub_one_eq_mod _ 8

theorem packed_fields : ∀ s < 4, ∀ n < 33,
    scheme (BitVec.ofNat 32 s <<< 16 ||| BitVec.ofNat 32 n) = BitVec.ofNat 32 s
      ∧ size (BitVec.ofNat 32 s <<< 16 ||| BitVec.ofNat 32 n) = BitVec.ofNat 32 n := by
  decide

/-- The comparisons leave a scheme of least cost. -/
theorem best_spec {c : Nat → Nat} (h0 : c 0 = 32) :
    ∃ s < 4, better 3 (c 3) (better 2 (c 2) (if 32 < c 1 then (0, 32) else (1, c 1))) = (s, c s)
      ∧ ∀ r < 4, c s ≤ c r := by
  have hall : ∀ n, n ≤ c 0 → n ≤ c 1 → n ≤ c 2 → n ≤ c 3 → ∀ r < 4, n ≤ c r :=
    fun n hn0 hn1 hn2 hn3 r hr => by interval_cases r <;> assumption
  unfold better
  split_ifs with hlt1 hlt2 hlt3 hlt3 hlt2 hlt3 hlt3 <;> simp only at *
  · exact ⟨3, by decide, rfl, hall _ (by omega) (by omega) (by omega) (by omega)⟩
  · exact ⟨2, by decide, rfl, hall _ (by omega) (by omega) (by omega) (by omega)⟩
  · exact ⟨3, by decide, rfl, hall _ (by omega) (by omega) (by omega) (by omega)⟩
  · exact ⟨0, by decide, by rw [h0], hall _ (by omega) (by omega) (by omega) (by omega)⟩
  · exact ⟨3, by decide, rfl, hall _ (by omega) (by omega) (by omega) (by omega)⟩
  · exact ⟨2, by decide, rfl, hall _ (by omega) (by omega) (by omega) (by omega)⟩
  · exact ⟨3, by decide, rfl, hall _ (by omega) (by omega) (by omega) (by omega)⟩
  · exact ⟨1, by decide, rfl, hall _ (by omega) (by omega) (by omega) (by omega)⟩

/-- What `BTE_wordSize` packs: a best scheme and the bits it takes. -/
theorem wordSize_spec {w : BitVec 32} (hw : w ≠ 0#32) :
    ∃ s < 4, scheme (wordSize w (wordPrepare w)) = BitVec.ofNat 32 s
      ∧ size (wordSize w (wordPrepare w)) = BitVec.ofNat 32 (cost w s)
      ∧ cost w s ≤ 32 ∧ ∀ r < 4, cost w s ≤ cost w r := by
  obtain ⟨n0, n1, n2, n3, hsum, hcnts, h1, h2, h3⟩ := exists_counts w
  have h0 : cost w 0 = 32 := rfl
  generalize cost w = c at h0 h1 h2 h3 ⊢
  have hbyte1 : countLoop 16 0 (wordPrepare w) w >>> 8 &&& 0xff = n1 := by
    have hdiv : countLoop 16 0 (wordPrepare w) w / 2 ^ 8 = n1 + 256 * (n2 + 256 * n3) := by
      omega
    rw [byte_eq, hdiv]
    omega
  have hbyte2 : countLoop 16 0 (wordPrepare w) w >>> 16 &&& 0xff = n2 := by
    have hdiv : countLoop 16 0 (wordPrepare w) w / 2 ^ 16 = n2 + 256 * n3 := by omega
    rw [byte_eq, hdiv]
    omega
  have hbyte3 : countLoop 16 0 (wordPrepare w) w >>> 24 &&& 0xff = n3 := by
    have hdiv : countLoop 16 0 (wordPrepare w) w / 2 ^ 24 = n3 := by omega
    rw [byte_eq, hdiv]
    omega
  obtain ⟨s, hs, heq, hmin⟩ := best_spec h0
  have hle : c s ≤ 32 := h0 ▸ hmin 0 (by decide)
  have hpack : wordSize w (wordPrepare w)
      = BitVec.ofNat 32 s <<< 16 ||| BitVec.ofNat 32 (c s) := by
    simp only [wordSize, if_neg hw, hbyte1, hbyte2, hbyte3, ← h1, ← h2, ← h3, heq]
  obtain ⟨hscheme, hsize⟩ := packed_fields s hs (c s) (by omega)
  rw [hpack]
  exact ⟨s, hs, hscheme, hsize, hle, hmin⟩

/-- The tree of a word that is not zero has a root to code. -/
theorem stream_pos {w : BitVec 32} (hw : w ≠ 0#32) (s : Nat) : 0 < (stream w s).length := by
  have hbit := BitVec.getLsbD_true_clz_of_ne_zero (by decide) hw
  have hroot : pair (leaves w) 4 0 ≠ 0 := fun hzero => by
    have hset := (node_iff (leaves w) 5 0).mpr ⟨_, Nat.div_eq_of_lt (by omega), hbit⟩
    rw [pair_eq_zero_iff.mp hzero] at hset
    exact Bool.false_ne_true hset
  have hcode : 0 < (code s (pair (leaves w) 4 0)).length := by
    rw [code, if_neg hroot]
    split_ifs <;> simp
  rw [stream, treePairs, levelPairs, List.cons_append, List.flatMap_cons, List.length_append]
  exact Nat.add_pos_left hcode _

end ProtoDune.Firmware.BTE
