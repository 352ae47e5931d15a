import ProtoDune.Firmware.Bte

/-!
# `BTD.c`: binary tree decoding of a word

The output word starts with all bits set. Level by level the bits of a node that
turns out not to be set are cleared, and only the nodes that still stand are read.

Main results:

* `nodeLoop_spec` — one level, from the codes of its set nodes.
* `levelLoop_spec` — the whole tree.
* `wordCode_roundTrip` — a word comes back from its encoding, with the bits it took.
-/

namespace ProtoDune.Firmware.BTD

open BitString BitTree BTE

/-- What the loops carry: bits consumed, input word and output word. -/
structure Walk where
  n : Nat
  w : BitVec 32
  o : BitVec 32

/-- `LKUP`. -/
def lookup (c0 c10 c11 : BitVec 32) : BitVec 32 :=
  c10 <<< 0 ||| c11 <<< 2 ||| c0 <<< 4

/-- `lkup`, of the scheme. -/
def lkup (scheme : BitVec 32) : BitVec 32 :=
  if scheme = 1#32 then lookup 1#32 2#32 3#32
  else if scheme = 2#32 then lookup 2#32 1#32 3#32
  else lookup 3#32 1#32 2#32

/-- The value at a node, read off the input. -/
def extract (lkup : BitVec 32) (s : Walk) : BitVec 32 × Walk :=
  let node0 := lkup >>> 4
  if s.w.msb = false then (node0, { s with n := s.n + 1, w := s.w <<< 1 })
  else
    (lkup >>> (s.w >>> (30 - 1) &&& 2#32).toNat &&& 3#32,
      { s with n := s.n + 2, w := s.w <<< 2 })

/-- The output without the bits under the children that are not set. -/
def eliminate (o m1 : BitVec 32) (b bits : Nat) (node : BitVec 32) : BitVec 32 :=
  let o := if node &&& 1#32 = 0#32 then o &&& ~~~(m1 >>> (b + bits)) else o
  if node &&& 2#32 = 0#32 then o &&& ~~~(m1 >>> b) else o

/-- The inner loop: the nodes of a level whose bits still stand in `tmp`. `none` stands
for an undefined count or shift, and for a loop that has not ended in `fuel` passes. -/
def nodeLoop (lkup m m1 : BitVec 32) (bits : Nat) : Nat → BitVec 32 → Walk → Option Walk
  | 0, _, _ => none
  | fuel + 1, tmp, s =>
    let b := tmp.clz.toNat
    -- `__builtin_clz` of zero is undefined, and so is a shift of 32 bits
    if tmp = 0#32 ∨ 32 ≤ b + bits then none
    else
      let (node, s) := extract lkup s
      let s := { s with o := eliminate s.o m1 b bits node }
      let tmp := tmp &&& ~~~m >>> b
      if tmp = 0#32 then some s else nodeLoop lkup m m1 bits fuel tmp s

/-- The outer loop: the levels from `bits` bits a node down to one. -/
def levelLoop (lkup : BitVec 32) (limit : Nat) : Nat → Nat → BitVec 32 → Walk → Option Walk
  | 0, _, _, _ => none
  | fuel + 1, bits, m1, s =>
    let m := m1
    let m1 := m &&& m <<< bits
    match nodeLoop lkup m m1 bits limit s.o s with
    | none => none
    | some s =>
      let bits := bits >>> 1
      if bits = 0 then some s else levelLoop lkup limit fuel bits m1 s

/-- `BTD_wordDecode`: the word and `*nbits`. -/
def wordDecode (limit : Nat) (w scheme : BitVec 32) : Option (BitVec 32 × Nat) :=
  if scheme = 0#32 then some (w, 32)
  else
    (levelLoop (lkup scheme) limit limit 16 0xffffffff#32 ⟨0, w, 0xffffffff#32⟩).map
      fun s => (s.o, s.n)

/-! ## Reading a code -/

/-- Shifting out what a word starts with. -/
theorem startsWith_shift {w : BitVec 32} {bs cs : List Bool} (h : StartsWith w (bs ++ cs)) :
    StartsWith (w <<< bs.length) cs := by
  obtain ⟨tail, htail⟩ := h
  have hlen : bs.length ≤ 32 := by
    have hall := congrArg List.length htail
    simp only [List.length_append, length_toBits] at hall
    omega
  have htake := toBits_append bs.length (32 - bs.length) w.toNat
  rw [Nat.add_sub_cancel' hlen, ← htail, List.append_assoc] at htake
  have hword : cs ++ tail = toBits (32 - bs.length) w.toNat :=
    List.append_inj_right htake (length_toBits _ _).symm
  have hsplit := toBits_shift_mod_or (Nat.two_pow_pos bs.length)
    (show 32 - bs.length + bs.length ≤ 32 by omega) w.toNat
  rw [Nat.or_zero, Nat.sub_add_cancel hlen, ← hword] at hsplit
  exact ⟨tail ++ toBits bs.length 0, by rw [BitVec.toNat_shiftLeft, hsplit, List.append_assoc]⟩

theorem startsWith_msb {w : BitVec 32} {b : Bool} {bs : List Bool} (h : StartsWith w (b :: bs)) :
    w.msb = b := by
  obtain ⟨tail, htail⟩ := h
  have hcons : toBits 32 w.toNat = w.getLsbD 31 :: toBits 31 w.toNat := rfl
  rw [hcons, List.cons_append] at htail
  rw [BitVec.msb_eq_getLsbD_last]
  exact (List.cons.inj htail).1.symm

/-- A code is read back as the pair it is of. -/
theorem extract_spec {scheme v : Nat} (hs : 0 < scheme) (hlt : scheme < 4) (hv : 0 < v)
    (hv4 : v < 4) {s : Walk} {bs : List Bool} (h : StartsWith s.w (code scheme v ++ bs)) :
    extract (lkup (BitVec.ofNat 32 scheme)) s
      = (BitVec.ofNat 32 v, { s with
          n := s.n + (code scheme v).length, w := s.w <<< (code scheme v).length }) := by
  by_cases heq : v = scheme
  · -- the short code
    have hcode : code scheme v = [false] := by
      rw [code, if_neg (Nat.pos_iff_ne_zero.mp hv), if_pos heq]
    rw [hcode] at h ⊢
    rw [extract, if_pos (startsWith_msb h), heq]
    interval_cases scheme <;> rfl
  · -- the index bit stands below the top bit
    have hcode : code scheme v = [true, v == if scheme = 3 then 2 else 3] := by
      rw [code, if_neg (Nat.pos_iff_ne_zero.mp hv), if_neg heq]
    rw [hcode] at h ⊢
    have htop : s.w.msb = true := startsWith_msb h
    have hshift := startsWith_shift
      (show StartsWith s.w ([true] ++ (v == if scheme = 3 then 2 else 3) :: bs) from h)
    have hnext : (s.w <<< 1).msb = (v == if scheme = 3 then 2 else 3) := startsWith_msb hshift
    have hindex : s.w >>> (30 - 1) &&& 2#32 =
        if v == if scheme = 3 then 2 else 3 then 2#32 else 0#32 := by
      rw [← hnext, show 2#32 = BitVec.twoPow 32 1 from rfl, BitVec.and_twoPow]
      rw [BitVec.msb_eq_getLsbD_last, BitVec.getLsbD_ushiftRight, BitVec.getLsbD_shiftLeft]
      rfl
    rw [extract, htop, hindex]
    interval_cases scheme <;> interval_cases v <;> first | exact absurd rfl heq | rfl

/-! ## Masks -/

/-- The mask of the top `n` bits. -/
def TopMask (m : BitVec 32) (n : Nat) : Prop :=
  ∀ i < 32, m.getLsbD i = decide (32 - n ≤ i)

/-- Half of the bits of a mask. -/
theorem TopMask.half {m : BitVec 32} {n : Nat} (hm : TopMask m (2 * n)) (hn : 2 * n ≤ 32) :
    TopMask (m &&& m <<< n) n := by
  intro i hi
  rw [BitVec.getLsbD_and, BitVec.getLsbD_shiftLeft, hm i hi]
  rcases Nat.lt_or_ge i n with hlt | hge
  · simp [hlt, show ¬32 - n ≤ i by omega]
  · rw [hm (i - n) (by omega)]
    simp only [hi, Nat.not_lt.mpr hge, decide_true, decide_false, Bool.not_false, Bool.true_and,
      ← Bool.decide_and, decide_eq_decide]
    omega

/-- A mask of `n` bits shifted to the bits of node `q`. -/
theorem TopMask.shifted {m : BitVec 32} {n b q : Nat} (hm : TopMask m n) (hn : 0 < n)
    (hb : b + n * (q + 1) = 32) {i : Nat} :
    (m >>> b).getLsbD i = decide (i / n = q) := by
  rw [Nat.mul_succ] at hb
  rw [BitVec.getLsbD_ushiftRight]
  have hq : i / n = q ↔ n * q ≤ i ∧ i < n * q + n := by
    rw [Nat.div_eq_iff hn, Nat.mul_comm q n]
    omega
  rcases Nat.lt_or_ge (b + i) 32 with hlt | hge
  · rw [hm _ hlt, decide_eq_decide, hq]
    omega
  · rw [BitVec.getLsbD_of_ge _ _ hge, eq_comm, decide_eq_false_iff_not, hq]
    omega

/-- The bits below node `c` are what is left for consideration. -/
theorem TopMask.below {m : BitVec 32} {n b c : Nat} (hm : TopMask m n) (hn : 0 < n)
    (hb : b + n * (c + 1) = 32) {i : Nat} :
    (~~~m >>> b).getLsbD i = decide (i / n < c) := by
  rw [Nat.mul_succ] at hb
  have hc : i / n < c ↔ i < n * c := by rw [Nat.div_lt_iff_lt_mul hn, Nat.mul_comm c n]
  rw [BitVec.getLsbD_ushiftRight, BitVec.getLsbD_not]
  rcases Nat.lt_or_ge (b + i) 32 with hlt | hge
  · rw [hm _ hlt]
    simp only [hlt, decide_true, Bool.true_and, ← decide_not, decide_eq_decide, hc]
    omega
  · rw [decide_eq_false (Nat.not_lt.mpr hge), Bool.false_and, eq_comm, decide_eq_false_iff_not, hc]
    omega

/-! ## A level -/

section Level

variable {leaf : Nat → Bool} {k : Nat}

/-- The bits to be dealt with: those under the set nodes among the first `j` of a level. -/
def Pending (leaf : Nat → Bool) (k j : Nat) (tmp : BitVec 32) : Prop :=
  ∀ i < 32, tmp.getLsbD i
    = (decide (i / 2 ^ (k + 1) < j) && node leaf (k + 1) (i / 2 ^ (k + 1)))

/-- The output while a level is dealt with: from node `j` on, the children are known. -/
def Settled (leaf : Nat → Bool) (k j : Nat) (o : BitVec 32) : Prop :=
  ∀ i < 32, o.getLsbD i
    = if j ≤ i / 2 ^ (k + 1) then node leaf k (i / 2 ^ k)
      else node leaf (k + 1) (i / 2 ^ (k + 1))

theorem div_pow_succ (i k : Nat) : i / 2 ^ (k + 1) = i / 2 ^ k / 2 := by
  rw [Nat.pow_succ, Nat.div_div_eq_div_mul]

/-- A node of the level has a bit of its own. -/
theorem node_bit {j d : Nat} (hj : 2 ^ (k + 1) * j ≤ 32) (hd : d < j) :
    2 ^ (k + 1) * (d + 1) - 1 < 32 ∧ (2 ^ (k + 1) * (d + 1) - 1) / 2 ^ (k + 1) = d := by
  have hpos := Nat.two_pow_pos (k + 1)
  have hle : 2 ^ (k + 1) * (d + 1) ≤ 2 ^ (k + 1) * j := Nat.mul_le_mul_left _ hd
  refine ⟨by omega, ?_⟩
  rw [Nat.div_eq_iff hpos, Nat.mul_comm d, Nat.mul_succ]
  omega

/-- When no bits are left, no node is. -/
theorem Pending.eq_false {j : Nat} (h : Pending leaf k j 0#32) (hj : 2 ^ (k + 1) * j ≤ 32)
    {d : Nat} (hd : d < j) : node leaf (k + 1) d = false := by
  obtain ⟨hlt, hdiv⟩ := node_bit hj hd
  have hbit := h _ hlt
  rw [hdiv, BitVec.getLsbD_zero] at hbit
  simpa [hd] using hbit.symm

/-- The next bits to be dealt with are those of the last set node. -/
theorem Pending.next {j : Nat} {tmp : BitVec 32} (h : Pending leaf k j tmp) (hne : tmp ≠ 0#32)
    (hj : 2 ^ (k + 1) * j ≤ 32) :
    ∃ c < j, node leaf (k + 1) c = true ∧ tmp.clz.toNat + 2 ^ (k + 1) * (c + 1) = 32
      ∧ ∀ d, c + 1 ≤ d → d < j → node leaf (k + 1) d = false := by
  have hpos := Nat.two_pow_pos (k + 1)
  have hclz : tmp.clz.toNat < 32 := BitVec.lt_def.mp (BitVec.clz_lt_iff_ne_zero.mpr hne)
  have htop : tmp.getLsbD (31 - tmp.clz.toNat) = true :=
    BitVec.getLsbD_true_clz_of_ne_zero (by decide) hne
  -- no bit is set above the first one
  have habove : ∀ i, 31 - tmp.clz.toNat < i → tmp.getLsbD i = false := fun i hi =>
    Nat.testBit_lt_two_pow (Nat.lt_of_lt_of_le BitVec.toNat_lt_two_pow_sub_clz
      (Nat.pow_le_pow_right (by decide) (by omega)))
  generalize hc : (31 - tmp.clz.toNat) / 2 ^ (k + 1) = c
  have hset := h _ (show 31 - tmp.clz.toNat < 32 by omega)
  rw [htop, hc, eq_comm, Bool.and_eq_true, decide_eq_true_iff] at hset
  obtain ⟨hcj, hnode⟩ := hset
  obtain ⟨hlt, hdiv⟩ := node_bit hj hcj
  have hlast : 2 ^ (k + 1) * (c + 1) - 1 ≤ 31 - tmp.clz.toNat := by
    by_contra hgt
    have hbit := h _ hlt
    rw [habove _ (Nat.not_le.mp hgt), hdiv, hnode] at hbit
    simp [hcj] at hbit
  have hin : 31 - tmp.clz.toNat < 2 ^ (k + 1) * (c + 1) := by
    rw [← hc]
    exact Nat.lt_mul_div_succ _ hpos
  refine ⟨c, hcj, hnode, by omega, fun d hd hdj => ?_⟩
  obtain ⟨hdlt, hddiv⟩ := node_bit hj hdj
  have hmul : 2 ^ (k + 1) * (c + 1 + 1) ≤ 2 ^ (k + 1) * (d + 1) :=
    Nat.mul_le_mul_left _ (by omega)
  rw [Nat.mul_succ] at hmul
  have hbit := h _ hdlt
  rw [habove _ (by omega), hddiv] at hbit
  simpa [hdj] using hbit.symm

/-- What the code clears, bit by bit. -/
theorem eliminate_getLsbD {o m1 : BitVec 32} {b bits v c : Nat} (hm : TopMask m1 bits)
    (hbits : 0 < bits) (hb : b + 2 * bits * (c + 1) = 32) (hv : v < 4) {i : Nat} (hi : i < 32) :
    (eliminate o m1 b bits (BitVec.ofNat 32 v)).getLsbD i
      = (o.getLsbD i && (v.testBit 0 || decide (i / bits ≠ 2 * c))
          && (v.testBit 1 || decide (i / bits ≠ 2 * c + 1))) := by
  have hlow : (m1 >>> (b + bits)).getLsbD i = decide (i / bits = 2 * c) :=
    hm.shifted hbits (by rw [← hb]; ring)
  have hhigh : (m1 >>> b).getLsbD i = decide (i / bits = 2 * c + 1) :=
    hm.shifted hbits (by rw [← hb]; ring)
  rw [BitVec.getLsbD_ushiftRight] at hlow hhigh
  unfold eliminate
  interval_cases v <;> simp [Nat.testBit_eq_decide_div_mod_eq, hi, hlow, hhigh]

/-- One pass of the loop settles a node. -/
theorem Settled.eliminate {j c b : Nat} {o m1 : BitVec 32} (h : Settled leaf k j o)
    (hm : TopMask m1 (2 ^ k)) (hb : b + 2 ^ (k + 1) * (c + 1) = 32) (hc : c < j)
    (hset : node leaf (k + 1) c = true)
    (hskip : ∀ d, c + 1 ≤ d → d < j → node leaf (k + 1) d = false) :
    Settled leaf k c (eliminate o m1 b (2 ^ k) (BitVec.ofNat 32 (pair leaf k c))) := by
  intro i hi
  rw [Nat.pow_succ'] at hb
  rw [eliminate_getLsbD hm (Nat.two_pow_pos k) hb (pair_lt k c) hi, h i hi, testBit_zero_pair,
    testBit_one_pair, div_pow_succ]
  generalize i / 2 ^ k = q
  rcases Nat.lt_trichotomy (q / 2) c with hlt | heq | hgt
  · -- not reached yet
    rw [if_neg (by omega), if_neg (by omega)]
    simp [show q ≠ 2 * c by omega, show q ≠ 2 * c + 1 by omega]
  · -- the node itself: its code tells the children
    rw [if_neg (by omega), if_pos (by omega), heq, hset]
    obtain rfl | rfl : q = 2 * c ∨ q = 2 * c + 1 := by omega
    · simp
    · simp
  · rw [if_pos (by omega : c ≤ q / 2)]
    simp only [show q ≠ 2 * c by omega, show q ≠ 2 * c + 1 by omega, ne_eq, not_false_eq_true,
      decide_true, Bool.or_true, Bool.and_true]
    split_ifs with hj
    · rfl
    · -- a node between the two is not set
      have hfalse := hskip (q / 2) hgt (Nat.not_le.mp hj)
      rw [hfalse, node_eq_false hfalse]

/-- One pass of the loop takes a node out of consideration. -/
theorem Pending.eliminate {j c b : Nat} {tmp m : BitVec 32} (h : Pending leaf k j tmp)
    (hm : TopMask m (2 ^ (k + 1))) (hb : b + 2 ^ (k + 1) * (c + 1) = 32) (hc : c < j) :
    Pending leaf k c (tmp &&& ~~~m >>> b) := by
  intro i hi
  rw [BitVec.getLsbD_and, hm.below (Nat.two_pow_pos _) hb, h i hi]
  by_cases hlt : i / 2 ^ (k + 1) < c
  · simp [hlt, Nat.lt_trans hlt hc]
  · simp [hlt]

/-- The loop over a level settles it, and reads the codes of its set nodes. -/
theorem nodeLoop_spec {scheme : Nat} (hs : 0 < scheme) (hlt : scheme < 4) {m m1 : BitVec 32}
    (hm : TopMask m (2 ^ (k + 1))) (hm1 : TopMask m1 (2 ^ k)) {bs : List Bool} (fuel : Nat) :
    ∀ {j : Nat} {tmp : BitVec 32} {s : Walk}, j ≤ fuel → 2 ^ (k + 1) * j ≤ 32 → tmp ≠ 0#32 →
      Pending leaf k j tmp → Settled leaf k j s.o →
      StartsWith s.w ((levelPairs leaf k j).flatMap (code scheme) ++ bs) →
      ∃ s', nodeLoop (lkup (BitVec.ofNat 32 scheme)) m m1 (2 ^ k) fuel tmp s = some s'
        ∧ s'.n = s.n + ((levelPairs leaf k j).flatMap (code scheme)).length
        ∧ StartsWith s'.w bs ∧ Settled leaf k 0 s'.o := by
  have hcode : code scheme 0 = [] := rfl
  induction fuel with
  | zero =>
      intro j tmp s hj hle hne hpending _ _
      obtain ⟨c, hc, -⟩ := hpending.next hne hle
      omega
  | succ fuel ih =>
      intro j tmp s hj hle hne hpending hsettled hw
      obtain ⟨c, hc, hset, hb, hskip⟩ := hpending.next hne hle
      have hpos := Nat.two_pow_pos k
      have hv : 0 < pair leaf k c := Nat.pos_of_ne_zero fun hzero => by
        rw [pair_eq_zero_iff.mp hzero] at hset
        exact Bool.false_ne_true hset
      have hdefined : ¬(tmp = 0#32 ∨ 32 ≤ tmp.clz.toNat + 2 ^ k) := by
        rw [Nat.pow_succ', Nat.mul_succ] at hb
        rintro (h | h)
        · exact hne h
        · omega
      rw [levelPairs_skip hcode hc hskip, levelPairs, List.flatMap_cons, List.append_assoc] at hw
      rw [levelPairs_skip hcode hc hskip, levelPairs, List.flatMap_cons, List.length_append]
      rw [nodeLoop, if_neg hdefined, extract_spec hs hlt hv (pair_lt k c) hw]
      have hnext := startsWith_shift hw
      have hpending' := hpending.eliminate hm hb hc
      have hsettled' := hsettled.eliminate hm1 hb hc hset hskip
      have hle' : 2 ^ (k + 1) * c ≤ 32 :=
        Nat.le_trans (Nat.mul_le_mul_left _ (Nat.le_of_lt hc)) hle
      simp only
      split_ifs with hzero
      · -- no set node is left on the level
        rw [hzero] at hpending'
        have hrest : (levelPairs leaf k c).flatMap (code scheme) = [] :=
          levelPairs_skip hcode (Nat.zero_le c) fun d _ hd => hpending'.eq_false hle' hd
        rw [hrest] at hnext ⊢
        refine ⟨_, rfl, rfl, hnext, fun i hi => ?_⟩
        rw [if_pos (Nat.zero_le _), hsettled' i hi]
        split_ifs with hci
        · rfl
        · have hfalse := hpending'.eq_false hle' (Nat.not_le.mp hci)
          rw [hfalse, node_eq_false (by rwa [← div_pow_succ])]
      · obtain ⟨s', hrun, hn, hw', ho⟩ :=
          ih (s := ⟨s.n + (code scheme (pair leaf k c)).length,
              s.w <<< (code scheme (pair leaf k c)).length,
              eliminate s.o m1 tmp.clz.toNat (2 ^ k) (BitVec.ofNat 32 (pair leaf k c))⟩)
            (by omega) hle' hzero hpending' hsettled' hnext
        have htotal : s'.n = s.n + (code scheme (pair leaf k c)).length
            + ((levelPairs leaf k c).flatMap (code scheme)).length := hn
        rw [Nat.add_assoc] at htotal
        exact ⟨s', hrun, htotal, hw', ho⟩

end Level

/-! ## The tree -/

section Tree

variable {leaf : Nat → Bool}

/-- A word with a set leaf has a bit left on every level. -/
theorem ne_zero_of_leaf {k : Nat} {o : BitVec 32} (hleaf : ∃ i < 32, leaf i = true)
    (ho : ∀ i < 32, o.getLsbD i = node leaf (k + 1) (i / 2 ^ (k + 1))) : o ≠ 0#32 := by
  obtain ⟨i, hi, hset⟩ := hleaf
  rintro rfl
  have hnode := ho i hi
  rw [(node_iff leaf (k + 1) _).mpr ⟨i, rfl, hset⟩, BitVec.getLsbD_zero] at hnode
  exact Bool.false_ne_true hnode

variable {scheme : Nat} {limit : Nat} {bs : List Bool}

/-- The body of the loop over the levels: from the nodes of a level to their children. -/
theorem level_spec (hs : 0 < scheme) (hlt : scheme < 4) (hlimit : 16 ≤ limit)
    (hleaf : ∃ i < 32, leaf i = true) {k j : Nat} {m1 : BitVec 32} {s : Walk}
    (hj : 2 ^ (k + 1) * j = 32) (hm : TopMask m1 (2 ^ (k + 1)))
    (ho : ∀ i < 32, s.o.getLsbD i = node leaf (k + 1) (i / 2 ^ (k + 1)))
    (hw : StartsWith s.w ((levelPairs leaf k j).flatMap (code scheme) ++ bs)) :
    TopMask (m1 &&& m1 <<< 2 ^ k) (2 ^ k)
      ∧ ∃ s', nodeLoop (lkup (BitVec.ofNat 32 scheme)) m1 (m1 &&& m1 <<< 2 ^ k) (2 ^ k) limit s.o s
          = some s'
        ∧ s'.n = s.n + ((levelPairs leaf k j).flatMap (code scheme)).length
        ∧ StartsWith s'.w bs ∧ ∀ i < 32, s'.o.getLsbD i = node leaf k (i / 2 ^ k) := by
  have hnodes : ∀ i < 32, i / 2 ^ (k + 1) < j := fun i hi =>
    Nat.div_lt_of_lt_mul (by rwa [hj])
  have hj16 : j ≤ 16 := by
    rw [Nat.pow_succ', Nat.mul_assoc] at hj
    have hle := Nat.le_mul_of_pos_left j (Nat.two_pow_pos k)
    omega
  have hhalf : 2 * 2 ^ k ≤ 32 := by
    rw [← Nat.pow_succ', ← hj]
    exact Nat.le_mul_of_pos_right _ (Nat.pos_of_ne_zero fun h => by subst h; omega)
  have hm1 : TopMask (m1 &&& m1 <<< 2 ^ k) (2 ^ k) :=
    TopMask.half (by rwa [← Nat.pow_succ']) hhalf
  -- every node of the level is still to come, and none is settled
  have hpending : Pending leaf k j s.o := fun i hi => by
    rw [ho i hi, decide_eq_true (hnodes i hi), Bool.true_and]
  have hsettled : Settled leaf k j s.o := fun i hi => by
    rw [ho i hi, if_neg (Nat.not_le.mpr (hnodes i hi))]
  obtain ⟨s', hrun, hn, hw', ho'⟩ := nodeLoop_spec hs hlt hm hm1 limit (Nat.le_trans hj16 hlimit)
    (Nat.le_of_eq hj) (ne_zero_of_leaf hleaf ho) hpending hsettled hw
  exact ⟨hm1, s', hrun, hn, hw', fun i hi => by rw [ho' i hi, if_pos (Nat.zero_le _)]⟩

/-- The loop over the levels leaves the leaves, and reads the codes of the tree. -/
theorem levelLoop_spec (hs : 0 < scheme) (hlt : scheme < 4) (hlimit : 16 ≤ limit)
    (hleaf : ∃ i < 32, leaf i = true) (k : Nat) :
    ∀ {fuel j : Nat} {m1 : BitVec 32} {s : Walk}, k < fuel → 2 ^ (k + 1) * j = 32 →
      TopMask m1 (2 ^ (k + 1)) →
      (∀ i < 32, s.o.getLsbD i = node leaf (k + 1) (i / 2 ^ (k + 1))) →
      StartsWith s.w ((treePairs leaf k j).flatMap (code scheme) ++ bs) →
      ∃ s', levelLoop (lkup (BitVec.ofNat 32 scheme)) limit fuel (2 ^ k) m1 s = some s'
        ∧ s'.n = s.n + ((treePairs leaf k j).flatMap (code scheme)).length
        ∧ ∀ i < 32, s'.o.getLsbD i = leaf i := by
  induction k with
  | zero =>
      intro fuel j m1 s hfuel hj hm ho hw
      obtain ⟨fuel, rfl⟩ := Nat.exists_eq_succ_of_ne_zero (Nat.ne_of_gt hfuel)
      obtain ⟨-, s', hrun, hn, -, ho'⟩ := level_spec hs hlt hlimit hleaf hj hm ho hw
      refine ⟨s', ?_, hn, fun i hi => by rw [ho' i hi, Nat.pow_zero, Nat.div_one, node]⟩
      rw [levelLoop, hrun]
      rfl
  | succ k ih =>
      intro fuel j m1 s hfuel hj hm ho hw
      obtain ⟨fuel, rfl⟩ := Nat.exists_eq_succ_of_ne_zero (Nat.ne_of_gt (Nat.zero_lt_of_lt hfuel))
      rw [treePairs, List.flatMap_append, List.append_assoc] at hw
      obtain ⟨hm1, s1, hrun1, hn1, hw1, ho1⟩ := level_spec hs hlt hlimit hleaf hj hm ho hw
      have hhalf : 2 ^ (k + 1) >>> 1 = 2 ^ k := by
        rw [Nat.shiftRight_eq_div_pow, Nat.pow_succ]
        exact Nat.mul_div_cancel _ (by decide)
      have hj2 : 2 ^ (k + 1) * (2 * j) = 32 := by
        rw [← hj, Nat.pow_succ _ (k + 1), Nat.mul_assoc]
      obtain ⟨s', hrun, hn, ho'⟩ := ih (Nat.lt_of_succ_lt_succ hfuel) hj2 hm1 ho1 hw1
      refine ⟨s', ?_, ?_, ho'⟩
      · rw [levelLoop, hrun1]
        simp only [hhalf, if_neg (Nat.ne_of_gt (Nat.two_pow_pos k))]
        exact hrun
      · rw [hn, hn1, treePairs, List.flatMap_append, List.length_append, Nat.add_assoc]

end Tree

/-- Reading the codes of a tree gives the word. -/
theorem wordDecode_spec {w v : BitVec 32} (hw : w ≠ 0#32) {s : Nat} (hs : 0 < s) (hlt : s < 4)
    {limit : Nat} (hlimit : 16 ≤ limit) (hv : StartsWith v (stream w s)) :
    wordDecode limit v (BitVec.ofNat 32 s) = some (w, (stream w s).length) := by
  have hones : ∀ i < 32, (0xffffffff#32).getLsbD i = true := by decide
  have hne : BitVec.ofNat 32 s ≠ 0#32 := by
    interval_cases s <;> decide
  have hleaf : ∃ i < 32, leaves w i = true :=
    ⟨_, by omega, BitVec.getLsbD_true_clz_of_ne_zero (by decide) hw⟩
  have hmask : TopMask 0xffffffff#32 (2 ^ (4 + 1)) := fun i hi => by
    rw [hones i hi, eq_comm, decide_eq_true_iff]
    exact Nat.zero_le i
  -- the root is set, and all its bits still stand
  have hroot : ∀ i < 32, (0xffffffff#32).getLsbD i
      = node (leaves w) (4 + 1) (i / 2 ^ (4 + 1)) := fun i hi => by
    obtain ⟨l, hl, hset⟩ := hleaf
    rw [hones i hi, show i / 2 ^ (4 + 1) = 0 from Nat.div_eq_of_lt hi]
    exact ((node_iff (leaves w) 5 0).mpr ⟨l, Nat.div_eq_of_lt hl, hset⟩).symm
  rw [← List.append_nil (stream w s)] at hv
  obtain ⟨s', hrun, hn, ho⟩ := levelLoop_spec hs hlt hlimit hleaf 4 (s := ⟨0, v, 0xffffffff#32⟩)
    (j := 1) (by omega : 4 < limit) rfl hmask hroot hv
  have hword : s'.o = w := BitVec.eq_of_getLsbD_eq ho
  rw [wordDecode, if_neg hne, show 16 = 2 ^ 4 from rfl, hrun, Option.map_some, hword, hn,
    Nat.zero_add, stream]

/-- What the coding of a word should come to, from its prepared tree `p` and its
scheme-and-size word `t`. -/
structure WordCode (limit : Nat) (w p t : BitVec 32) : Prop where
  pos : 0 < (size t).toNat
  le : (size t).toNat ≤ 32
  scheme_lt : scheme t < 4#32
  /-- the size is that of the scheme, and no scheme takes fewer bits -/
  size_eq : (size t).toNat = BTE.wordBits w p (scheme t)
  best : ∀ r < 4#32, (size t).toNat ≤ BTE.wordBits w p r
  /-- the encoder shifts in as many bits, and left justification loses none of them -/
  encode : scheme t ≠ 0#32 → (encodeWords w p (scheme t)).toNat < 2 ^ (size t).toNat
    ∧ (wordEncode w p t).toNat = (encodeWords w p (scheme t)).toNat * 2 ^ (32 - (size t).toNat)
  /-- the decoder ends, with the word and the bits it took -/
  decode : wordDecode limit (wordEncode w p t) (scheme t) = some (w, (size t).toNat)

/-- A word that is sent as it is. -/
theorem wordCode_plain {w p t : BitVec 32} (limit : Nat) (hscheme : scheme t = 0#32)
    (hsize : (size t).toNat = 32) (hbest : ∀ r < 4#32, 32 ≤ BTE.wordBits w p r) :
    WordCode limit w p t := by
  have hencode : wordEncode w p t = w := by
    rw [wordEncode, ← scheme, hscheme]
    rfl
  constructor
  · rw [hsize]
    decide
  · rw [hsize]
  · rw [hscheme]
    decide
  · rw [hsize, hscheme]
    rfl
  · rwa [hsize]
  · exact fun h => absurd hscheme h
  · rw [hencode, hscheme, hsize]
    rfl

/-- A word that is sent as its tree. -/
theorem wordCode_stream {w t : BitVec 32} (hw : w ≠ 0#32) {s limit : Nat} (hlimit : 16 ≤ limit)
    (hpos : 0 < s) (hs4 : s < 4) (hscheme : scheme t = BitVec.ofNat 32 s)
    (hsize : (size t).toNat = (stream w s).length) (hle : (stream w s).length ≤ 32)
    (hbest : ∀ r < 4#32, (stream w s).length ≤ BTE.wordBits w (wordPrepare w) r) :
    WordCode limit w (wordPrepare w) t := by
  have hemitted := encodeWords_spec w hpos hs4 hle
  have hword : size t = BitVec.ofNat 32 (stream w s).length := by
    rw [← hsize, BitVec.ofNat_toNat, BitVec.setWidth_eq]
  have hencode := wordEncode_eq w hpos hs4 hscheme hword hle
  constructor
  · rw [hsize]
    exact stream_pos hw s
  · rwa [hsize]
  · rw [hscheme]
    interval_cases s <;> decide
  · rw [hsize, hscheme]
    exact (wordBits_eq w hpos hs4).symm
  · rwa [hsize]
  · intro _
    rw [hsize, hscheme, hencode]
    exact ⟨hemitted ▸ ofBits_lt (stream w s), hemitted.toNat_justify hle⟩
  · rw [hsize, hscheme, hencode]
    exact wordDecode_spec hw hpos hs4 hlimit (hemitted.justify hle)

/-- **A word that is not zero comes back from its encoding.** -/
theorem wordCode_roundTrip {w : BitVec 32} (hw : w ≠ 0#32) {limit : Nat} (hlimit : 16 ≤ limit) :
    WordCode limit w (wordPrepare w) (wordSize w (wordPrepare w)) := by
  obtain ⟨s, hs4, hscheme, hsize, hle, hmin⟩ := wordSize_spec hw
  have hbits : (size (wordSize w (wordPrepare w))).toNat = cost w s := by
    rw [hsize, BitVec.toNat_ofNat]
    exact Nat.mod_eq_of_lt (by omega)
  have hbest : ∀ r < 4#32, cost w s ≤ BTE.wordBits w (wordPrepare w) r := fun r hr => by
    have hcost := hmin r.toNat (BitVec.lt_def.mp hr)
    rwa [cost, cost, BitVec.ofNat_toNat, BitVec.setWidth_eq] at hcost
  rcases Nat.eq_zero_or_pos s with rfl | hpos
  · exact wordCode_plain limit hscheme hbits hbest
  · have hstream : cost w s = (stream w s).length := wordBits_eq w hpos hs4
    rw [hstream] at hle hbits hbest
    exact wordCode_stream hw hlimit hpos hs4 hscheme hbits hle hbest

/-- The round trip of a word with two bits set. -/
theorem wordCode_roundTrip_twoBits :
    WordCode 16 0x00011000#32 (wordPrepare 0x00011000#32)
      (wordSize 0x00011000#32 (wordPrepare 0x00011000#32)) :=
  wordCode_roundTrip (by decide : 0x00011000#32 ≠ 0#32) (Nat.le_refl 16)

end ProtoDune.Firmware.BTD
