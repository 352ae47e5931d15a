import Mathlib.Tactic.IntervalCases
import ProtoDune.Lib.ArithCoder

/-!
# The whole code interval

The coder of `ArithCoder` sees the last `p + 2` bits of a code interval whose
ends get a bit longer at each expansion. Here the ends are kept whole: they are
doubled while they lie in one quarter or in two that touch. The leading bits
that the ends share are settled, whatever symbols follow.

Main results:

* `Tracks.widen` — both coders expand alike.
* `Tracks.settled_eq` — the bits settled are those that were put out.
-/

namespace ArithCoder

/-- The ends of the code interval, and how often they were doubled. -/
structure CodeEnds where
  lo : Nat
  hi : Nat
  doublings : Nat
deriving DecidableEq

namespace CodeEnds

/-- The ends of `p + 2` bits before the first symbol. -/
def start (p : Nat) : CodeEnds := ⟨0, 2 ^ (p + 2) - 1, 0⟩

def interval (c : CodeEnds) : Interval := ⟨c.lo, c.hi⟩

/-- The slice of symbol `i`. -/
def narrow (p : Nat) (T : Nat → Nat) (c : CodeEnds) (i : Nat) : CodeEnds :=
  { c with lo := (c.interval.narrow p T i).lo, hi := (c.interval.narrow p T i).hi }

/-- The ends lie in one quarter, or in two that touch. -/
def Near (q : Nat) (c : CodeEnds) : Prop := c.hi / q ≤ c.lo / q + 1

instance (q : Nat) (c : CodeEnds) : Decidable (c.Near q) := inferInstanceAs (Decidable (_ ≤ _))

def double (c : CodeEnds) : CodeEnds := ⟨2 * c.lo, 2 * c.hi + 1, c.doublings + 1⟩

/-- Double the ends while they are near, at most `fuel` times. -/
def widen (q : Nat) : Nat → CodeEnds → CodeEnds
  | 0, c => c
  | fuel + 1, c => if c.Near q then c.double.widen q fuel else c

/-- The ends after a symbol. -/
def step (p : Nat) (T : Nat → Nat) (c : CodeEnds) (i : Nat) : CodeEnds :=
  (c.narrow p T i).widen (2 ^ p) (p + 2)

/-- How many leading bits the ends share. -/
def settled (p : Nat) (c : CodeEnds) : Nat := p + 2 + c.doublings - Nat.size (c.lo ^^^ c.hi)

/-- No symbol settles more than `limit` bits, and no more than that are left to settle at the end,
with the two that pick a quarter. -/
def SettlesAtMost (p : Nat) (T : Nat → Nat) (limit : Nat) : CodeEnds → List Nat → Prop
  | c, [] => c.doublings + 2 ≤ c.settled p + limit
  | c, i :: is => (c.step p T i).settled p ≤ c.settled p + limit ∧
      SettlesAtMost p T limit (c.step p T i) is

/-- What each symbol settles, and what the end does with the two bits that pick a quarter, is `ok`
behind the bits settled before. -/
def SettlesWith (p : Nat) (T : Nat → Nat) (ok : Nat → Nat → Prop) : CodeEnds → List Nat → Prop
  | c, [] => ok (c.settled p) (c.doublings + 2 - c.settled p)
  | c, i :: is => ok (c.settled p) ((c.step p T i).settled p - c.settled p) ∧
      SettlesWith p T ok (c.step p T i) is

theorem widen_doublings_le (q fuel : Nat) (c : CodeEnds) :
    (c.widen q fuel).doublings ≤ c.doublings + fuel := by
  induction fuel generalizing c with
  | zero => exact Nat.le_refl _
  | succ fuel ih =>
    rw [widen]
    split
    · have hle := ih c.double
      have hdouble : c.double.doublings = c.doublings + 1 := rfl
      omega
    · exact Nat.le_add_right _ _

/-- A symbol doubles the ends a few times. -/
theorem step_doublings_le (p : Nat) (T : Nat → Nat) (c : CodeEnds) (i : Nat) :
    (c.step p T i).doublings ≤ c.doublings + (p + 2) :=
  widen_doublings_le (2 ^ p) (p + 2) (c.narrow p T i)

end CodeEnds

/-! ## The two coders -/

/-- `I` and the output `o` are what the coder has of the ends `c`. -/
structure Tracks (q : Nat) (o : Output) (I : Interval) (c : CodeEnds) : Prop where
  lo : c.lo = o.base q + I.lo
  hi : c.hi = o.base q + I.hi
  doublings : c.doublings = o.bits.length + o.pending

/-- Ends with the first bits `a` in common that differ in bit `n`. -/
theorem size_xor {a x y n : Nat} (hx : x < 2 ^ n) (hy : 2 ^ n ≤ y) (hy' : y < 2 ^ (n + 1)) :
    Nat.size ((a * 2 ^ (n + 1) + x) ^^^ (a * 2 ^ (n + 1) + y)) = n + 1 := by
  have hpos := Nat.two_pow_pos n
  have hpow : 2 ^ (n + 1) = 2 * 2 ^ n := by ring
  have hdiv (k z : Nat) (hle : k * 2 ^ n ≤ z) (hlt : z < (k + 1) * 2 ^ n) :
      (a * 2 ^ (n + 1) + z) / 2 ^ n = 2 * a + k := by
    have hsum : (2 * a + k) * 2 ^ n = a * 2 ^ (n + 1) + k * 2 ^ n := by ring
    have hshift : a * 2 ^ (n + 1) + z = (z - k * 2 ^ n) + (2 * a + k) * 2 ^ n := by omega
    have hrest : z - k * 2 ^ n < 2 ^ n := by
      rw [Nat.succ_mul] at hlt
      omega
    rw [hshift, Nat.add_mul_div_right _ _ hpos, Nat.div_eq_of_lt hrest, Nat.zero_add]
  have htop : ((a * 2 ^ (n + 1) + x) ^^^ (a * 2 ^ (n + 1) + y)) / 2 ^ n =
      2 * a ^^^ (2 * a + 1) := by
    rw [Nat.xor_div_two_pow, hdiv 0 x (by omega) (by omega), hdiv 1 y (by omega) (by omega),
      Nat.add_zero]
  generalize (a * 2 ^ (n + 1) + x) ^^^ (a * 2 ^ (n + 1) + y) = z at *
  apply Nat.le_antisymm
  · -- above bit `n` nothing is left
    rw [Nat.size_le, ← Nat.div_eq_zero_iff_lt (Nat.two_pow_pos _), Nat.pow_succ,
      ← Nat.div_div_eq_div_mul, htop, Nat.xor_div_two]
    have hhalf : 2 * a / 2 = a ∧ (2 * a + 1) / 2 = a := by omega
    rw [hhalf.1, hhalf.2, Nat.xor_self]
  · rw [Nat.succ_le_iff, Nat.lt_size, ← Nat.not_lt, ← Nat.div_eq_zero_iff_lt hpos, htop,
      ← Nat.xor_self (2 * a), Nat.xor_right_inj]
    omega

namespace Tracks

variable {p q s : Nat} {o : Output} {I J : Interval} {ss : List Nat} {c : CodeEnds}

theorem start (p : Nat) : Tracks (2 ^ p) ⟨[], 0⟩ ⟨0, 2 ^ (p + 2) - 1⟩ (.start p) := by
  have hbase : (⟨[], 0⟩ : Output).base (2 ^ p) = 0 := by simp [Output.base, BitString.ofBits]
  refine ⟨?_, ?_, rfl⟩
  · rw [hbase]
    rfl
  · rw [hbase, Nat.zero_add]
    rfl

/-- The quarters of the ends, seen from the base. -/
theorem near_iff (h : Tracks q o I c) (hq : 0 < q) (hI : I.Valid q) :
    c.Near q ↔ ∃ s, I.offset q = some s := by
  obtain ⟨b, hb⟩ : ∃ b, o.base q = q * b := by
    refine ⟨4 * BitString.ofBits o.bits * 2 ^ o.pending + 2 * (2 ^ o.pending - 1), ?_⟩
    rw [Output.base]
    ring
  have hnear : c.Near q ↔ I.hi / q ≤ I.lo / q + 1 := by
    unfold CodeEnds.Near
    rw [h.lo, h.hi, hb, Nat.mul_add_div hq, Nat.mul_add_div hq]
    omega
  have hsome : (∃ s, I.offset q = some s) ↔ ¬ I.offset q = none := by
    rw [← Option.ne_none_iff_exists']
  rw [hnear, hsome, Interval.offset_eq_none_iff]
  have hle := hI.le
  have hlt := hI.lt
  have hlo := Nat.div_add_mod I.lo q
  have hhi := Nat.div_add_mod I.hi q
  have hlo' := Nat.mod_lt I.lo hq
  have hhi' := Nat.mod_lt I.hi hq
  have hlo4 : I.lo / q < 4 := (Nat.div_lt_iff_lt_mul hq).mpr (by omega)
  have hhi4 : I.hi / q < 4 := (Nat.div_lt_iff_lt_mul hq).mpr (by omega)
  generalize I.lo / q = a at *
  generalize I.hi / q = b' at *
  interval_cases a <;> interval_cases b' <;> omega

/-- An expansion doubles the ends. -/
theorem double (h : Tracks q o I c) (hq : 0 < q) (hI : I.Valid q) (hs : I.offset q = some s) :
    Tracks q (o.emit q s) (I.expand s) c.double := by
  have hcases : s = 0 ∨ s = 2 * q ∨ s = q := by
    rcases Interval.offset_cases hs with ⟨h, _⟩ | ⟨h, _⟩ | ⟨h, _⟩
    · exact .inl h
    · exact .inr (.inl h)
    · exact .inr (.inr h)
  have hle := Interval.offset_le_lo hs
  have hle' := hI.le
  refine ⟨?_, ?_, ?_⟩
  · rw [Output.base_emit hq o hcases]
    show 2 * c.lo = 2 * (o.base q + s) + 2 * (I.lo - s)
    rw [h.lo]
    omega
  · rw [Output.base_emit hq o hcases]
    show 2 * c.hi + 1 = 2 * (o.base q + s) + (2 * (I.hi - s) + 1)
    rw [h.hi]
    omega
  · rw [Output.length_emit, ← h.doublings]
    rfl

/-- The expansions of a symbol. -/
theorem widen (h : Tracks q o I c) (hq : 0 < q) (hJ : Expands q I ss J) (hI : I.Valid q) {fuel : Nat}
    (hfuel : ss.length ≤ fuel) : Tracks q (o.emitAll q ss) J (c.widen q fuel) := by
  induction hJ generalizing o c fuel with
  | @done I hnone =>
    have hfar : ¬ c.Near q := by
      rw [h.near_iff hq hI, hnone]
      exact fun hs => nomatch hs
    cases fuel with
    | zero => exact h
    | succ fuel =>
      rw [CodeEnds.widen, if_neg hfar]
      exact h
  | step hs _ ih =>
    cases fuel with
    | zero => exact absurd hfuel (Nat.not_succ_le_zero _)
    | succ fuel =>
      rw [CodeEnds.widen, if_pos ((h.near_iff hq hI).mpr ⟨_, hs⟩), Output.emitAll_cons]
      exact ih (h.double hq hI hs) (hI.expand hs) (Nat.le_of_succ_le_succ hfuel)

theorem narrow {T : Nat → Nat} {i : Nat} (h : Tracks (2 ^ p) o I c) (hI : I.Normal (2 ^ p))
    (hi : T i < T (i + 1)) : Tracks (2 ^ p) o (I.narrow p T i) (c.narrow p T i) := by
  have hle := hI.le
  have hslice := Interval.slice_lt hI hi
  have hrange : c.interval.range = I.range := by
    show c.hi - c.lo + 1 = I.hi - I.lo + 1
    rw [h.lo, h.hi]
    omega
  refine ⟨?_, ?_, h.doublings⟩
  · show c.lo + c.interval.range * T i / 2 ^ p = _ + (I.lo + I.range * T i / 2 ^ p)
    rw [hrange, h.lo, Nat.add_assoc]
  · show c.lo + c.interval.range * T (i + 1) / 2 ^ p - 1 =
      _ + (I.lo + I.range * T (i + 1) / 2 ^ p - 1)
    rw [hrange, h.lo]
    generalize I.range * T (i + 1) / 2 ^ p = x at *
    generalize I.range * T i / 2 ^ p = y at *
    omega

/-- A symbol takes both coders along. -/
theorem step {T : Nat → Nat} {i : Nat} (h : Tracks (2 ^ p) o I c) (hI : I.Normal (2 ^ p))
    (hi : Encodes.Codable p T i) (hJ : Expands (2 ^ p) (I.narrow p T i) ss J) :
    Tracks (2 ^ p) (o.emitAll (2 ^ p) ss) J (c.step p T i) := by
  have hvalid := Interval.narrow_valid hI hi.1 hi.2
  have hlen : ss.length ≤ p + 2 := by
    have hle := hJ.two_pow_length_le hvalid
    have hpos : 0 < (I.narrow p T i).range := Nat.succ_pos _
    rw [← Nat.pow_le_pow_iff_right Nat.one_lt_two]
    calc 2 ^ ss.length ≤ 2 ^ ss.length * (I.narrow p T i).range := Nat.le_mul_of_pos_right _ hpos
      _ ≤ 4 * 2 ^ p := hle
      _ = 2 ^ (p + 2) := by ring
  exact (h.narrow hI hi.1).widen (Nat.two_pow_pos p) hJ hvalid hlen

/-- The bits settled are those put out. -/
theorem settled_eq (h : Tracks (2 ^ p) o I c) (hI : I.Normal (2 ^ p)) :
    c.settled p = o.bits.length := by
  obtain ⟨hlo, hhi, -⟩ := Interval.offset_eq_none_iff.mp hI.offset_eq
  have hlt := hI.lt
  have hpos := Nat.two_pow_pos o.pending
  obtain ⟨m, hm⟩ : ∃ m, 2 ^ o.pending = m + 1 := ⟨2 ^ o.pending - 1, by omega⟩
  have hbase : o.base (2 ^ p) =
      BitString.ofBits o.bits * 2 ^ (p + 1 + o.pending + 1) + 2 * 2 ^ p * m := by
    rw [Output.base]
    simp only [Nat.pow_succ, Nat.pow_add, hm, Nat.add_sub_cancel]
    ring
  have htop : 2 ^ (p + 1 + o.pending) = 2 * 2 ^ p * m + 2 * 2 ^ p := by
    rw [Nat.pow_add, hm]
    ring
  unfold CodeEnds.settled
  rw [h.lo, h.hi, hbase, Nat.add_assoc (_ * _), Nat.add_assoc (_ * _), size_xor, h.doublings]
  · omega
  · rw [htop]
    omega
  · rw [htop]
    omega
  · rw [Nat.pow_succ, htop]
    omega

end Tracks

end ArithCoder
