import Mathlib.Data.List.Induction
import Mathlib.Tactic.Ring
import ProtoDune.Lib.Bits

/-!
# Arithmetic coding with expansions

A code interval lies in `[0, 4 * q)`. It is narrowed to the slice of a symbol
and then expanded while it lies in the lower half, in the upper half or in the
middle half; an expansion subtracts the offset of that half and doubles. The
offsets are all that the two sides share: the encoder turns them into bits, the
decoder follows them with its code value.

Main results:

* `Expands.exists`, `Expands.normal` — the expansions end, in a wide interval.
* `Output.base_emitAll` — the bits of the encoder spell the offsets.
* `Encodes.contains` — a stream that ends in the last interval was in all.
* `Output.flush_contains` — the flushed stream ends in the last interval.
* `mem_narrow` — the code value finds its symbol.
-/

namespace ArithCoder

open BitString

/-- A code interval, both ends included. -/
structure Interval where
  lo : Nat
  hi : Nat
deriving DecidableEq

namespace Interval

/-- `lo ≤ hi < 4 * q`. -/
structure Valid (q : Nat) (I : Interval) : Prop where
  le : I.lo ≤ I.hi
  lt : I.hi < 4 * q

/-- The offset of the half that holds the interval, if one does. -/
def offset (q : Nat) (I : Interval) : Option Nat :=
  if I.hi < 2 * q then some 0
  else if 2 * q ≤ I.lo then some (2 * q)
  else if q ≤ I.lo ∧ I.hi < 3 * q then some q
  else none

/-- Subtract the offset and double. -/
def expand (I : Interval) (s : Nat) : Interval :=
  ⟨2 * (I.lo - s), 2 * (I.hi - s) + 1⟩

/-- No half holds the interval. -/
structure Normal (q : Nat) (I : Interval) : Prop extends Valid q I where
  offset_eq : I.offset q = none

/-- The number of code values of the interval. -/
def range (I : Interval) : Nat := I.hi - I.lo + 1

variable {q : Nat} {I J : Interval} {s : Nat}

theorem offset_cases (h : I.offset q = some s) :
    (s = 0 ∧ I.hi < 2 * q) ∨ (s = 2 * q ∧ 2 * q ≤ I.lo) ∨
      (s = q ∧ q ≤ I.lo ∧ I.lo < 2 * q ∧ 2 * q ≤ I.hi ∧ I.hi < 3 * q) := by
  unfold offset at h
  split at h
  · exact Or.inl ⟨(Option.some.inj h).symm, by assumption⟩
  · split at h
    · exact Or.inr (Or.inl ⟨(Option.some.inj h).symm, by assumption⟩)
    · split at h
      · exact Or.inr (Or.inr ⟨(Option.some.inj h).symm, by omega⟩)
      · cases h

theorem offset_eq_none_iff :
    I.offset q = none ↔ I.lo < 2 * q ∧ 2 * q ≤ I.hi ∧ (I.lo < q ∨ 3 * q ≤ I.hi) := by
  unfold offset
  split
  · simp; omega
  · split
    · simp; omega
    · split
      · simp; omega
      · simp; omega

theorem offset_le_lo (h : I.offset q = some s) : s ≤ I.lo := by
  rcases offset_cases h with ⟨rfl, _⟩ | ⟨rfl, hlo⟩ | ⟨rfl, hlo, _⟩ <;> omega

theorem Valid.expand (hI : I.Valid q) (h : I.offset q = some s) : (I.expand s).Valid q := by
  have hle := hI.le
  have hlt := hI.lt
  have hs := offset_le_lo h
  refine ⟨?_, ?_⟩
  · show 2 * (I.lo - s) ≤ 2 * (I.hi - s) + 1
    omega
  · show 2 * (I.hi - s) + 1 < 4 * q
    rcases offset_cases h with ⟨rfl, hhi⟩ | ⟨rfl, hlo⟩ | ⟨rfl, hlo, _, _, hhi⟩ <;> omega

/-- An expansion doubles the range. -/
theorem Valid.range_expand (hI : I.Valid q) (h : I.offset q = some s) :
    (I.expand s).range = 2 * I.range := by
  have hle := hI.le
  have hs := offset_le_lo h
  show 2 * (I.hi - s) + 1 - 2 * (I.lo - s) + 1 = 2 * (I.hi - I.lo + 1)
  omega

theorem Valid.range_le (hI : I.Valid q) : I.range ≤ 4 * q := by
  have hlt := hI.lt
  unfold range
  omega

/-- A normal interval is wider than a quarter. -/
theorem Normal.lt_range (hI : I.Normal q) : q < I.range := by
  obtain ⟨hlo, hhi, hmid⟩ := offset_eq_none_iff.mp hI.offset_eq
  unfold range
  omega

/-- By more than one value, as the ends of the quarters are excluded. -/
theorem Normal.add_two_le_range (hI : I.Normal q) : q + 2 ≤ I.range := by
  obtain ⟨hlo, hhi, hmid⟩ := offset_eq_none_iff.mp hI.offset_eq
  unfold range
  omega

end Interval

/-! ## The expansions of an interval -/

/-- `I` expands to `J`, which no half holds, with the given offsets. -/
inductive Expands (q : Nat) : Interval → List Nat → Interval → Prop
  | done {I : Interval} : I.offset q = none → Expands q I [] I
  | step {I J : Interval} {s : Nat} {ss : List Nat} : I.offset q = some s →
      Expands q (I.expand s) ss J → Expands q I (s :: ss) J

namespace Expands

variable {q : Nat} {I J : Interval} {ss : List Nat}

theorem normal (h : Expands q I ss J) (hI : I.Valid q) : J.Normal q := by
  induction h with
  | done hnone => exact ⟨hI, hnone⟩
  | step hs _ ih => exact ih (hI.expand hs)

/-- Each expansion doubles the range, so there are few. -/
theorem two_pow_length_le (h : Expands q I ss J) (hI : I.Valid q) :
    2 ^ ss.length * I.range ≤ 4 * q := by
  induction h with
  | done _ =>
      rw [List.length_nil, Nat.pow_zero, Nat.one_mul]
      exact hI.range_le
  | step hs _ ih =>
      have hle := ih (hI.expand hs)
      rw [hI.range_expand hs] at hle
      rw [List.length_cons, Nat.pow_succ, Nat.mul_assoc]
      exact hle

theorem «exists» (hI : I.Valid q) : ∃ ss J, Expands q I ss J := by
  induction hn : 4 * q - I.range using Nat.strong_induction_on generalizing I with
  | _ n ih =>
      cases hs : I.offset q with
      | none => exact ⟨[], I, .done hs⟩
      | some s =>
          have hle := (hI.expand hs).range_le
          have hpos : 0 < I.range := Nat.succ_pos _
          rw [hI.range_expand hs] at hle
          obtain ⟨ss, J, hJ⟩ := ih _ (by rw [hI.range_expand hs]; omega) (hI.expand hs) rfl
          exact ⟨s :: ss, J, .step hs hJ⟩

theorem unique {J' : Interval} {ss' : List Nat} (h : Expands q I ss J)
    (h' : Expands q I ss' J') : ss = ss' ∧ J = J' := by
  induction h generalizing ss' with
  | done hnone =>
      cases h' with
      | done _ => exact ⟨rfl, rfl⟩
      | step hs _ => rw [hnone] at hs; cases hs
  | step hs _ ih =>
      cases h' with
      | done hnone => rw [hnone] at hs; cases hs
      | step hs' hrest =>
          rw [hs] at hs'
          cases hs'
          obtain ⟨rfl, rfl⟩ := ih hrest
          exact ⟨rfl, rfl⟩

end Expands

/-! ## The stream, read as a number -/

/-- The number spelled by the first `n` bits. -/
def read (b : Nat → Bool) : Nat → Nat
  | 0 => 0
  | n + 1 => 2 * read b n + (b n).toNat

theorem read_succ (b : Nat → Bool) (n : Nat) : read b (n + 1) = 2 * read b n + (b n).toNat := rfl

theorem read_div_two (b : Nat → Bool) (n : Nat) : read b (n + 1) / 2 = read b n := by
  have hbit := Bool.toNat_lt (b n)
  rw [read_succ]
  omega

theorem read_eq_ofBits {b : Nat → Bool} {S : List Bool}
    (h : ∀ i (hi : i < S.length), b i = S[i]) : read b S.length = ofBits S := by
  induction S using List.reverseRecOn with
  | nil => rfl
  | append_singleton S x ih =>
      have hlast : b S.length = x := by
        rw [h S.length (by simp)]
        simp
      have hfirst : read b S.length = ofBits S := ih fun i hi => by
        rw [h i (by simp; omega), List.getElem_append_left hi]
      rw [List.length_append, List.length_singleton, read_succ, hfirst, hlast, ofBits_append]
      simp [ofBits, Nat.mul_comm]

/-- Further bits change the low part only. -/
theorem read_add (b : Nat → Bool) (m n : Nat) :
    read b m * 2 ^ n ≤ read b (m + n) ∧ read b (m + n) < (read b m + 1) * 2 ^ n := by
  induction n with
  | zero => simp
  | succ n ih =>
      have hbit := Bool.toNat_lt (b (m + n))
      rw [← Nat.add_assoc, read_succ, Nat.pow_succ, ← Nat.mul_assoc, ← Nat.mul_assoc]
      omega

/-! ## Where the code value is -/

/-- What the offsets subtract from the number read, in all. -/
def shifted (c : Nat) : List Nat → Nat
  | [] => c
  | s :: ss => shifted (2 * (c + s)) ss

theorem shifted_append (c : Nat) (ss ts : List Nat) :
    shifted c (ss ++ ts) = shifted (shifted c ss) ts := by
  induction ss generalizing c with
  | nil => rfl
  | cons s ss ih => exact ih _

/-- The number read from `n` bits lies in `I`, moved up by `c`. -/
def Contains (b : Nat → Bool) (n c : Nat) (I : Interval) : Prop :=
  c + I.lo ≤ read b n ∧ read b n ≤ c + I.hi

theorem Expands.contains {q : Nat} {I J : Interval} {ss : List Nat} (h : Expands q I ss J)
    (hI : I.Valid q) {b : Nat → Bool} {n c : Nat}
    (hJ : Contains b (n + ss.length) (shifted c ss) J) : Contains b n c I := by
  induction h generalizing n c with
  | done _ => exact hJ
  | @step I J s ss hs _ ih =>
      rw [List.length_cons, Nat.add_comm ss.length 1, ← Nat.add_assoc] at hJ
      obtain ⟨hlo, hhi⟩ := ih (hI.expand hs) hJ
      have hle := Interval.offset_le_lo hs
      have hle' := hI.le
      have hdiv := read_div_two b n
      change 2 * (c + s) + 2 * (I.lo - s) ≤ _ at hlo
      change _ ≤ 2 * (c + s) + (2 * (I.hi - s) + 1) at hhi
      constructor
      · omega
      · omega

/-! ## The bits of the encoder -/

/-- The bits put out and the number of pending ones, whose value is the
complement of the next bit. -/
structure Output where
  bits : List Bool
  pending : Nat

namespace Output

/-- Put out the bit of one expansion, or make it pending. -/
def emit (q : Nat) (o : Output) (s : Nat) : Output :=
  if s = q then ⟨o.bits, o.pending + 1⟩
  else ⟨o.bits ++ decide (s ≠ 0) :: List.replicate o.pending (decide (s = 0)), 0⟩

theorem emit_self (q : Nat) (o : Output) : o.emit q q = ⟨o.bits, o.pending + 1⟩ := if_pos rfl

/-- The output of a list of expansions. -/
def emitAll (q : Nat) (o : Output) (ss : List Nat) : Output := ss.foldl (emit q) o

theorem emitAll_cons (q : Nat) (o : Output) (s : Nat) (ss : List Nat) :
    o.emitAll q (s :: ss) = (o.emit q s).emitAll q ss := rfl

theorem emitAll_append (q : Nat) (o : Output) (ss ts : List Nat) :
    o.emitAll q (ss ++ ts) = (o.emitAll q ss).emitAll q ts := List.foldl_append ..

theorem emitAll_replicate (q : Nat) (o : Output) (n : Nat) :
    o.emitAll q (List.replicate n q) = ⟨o.bits, o.pending + n⟩ := by
  induction n generalizing o with
  | zero => rfl
  | succ n ih =>
      rw [List.replicate_succ, emitAll_cons, ih, emit_self, Nat.add_assoc, Nat.add_comm 1]

/-- What the output spells, in the units of the interval. -/
def base (q : Nat) (o : Output) : Nat :=
  4 * q * ofBits o.bits * 2 ^ o.pending + 2 * q * (2 ^ o.pending - 1)

theorem ofBits_replicate_true (k : Nat) : ofBits (List.replicate k true) = 2 ^ k - 1 := by
  induction k with
  | zero => rfl
  | succ k ih =>
      have hpos := Nat.two_pow_pos k
      rw [List.replicate_succ, ofBits, ih, List.length_replicate, Nat.pow_succ]
      simp
      omega

theorem ofBits_replicate_false (k : Nat) : ofBits (List.replicate k false) = 0 := by
  induction k with
  | zero => rfl
  | succ k ih => rw [List.replicate_succ, ofBits, ih]; simp

/-- A bit and `k` complements of it. -/
theorem ofBits_pending (bits : List Bool) (x : Bool) (k : Nat) :
    ofBits (bits ++ x :: List.replicate k (!x)) + (!x).toNat =
      ofBits bits * 2 ^ (k + 1) + 2 ^ k := by
  have hpos := Nat.two_pow_pos k
  rw [ofBits_append, List.length_cons, List.length_replicate, ofBits, List.length_replicate]
  cases x
  · rw [Bool.not_false, ofBits_replicate_true]
    simp
    omega
  · rw [Bool.not_true, ofBits_replicate_false]
    simp

theorem base_emit {q s : Nat} (hq : 0 < q) (o : Output) (hs : s = 0 ∨ s = 2 * q ∨ s = q) :
    (o.emit q s).base q = 2 * (o.base q + s) := by
  have hpos := Nat.two_pow_pos o.pending
  obtain ⟨m, hm⟩ : ∃ m, 2 ^ o.pending = m + 1 := ⟨2 ^ o.pending - 1, by omega⟩
  by_cases hq' : s = q
  · subst hq'
    rw [emit, if_pos rfl, base, base]
    simp only [Nat.pow_succ, hm]
    rw [show (m + 1) * 2 - 1 = 2 * m + 1 by omega, show m + 1 - 1 = m by omega]
    ring
  · have hbit := ofBits_pending o.bits (decide (s ≠ 0)) o.pending
    have hnot : (!decide (s ≠ 0)) = decide (s = 0) := by simp
    rw [hnot, Nat.pow_succ, hm] at hbit
    rw [emit, if_neg hq', base, base]
    simp only [Nat.pow_zero, Nat.mul_one, Nat.sub_self, Nat.mul_zero, Nat.add_zero, hm,
      Nat.add_sub_cancel]
    rcases hs with rfl | rfl | rfl
    · simp only [decide_true, Bool.toNat_true] at hbit
      have hval : ofBits (o.bits ++ decide (0 ≠ 0) :: List.replicate o.pending (decide (0 = 0))) =
          ofBits o.bits * ((m + 1) * 2) + m := by
        simp only [decide_true] at hbit ⊢
        omega
      simp only [decide_true] at hval ⊢
      rw [hval]
      ring
    · have hne : ¬ 2 * q = 0 := by omega
      simp only [hne, decide_false, Bool.toNat_false, Nat.add_zero] at hbit ⊢
      rw [hbit]
      ring
    · exact absurd rfl hq'

theorem length_emit (q : Nat) (o : Output) (s : Nat) :
    (o.emit q s).bits.length + (o.emit q s).pending = o.bits.length + o.pending + 1 := by
  unfold emit
  split
  · rfl
  · simp
    omega

/-- The output spells the offsets of the expansions. -/
theorem base_emitAll {q : Nat} (hq : 0 < q) {I J : Interval} {ss : List Nat}
    (h : Expands q I ss J) (o : Output) :
    (o.emitAll q ss).base q = shifted (o.base q) ss ∧
      (o.emitAll q ss).bits.length + (o.emitAll q ss).pending =
        o.bits.length + o.pending + ss.length := by
  induction h generalizing o with
  | done _ => exact ⟨rfl, rfl⟩
  | @step I J s ss hs _ ih =>
      obtain ⟨hbase, hlen⟩ := ih (o.emit q s)
      have hcases : s = 0 ∨ s = 2 * q ∨ s = q := by
        rcases Interval.offset_cases hs with ⟨h, _⟩ | ⟨h, _⟩ | ⟨h, _⟩ <;> omega
      rw [emitAll_cons, hbase, hlen, base_emit hq o hcases, length_emit, List.length_cons]
      exact ⟨rfl, by omega⟩

/-- The last bits: one that picks a quarter, and the pending ones with one more. -/
def flush (o : Output) (x : Bool) : List Bool := o.bits ++ x :: List.replicate (o.pending + 1) (!x)

theorem length_flush (o : Output) (x : Bool) :
    (o.flush x).length = o.bits.length + o.pending + 2 := by
  simp [flush]
  omega

/-- The quarter picked lies in a normal interval, whatever follows the output. -/
theorem flush_contains {p : Nat} {K : Interval} (hK : K.Normal (2 ^ p)) (o : Output)
    {b : Nat → Bool} (hb : ∀ i (hi : i < (o.flush (decide (2 ^ p ≤ K.lo))).length),
      b i = (o.flush (decide (2 ^ p ≤ K.lo)))[i]) :
    Contains b (o.bits.length + o.pending + (p + 2)) (o.base (2 ^ p)) K := by
  obtain ⟨hlo, hhi, hmid⟩ := Interval.offset_eq_none_iff.mp hK.offset_eq
  have hread := read_eq_ofBits hb
  have hadd := read_add b (o.flush (decide (2 ^ p ≤ K.lo))).length p
  rw [hread, length_flush] at hadd
  rw [show o.bits.length + o.pending + (p + 2) = o.bits.length + o.pending + 2 + p by omega]
  have hbit := ofBits_pending o.bits (decide (2 ^ p ≤ K.lo)) (o.pending + 1)
  change ofBits (o.flush _) + _ = _ at hbit
  have hpos := Nat.two_pow_pos o.pending
  obtain ⟨m, hm⟩ : ∃ m, 2 ^ o.pending = m + 1 := ⟨2 ^ o.pending - 1, by omega⟩
  have hbase : o.base (2 ^ p) + 2 * 2 ^ p =
      (ofBits o.bits * 2 ^ (o.pending + 1 + 1) + 2 ^ (o.pending + 1)) * 2 ^ p := by
    rw [base]
    simp only [Nat.pow_succ, hm, Nat.add_sub_cancel]
    ring
  rw [← hbit] at hbase
  unfold Contains
  by_cases hquarter : 2 ^ p ≤ K.lo
  · rw [decide_eq_true hquarter] at hadd hbase
    simp only [Bool.not_true, Bool.toNat_false, Nat.add_zero] at hbase
    rw [Nat.add_mul] at hadd
    omega
  · rw [decide_eq_false hquarter] at hadd hbase
    simp only [Bool.not_false, Bool.toNat_true] at hbase
    rw [Nat.add_mul] at hbase hadd
    omega

end Output

/-! ## Symbols by their cumulative frequencies -/

namespace Interval

/-- The slice of symbol `i` under the cumulative frequencies `T`, in units of
`2 ^ p`. -/
def narrow (p : Nat) (T : Nat → Nat) (I : Interval) (i : Nat) : Interval :=
  ⟨I.lo + I.range * T i / 2 ^ p, I.lo + I.range * T (i + 1) / 2 ^ p - 1⟩

/-- The cumulative frequency of a code value. -/
def cum (p : Nat) (I : Interval) (v : Nat) : Nat := ((v - I.lo + 1) * 2 ^ p - 1) / I.range

variable {p : Nat} {I : Interval} {T : Nat → Nat}

theorem le_cum_iff {v : Nat} (t : Nat) (hv : I.lo ≤ v) :
    t ≤ I.cum p v ↔ I.lo + I.range * t / 2 ^ p ≤ v := by
  have hpos := Nat.two_pow_pos p
  have hnum : 0 < (v - I.lo + 1) * 2 ^ p := Nat.mul_pos (by omega) hpos
  have hdiv : I.range * t / 2 ^ p < v - I.lo + 1 ↔ I.range * t < (v - I.lo + 1) * 2 ^ p :=
    Nat.div_lt_iff_lt_mul hpos
  rw [cum, Nat.le_div_iff_mul_le (show 0 < I.range from Nat.succ_pos _), Nat.mul_comm t]
  omega

/-- In a normal interval the slice of a symbol that occurs is not empty. -/
theorem slice_lt (hI : I.Normal (2 ^ p)) {i : Nat} (hi : T i < T (i + 1)) :
    I.range * T i / 2 ^ p < I.range * T (i + 1) / 2 ^ p := by
  have hrange := hI.lt_range
  have hnum : I.range * T i + 2 ^ p ≤ I.range * T (i + 1) := calc
    I.range * T i + 2 ^ p ≤ I.range * T i + I.range := by omega
    _ = I.range * (T i + 1) := by ring
    _ ≤ I.range * T (i + 1) := Nat.mul_le_mul_left _ hi
  calc I.range * T i / 2 ^ p
    _ < I.range * T i / 2 ^ p + 1 := Nat.lt_succ_self _
    _ = (I.range * T i + 2 ^ p) / 2 ^ p := (Nat.add_div_right _ (Nat.two_pow_pos p)).symm
    _ ≤ I.range * T (i + 1) / 2 ^ p := Nat.div_le_div_right hnum

/-- The slice of a symbol that occurs lies in the interval. -/
theorem narrow_bounds (hI : I.Normal (2 ^ p)) {i : Nat} (hi : T i < T (i + 1))
    (hT : T (i + 1) ≤ 2 ^ p) :
    I.lo ≤ (I.narrow p T i).lo ∧ (I.narrow p T i).lo ≤ (I.narrow p T i).hi ∧
      (I.narrow p T i).hi ≤ I.hi := by
  have hstep := slice_lt hI hi
  have htop : I.range * T (i + 1) / 2 ^ p ≤ I.range := by
    refine Nat.div_le_of_le_mul ?_
    rw [Nat.mul_comm (2 ^ p)]
    exact Nat.mul_le_mul_left _ hT
  have hle := hI.le
  have hdef : I.range = I.hi - I.lo + 1 := rfl
  unfold narrow
  refine ⟨Nat.le_add_right _ _, ?_, ?_⟩
  · show I.lo + _ ≤ I.lo + _ - 1
    omega
  · show I.lo + _ - 1 ≤ I.hi
    omega

theorem narrow_valid (hI : I.Normal (2 ^ p)) {i : Nat} (hi : T i < T (i + 1))
    (hT : T (i + 1) ≤ 2 ^ p) : (I.narrow p T i).Valid (2 ^ p) := by
  obtain ⟨_, hle, hhi⟩ := narrow_bounds hI hi hT
  exact ⟨hle, Nat.lt_of_le_of_lt hhi hI.lt⟩

/-- The slices of different symbols are disjoint. -/
theorem narrow_disjoint (hI : I.Normal (2 ^ p)) {i j : Nat} (hi : T i < T (i + 1))
    (hij : T (i + 1) ≤ T j) : (I.narrow p T i).hi < (I.narrow p T j).lo := by
  have hpos := Nat.pos_of_ne_zero (Nat.ne_zero_of_lt (slice_lt hI hi))
  have hstep : I.range * T (i + 1) / 2 ^ p ≤ I.range * T j / 2 ^ p :=
    Nat.div_le_div_right (Nat.mul_le_mul_left _ hij)
  show I.lo + I.range * T (i + 1) / 2 ^ p - 1 < I.lo + I.range * T j / 2 ^ p
  omega

/-- A code value of the slice finds its symbol. -/
theorem mem_narrow (hI : I.Normal (2 ^ p)) {i v : Nat} (hi : T i < T (i + 1))
    (hT : T (i + 1) ≤ 2 ^ p) (hlo : (I.narrow p T i).lo ≤ v) (hhi : v ≤ (I.narrow p T i).hi) :
    T i ≤ I.cum p v ∧ I.cum p v < T (i + 1) := by
  have hpos := Nat.pos_of_ne_zero (Nat.ne_zero_of_lt (slice_lt hI hi))
  have hv : I.lo ≤ v := Nat.le_trans (narrow_bounds hI hi hT).1 hlo
  refine ⟨(le_cum_iff _ hv).mpr hlo, ?_⟩
  rw [← Nat.not_le, le_cum_iff _ hv]
  change v ≤ I.lo + _ - 1 at hhi
  omega

end Interval

/-- The symbols take `I` to `K`, with the given offsets in all. -/
inductive Encodes (p : Nat) (T : Nat → Nat) : Interval → List Nat → List Nat → Interval → Prop
  | nil {I : Interval} : Encodes p T I [] [] I
  | cons {I J K : Interval} {i : Nat} {is ss ts : List Nat} :
      Expands (2 ^ p) (I.narrow p T i) ss J → Encodes p T J is ts K →
        Encodes p T I (i :: is) (ss ++ ts) K

namespace Encodes

variable {p : Nat} {T : Nat → Nat} {I K : Interval} {is ss : List Nat}

/-- A symbol that occurs. -/
def Codable (p : Nat) (T : Nat → Nat) (i : Nat) : Prop := T i < T (i + 1) ∧ T (i + 1) ≤ 2 ^ p

theorem normal (h : Encodes p T I is ss K) (hI : I.Normal (2 ^ p))
    (his : ∀ i ∈ is, Codable p T i) : K.Normal (2 ^ p) := by
  induction h with
  | nil => exact hI
  | cons hJ _ ih =>
      obtain ⟨hlt, hle⟩ := his _ (List.mem_cons_self ..)
      exact ih (hJ.normal (Interval.narrow_valid hI hlt hle))
        fun i hi => his i (List.mem_cons_of_mem _ hi)

/-- A stream that ends in the last interval was in the first. -/
theorem contains (h : Encodes p T I is ss K) (hI : I.Normal (2 ^ p))
    (his : ∀ i ∈ is, Codable p T i) {b : Nat → Bool} {n c : Nat}
    (hK : Contains b (n + ss.length) (shifted c ss) K) : Contains b n c I := by
  induction h generalizing n c with
  | nil => exact hK
  | cons hJ _ ih =>
      obtain ⟨hlt, hle⟩ := his _ (List.mem_cons_self ..)
      rw [List.length_append, ← Nat.add_assoc, shifted_append] at hK
      have hvalid := Interval.narrow_valid hI hlt hle
      have hrest := ih (hJ.normal hvalid) (fun i hi => his i (List.mem_cons_of_mem _ hi)) hK
      obtain ⟨hlo, hhi⟩ := hJ.contains hvalid hrest
      obtain ⟨hle₁, _, hle₂⟩ := Interval.narrow_bounds hI hlt hle
      exact ⟨by omega, by omega⟩

/-- The output spells the offsets of all symbols. -/
theorem base_emitAll (h : Encodes p T I is ss K) (o : Output) :
    (o.emitAll (2 ^ p) ss).base (2 ^ p) = shifted (o.base (2 ^ p)) ss ∧
      (o.emitAll (2 ^ p) ss).bits.length + (o.emitAll (2 ^ p) ss).pending =
        o.bits.length + o.pending + ss.length := by
  induction h generalizing o with
  | nil => exact ⟨rfl, rfl⟩
  | @cons I J K i is ss ts hss _ ih =>
      obtain ⟨hbase, hlen⟩ := Output.base_emitAll (Nat.two_pow_pos p) hss o
      obtain ⟨hbase', hlen'⟩ := ih (o.emitAll (2 ^ p) ss)
      rw [Output.emitAll_append, shifted_append, hbase', hbase, hlen', hlen, List.length_append]
      exact ⟨rfl, by omega⟩

/-- A stream that starts with the flushed output ends in the last interval. -/
theorem flush_contains (h : Encodes p T I is ss K) (hK : K.Normal (2 ^ p)) {b : Nat → Bool}
    {S : List Bool}
    (hS : S = ((⟨[], 0⟩ : Output).emitAll (2 ^ p) ss).flush (decide (2 ^ p ≤ K.lo)))
    (hb : ∀ i (hi : i < S.length), b i = S[i]) :
    Contains b (p + 2 + ss.length) (shifted 0 ss) K ∧ S.length = ss.length + 2 := by
  subst hS
  obtain ⟨hbase, hlen⟩ := h.base_emitAll ⟨[], 0⟩
  have hzero : (⟨[], 0⟩ : Output).base (2 ^ p) = 0 := by simp [Output.base, ofBits]
  have hlen' : (⟨[], 0⟩ : Output).bits.length + (⟨[], 0⟩ : Output).pending = 0 := rfl
  rw [hlen', Nat.zero_add] at hlen
  rw [hzero] at hbase
  have hin := Output.flush_contains hK _ hb
  rw [hlen, hbase, Nat.add_comm ss.length] at hin
  exact ⟨hin, by rw [Output.length_flush, hlen]⟩

end Encodes

end ArithCoder
