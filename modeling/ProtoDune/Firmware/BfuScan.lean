import ProtoDune.Firmware.Bfu

/-!
# `BFU.h`: scanning for a bit

`BFU__ffs` scans for the next set bit and `BFU__ffc` for the next clear one. Both
skip the words without such a bit. `BFU__ffc` looks for it in an `unsigned int`,
so of each word it sees the low half alone.

Main results:

* `ffs_spec` — the set bit is found, whichever word it lies in.
* `ffc_spec`, `ffc_only` — the clear bit is found where it is in the half that is seen.
-/

namespace ProtoDune.Firmware

open BitString

/-- The variables of a scan. -/
structure Scan where
  pos : Nat
  cur : Nat
  tmp : Nat
  left : Nat

/-- `unsigned int tmp = ~x`. -/
def notLow (x : Nat) : Nat := (2 ^ 64 - 1 - x) % 2 ^ 32

/-- `while (tmp == 0)`: the next word, seen through `view`. Each round reads another word, so a
loop that takes more rounds than the array has words goes on for ever. -/
def skipWords (wrds : WordArray) (view : Nat → Nat) : Nat → Scan → Option Scan
  | 0, s => if s.tmp = 0 then none else some s
  | fuel + 1, s =>
      if s.tmp = 0 then do
        let pos := (s.pos + s.left) % 2 ^ 32
        let cur ← wrds.get (bfuIndex pos)
        skipWords wrds view fuel ⟨pos, cur, view cur, 64⟩
      else some s

/-- The second loop of `BFU__ffs`. -/
def ffsLoop (wrds : WordArray) : Nat → Scan → Option Bfu
  | 0, _ => none
  | fuel + 1, s =>
      let n := countLeadingZeros 64 s.tmp
      let pos := (s.pos + n) % 2 ^ 32
      if s.left ≤ n then do
        let tmp ← wrds.get (bfuIndex pos)
        if n = s.left then some ⟨s.cur, pos⟩
        else do
          let pos := (pos + 2 ^ 32 - 1) % 2 ^ 32
          -- here the current word is tested and not the one just read
          let s ←
            if s.cur = 0 then skipWords wrds id fuel ⟨pos, s.cur, 0, 64⟩
            else some ⟨pos, s.cur, tmp, 64⟩
          ffsLoop wrds fuel s
      else some ⟨s.cur, pos⟩

/-- What is left of the word of the position, seen through `view`. -/
def Scan.start (view : Nat → Nat) (cur position : Nat) : Scan :=
  let left := bfuBit position
  ⟨position, cur, view (cur <<< left % 2 ^ 64), 64 - left⟩

/-- `BFU__ffs`. -/
def ffs (wrds : WordArray) (cur position : Nat) : Option Bfu := do
  let s ← skipWords wrds id (wrds.size + 1) (.start id cur position)
  ffsLoop wrds (wrds.size + 1) s

/-- The second loop of `BFU__ffc`. -/
def ffcLoop (wrds : WordArray) : Nat → Scan → Option Bfu
  | 0, _ => none
  | fuel + 1, s =>
      let n := countLeadingZeros 64 s.tmp
      let pos := (s.pos + n) % 2 ^ 32
      if s.left ≤ n then do
        let cur ← wrds.get (bfuIndex pos)
        if n = s.left then some ⟨cur, pos⟩
        else do
          let pos := (pos + 2 ^ 32 - 1) % 2 ^ 32
          let s ← skipWords wrds notLow fuel ⟨pos, cur, notLow cur, 64⟩
          ffcLoop wrds fuel s
      else some ⟨s.cur, pos⟩

/-- `BFU__ffc`. -/
def ffc (wrds : WordArray) (cur position : Nat) : Option Bfu := do
  let s ← skipWords wrds notLow (wrds.size + 1) (.start notLow cur position)
  ffcLoop wrds (wrds.size + 1) s

/-- The first bit of value `b` at `position` or after it is at `p`. -/
structure FirstBit (wrds : WordArray) (b : Bool) (position p : Nat) : Prop where
  le : position ≤ p
  inside : p / 64 < wrds.size
  bit : bitAt wrds.word p = b
  first : ∀ q, position ≤ q → q < p → bitAt wrds.word q = !b

/-- The scan ended at `p`, with its word. -/
def Found (wrds : WordArray) (r : Option Bfu) (p : Nat) : Prop :=
  r = some ⟨wrds.word (p / 64), p⟩

/-! ## Skipping words -/

section

variable {wrds : WordArray} {view : Nat → Nat} {fuel w o : Nat}

theorem skipWords_of_ne {s : Scan} (h : s.tmp ≠ 0) : skipWords wrds view fuel s = some s := by
  cases fuel with
  | zero => exact if_neg h
  | succ fuel => exact if_neg h

/-- One round. -/
theorem skipWords_round {s : Scan} (h : s.tmp = 0) (hnext : s.pos + s.left = 64 * w + o)
    (ho : o < 64) (hsmall : 64 * w + o < 2 ^ 32) (hw : w < wrds.size) :
    skipWords wrds view (fuel + 1) s =
      skipWords wrds view fuel ⟨64 * w + o, wrds.word w, view (wrds.word w), 64⟩ := by
  have hindex : bfuIndex (64 * w + o) = w := by
    rw [bfuIndex, Nat.shiftRight_eq_div_pow]
    omega
  rw [skipWords, if_pos h, hnext, Nat.mod_eq_of_lt hsmall]
  dsimp only
  rw [hindex, WordArray.get, if_pos hw]
  rfl

/-- The words in which nothing is seen are skipped. -/
theorem skipWords_spec {W : Nat} (hle : w ≤ W) (hW : W < wrds.size) (ho : o < 64)
    (hsmall : 64 * W + o < 2 ^ 32) (hskip : ∀ v, w ≤ v → v < W → view (wrds.word v) = 0)
    (hstop : view (wrds.word W) ≠ 0) (hfuel : W ≤ w + fuel) :
    skipWords wrds view fuel ⟨64 * w + o, wrds.word w, view (wrds.word w), 64⟩ =
      some ⟨64 * W + o, wrds.word W, view (wrds.word W), 64⟩ := by
  induction fuel generalizing w with
  | zero =>
    obtain rfl : w = W := by omega
    exact skipWords_of_ne hstop
  | succ fuel ih =>
    rcases Nat.eq_or_lt_of_le hle with rfl | hlt
    · exact skipWords_of_ne hstop
    · have hzero : view (wrds.word w) = 0 := hskip w (Nat.le_refl w) hlt
      rw [skipWords_round hzero (show 64 * w + o + 64 = 64 * (w + 1) + o by omega) ho (by omega)
        (by omega)]
      exact ih hlt (fun v hv => hskip v (by omega)) (by omega)

/-- Where it ends, something is seen; `2 ^ 26` words are the words that have a position. -/
theorem exists_of_skipWords {s : Scan} (hw : w < wrds.size) (ho : o < 64)
    (hsize : wrds.size < 2 ^ 26)
    (h : skipWords wrds view fuel ⟨64 * w + o, wrds.word w, view (wrds.word w), 64⟩ = some s) :
    ∃ W, w ≤ W ∧ W < wrds.size ∧ view (wrds.word W) ≠ 0 ∧
      s = ⟨64 * W + o, wrds.word W, view (wrds.word W), 64⟩ := by
  induction fuel generalizing w with
  | zero =>
    by_cases hzero : view (wrds.word w) = 0
    · rw [skipWords, if_pos hzero] at h
      cases h
    · rw [skipWords_of_ne hzero] at h
      exact ⟨w, Nat.le_refl w, hw, hzero, (Option.some.inj h).symm⟩
  | succ fuel ih =>
    by_cases hzero : view (wrds.word w) = 0
    · by_cases hnext : w + 1 < wrds.size
      · rw [skipWords_round hzero (show 64 * w + o + 64 = 64 * (w + 1) + o by omega) ho (by omega)
          hnext] at h
        obtain ⟨W, hle, hrest⟩ := ih hnext h
        exact ⟨W, by omega, hrest⟩
      · -- the read beyond the array
        have hindex : bfuIndex ((64 * w + o + 64) % 2 ^ 32) = w + 1 := by
          rw [bfuIndex, Nat.shiftRight_eq_div_pow]
          omega
        rw [skipWords, if_pos hzero] at h
        dsimp only at h
        rw [hindex, WordArray.get, if_neg hnext] at h
        cases h
    · rw [skipWords_of_ne hzero] at h
      exact ⟨w, Nat.le_refl w, hw, hzero, (Option.some.inj h).symm⟩

end

/-! ## The set bit -/

theorem bfuBit_eq (position : Nat) : bfuBit position = position % 64 :=
  Nat.and_two_pow_sub_one_eq_mod position 6

theorem bfuIndex_eq (position : Nat) : bfuIndex position = position / 64 :=
  Nat.shiftRight_eq_div_pow position 6

theorem Scan.start_tmp (view : Nat → Nat) (cur position : Nat) :
    (start view cur position).tmp = view (cur <<< (position % 64) % 2 ^ 64) := by
  rw [← bfuBit_eq]
  rfl

theorem Scan.start_left (view : Nat → Nat) (cur position : Nat) :
    (start view cur position).left = 64 - position % 64 := by
  rw [← bfuBit_eq]
  rfl

/-- A bit of a word, counted from the top. -/
theorem bitAt_word (mem : Memory) (w : Nat) {i : Nat} (hi : i < 64) :
    bitAt mem (64 * w + i) = (mem w).testBit (63 - i) := by
  rw [bitAt, show (64 * w + i) / 64 = w by omega, show (64 * w + i) % 64 = i by omega]

/-- The word behind the position, from the top. -/
theorem testBit_shifted (mem : Memory) (position : Nat) {i : Nat} (hi : i < 64) :
    (mem (position / 64) <<< (position % 64) % 2 ^ 64).testBit (63 - i) =
      (decide (position % 64 + i < 64) && bitAt mem (position + i)) := by
  rw [Nat.testBit_mod_two_pow, Nat.testBit_shiftLeft, decide_eq_true (by omega), Bool.true_and]
  by_cases hin : position % 64 + i < 64
  · rw [decide_eq_true hin, decide_eq_true (by omega), bitAt,
      show (position + i) / 64 = position / 64 by omega,
      show 63 - i - position % 64 = 63 - (position + i) % 64 by omega]
  · rw [decide_eq_false hin, decide_eq_false (by omega), Bool.false_and, Bool.false_and]

/-- The word is empty where none of its bits is set. -/
theorem WordArray.word_eq_zero {wrds : WordArray} {w : Nat}
    (h : ∀ i < 64, bitAt wrds.word (64 * w + i) = false) : wrds.word w = 0 := by
  refine Nat.eq_of_testBit_eq fun i => ?_
  rw [Nat.zero_testBit]
  by_cases hi : i < 64
  · have hbit := h (63 - i) (by omega)
    rwa [bitAt_word _ _ (by omega), show 63 - (63 - i) = i by omega] at hbit
  · refine Nat.testBit_lt_two_pow (Nat.lt_of_lt_of_le (wrds.word_lt w) ?_)
    exact Nat.pow_le_pow_right (by decide) (by omega)

/-- The loop ends at once where the bit is one of the bits left. -/
theorem ffsLoop_of_lt {wrds : WordArray} {fuel : Nat} (s : Scan) {n : Nat}
    (hn : countLeadingZeros 64 s.tmp = n) (hlt : n < s.left) (hsmall : s.pos + n < 2 ^ 32) :
    ffsLoop wrds (fuel + 1) s = some ⟨s.cur, s.pos + n⟩ := by
  rw [ffsLoop, hn]
  dsimp only
  rw [if_neg (by omega), Nat.mod_eq_of_lt hsmall]

/-- **The first set bit**, whichever word it lies in. -/
theorem ffs_spec {wrds : WordArray} {position p : Nat} (h : FirstBit wrds true position p)
    (hp : p < 2 ^ 32) : Found wrds (ffs wrds (wrds.word (position / 64)) position) p := by
  have hle := h.le
  have hin := h.inside
  have htmp := Scan.start_tmp id (wrds.word (position / 64)) position
  have hleft := Scan.start_left id (wrds.word (position / 64)) position
  unfold Found ffs
  by_cases hsame : p / 64 = position / 64
  · -- in the word of the position
    have hset : (Scan.start id (wrds.word (position / 64)) position).tmp.testBit
        (64 - 1 - (p - position)) = true := by
      rw [htmp]
      show Nat.testBit _ (63 - (p - position)) = true
      rw [id, testBit_shifted _ _ (by omega), decide_eq_true (by omega), Bool.true_and,
        Nat.add_sub_cancel' hle, h.bit]
    have hclz : countLeadingZeros 64
        (Scan.start id (wrds.word (position / 64)) position).tmp = p - position := by
      apply countLeadingZeros_eq _ hset
      · intro i hi
        rw [htmp]
        show Nat.testBit _ (63 - i) = false
        rw [id, testBit_shifted _ _ (by omega), h.first (position + i) (by omega) (by omega)]
        exact Bool.and_false _
      · rw [htmp]
        exact Nat.mod_lt _ (Nat.two_pow_pos 64)
    have hsmall : position + (p - position) < 2 ^ 32 := by omega
    rw [skipWords_of_ne (ne_zero_of_testBit hset), Option.bind_eq_bind, Option.bind_some,
      ffsLoop_of_lt _ hclz (by omega) hsmall]
    show some (⟨wrds.word (position / 64), position + (p - position)⟩ : Bfu) = _
    rw [hsame, Nat.add_sub_cancel' hle]
  · -- nothing in this word, and nothing in those before the word of the bit
    have hzero : (Scan.start id (wrds.word (position / 64)) position).tmp = 0 := by
      rw [htmp]
      refine Nat.eq_of_testBit_eq fun i => ?_
      rw [id, Nat.zero_testBit]
      by_cases hi : i < 64
      · have hbit := testBit_shifted wrds.word position (show 63 - i < 64 by omega)
        rw [show 63 - (63 - i) = i by omega] at hbit
        rw [hbit, Bool.and_eq_false_iff]
        by_cases hlt : position % 64 + (63 - i) < 64
        · exact .inr (h.first _ (by omega) (by omega))
        · exact .inl (decide_eq_false hlt)
      · rw [Nat.testBit_mod_two_pow, decide_eq_false hi, Bool.false_and]
    have hnext : (Scan.start id (wrds.word (position / 64)) position).pos +
        (Scan.start id (wrds.word (position / 64)) position).left =
          64 * (position / 64 + 1) + 0 := by
      rw [hleft]
      show position + (64 - position % 64) = _
      omega
    have hskip : ∀ v, position / 64 + 1 ≤ v → v < p / 64 → id (wrds.word v) = 0 := by
      intro v hv hvp
      exact WordArray.word_eq_zero fun i hi => h.first _ (by omega) (by omega)
    have hword : wrds.word (p / 64) ≠ 0 := ne_zero_of_testBit h.bit
    have hclz : countLeadingZeros 64 (wrds.word (p / 64)) = p % 64 := by
      apply countLeadingZeros_eq (wrds.word_lt _)
      · exact h.bit
      · intro i hi
        show Nat.testBit _ (63 - i) = false
        rw [← bitAt_word _ _ (by omega)]
        exact h.first _ (by omega) (by omega)
    have hsmall : 64 * (p / 64) + 0 + p % 64 < 2 ^ 32 := by omega
    rw [skipWords_round hzero hnext (Nat.zero_lt_succ 63) (by omega) (by omega),
      skipWords_spec (show position / 64 + 1 ≤ p / 64 by omega) hin (Nat.zero_lt_succ 63) (by omega)
        hskip hword (by omega), Option.bind_eq_bind, Option.bind_some,
      ffsLoop_of_lt ⟨64 * (p / 64) + 0, _, id (wrds.word (p / 64)), 64⟩ hclz
        (Nat.mod_lt p (Nat.zero_lt_succ 63)) hsmall]
    show some (⟨wrds.word (p / 64), 64 * (p / 64) + 0 + p % 64⟩ : Bfu) = _
    rw [Nat.add_zero, Nat.div_add_mod]

/-! ## The clear bit -/

theorem notLow_lt (x : Nat) : notLow x < 2 ^ 64 :=
  Nat.lt_of_lt_of_le (Nat.mod_lt _ (Nat.two_pow_pos 32))
    (Nat.pow_le_pow_right (Nat.zero_lt_succ 1) (by omega))

/-- What the `unsigned int` shows: the clear bits of the low half. -/
theorem testBit_notLow {x : Nat} (hx : x < 2 ^ 64) {i : Nat} (hi : i < 64) :
    (notLow x).testBit (63 - i) = (decide (32 ≤ i) && !x.testBit (63 - i)) := by
  have hnot : 2 ^ 64 - 1 - x = 2 ^ 64 - (x + 1) := by omega
  rw [notLow, Nat.testBit_mod_two_pow, hnot, Nat.testBit_two_pow_sub_succ hx,
    decide_eq_true (show 63 - i < 64 by omega), Bool.true_and,
    decide_eq_decide.mpr (show 63 - i < 32 ↔ 32 ≤ i by omega)]

/-- Of what is left of the word of the position. -/
theorem testBit_start (wrds : WordArray) (position : Nat) {i : Nat} (hi : i < 64) :
    (Scan.start notLow (wrds.word (position / 64)) position).tmp.testBit (63 - i) =
      (decide (32 ≤ i) &&
        !(decide (position % 64 + i < 64) && bitAt wrds.word (position + i))) := by
  rw [Scan.start_tmp, testBit_notLow (Nat.mod_lt _ (Nat.two_pow_pos 64)) hi, testBit_shifted _ _ hi]

/-- The scan of whole words that ends in the word `W`, and the bit seen there. -/
structure Seen (wrds : WordArray) (W n : Nat) : Prop where
  clz : countLeadingZeros 64 (notLow (wrds.word W)) = n
  low : 32 ≤ n
  lt : n < 64
  clear : bitAt wrds.word (64 * W + n) = false

theorem seen_of_ne {wrds : WordArray} {W : Nat} (h : notLow (wrds.word W) ≠ 0) :
    ∃ n, Seen wrds W n := by
  obtain ⟨hlt, hset, -⟩ := countLeadingZeros_spec (notLow_lt (wrds.word W)) h
  change Nat.testBit _ (63 - _) = true at hset
  rw [testBit_notLow (wrds.word_lt W) hlt, Bool.and_eq_true, decide_eq_true_iff,
    Bool.not_eq_true'] at hset
  exact ⟨_, rfl, hset.1, hlt, by rw [bitAt_word _ _ hlt]; exact hset.2⟩

/-- The bit that is seen where the first clear one is in the low half of a later word. -/
theorem seen_of_firstBit {wrds : WordArray} {position p : Nat}
    (h : FirstBit wrds false position p) (hword : position ≤ 64 * (p / 64)) (hlow : 32 ≤ p % 64) :
    notLow (wrds.word (p / 64)) ≠ 0 ∧ Seen wrds (p / 64) (p % 64) := by
  have hlt := Nat.mod_lt p (Nat.zero_lt_succ 63)
  have hclear : bitAt wrds.word (64 * (p / 64) + p % 64) = false := by
    rw [Nat.div_add_mod]
    exact h.bit
  have hset : (notLow (wrds.word (p / 64))).testBit (64 - 1 - p % 64) = true := by
    show Nat.testBit _ (63 - p % 64) = true
    rw [testBit_notLow (wrds.word_lt _) hlt, decide_eq_true hlow, ← bitAt_word _ _ hlt, hclear]
    rfl
  refine ⟨ne_zero_of_testBit hset, countLeadingZeros_eq (notLow_lt _) hset ?_, hlow, hlt, hclear⟩
  intro i hi
  show Nat.testBit _ (63 - i) = false
  rw [testBit_notLow (wrds.word_lt _) (by omega), ← bitAt_word _ _ (by omega),
    h.first _ (by omega) (by omega)]
  exact Bool.and_false _

/-- Words with no clear bit are skipped. -/
theorem notLow_eq_zero {wrds : WordArray} {w : Nat}
    (h : ∀ i < 64, bitAt wrds.word (64 * w + i) = true) : notLow (wrds.word w) = 0 := by
  refine Nat.eq_of_testBit_eq fun i => ?_
  rw [Nat.zero_testBit]
  by_cases hi : i < 64
  · have hbit := testBit_notLow (wrds.word_lt w) (show 63 - i < 64 by omega)
    rw [← bitAt_word wrds.word w (by omega), h _ (by omega),
      show 63 - (63 - i) = i by omega] at hbit
    rw [hbit]
    exact Bool.and_false _
  · refine Nat.testBit_lt_two_pow (Nat.lt_of_lt_of_le (notLow_lt _) ?_)
    exact Nat.pow_le_pow_right (Nat.zero_lt_succ 1) (by omega)

theorem ffcLoop_of_lt {wrds : WordArray} {fuel : Nat} (s : Scan) {n : Nat}
    (hn : countLeadingZeros 64 s.tmp = n) (hlt : n < s.left) (hsmall : s.pos + n < 2 ^ 32) :
    ffcLoop wrds (fuel + 1) s = some ⟨s.cur, s.pos + n⟩ := by
  rw [ffcLoop, hn]
  dsimp only
  rw [if_neg (by omega), Nat.mod_eq_of_lt hsmall]

theorem ffcLoop_of_seen {wrds : WordArray} {fuel W n o : Nat} (h : Seen wrds W n)
    (hsmall : 64 * W + o + n < 2 ^ 32) :
    ffcLoop wrds (fuel + 1) ⟨64 * W + o, wrds.word W, notLow (wrds.word W), 64⟩ =
      some ⟨wrds.word W, 64 * W + o + n⟩ :=
  ffcLoop_of_lt ⟨64 * W + o, wrds.word W, notLow (wrds.word W), 64⟩ h.clz h.lt hsmall

/-- What the first look shows behind the start of a word: the bits left by the shift count as
clear. -/
theorem exists_clz_start (wrds : WordArray) {position : Nat} (h : position % 64 ≠ 0) :
    ∃ n, countLeadingZeros 64
        (Scan.start notLow (wrds.word (position / 64)) position).tmp = n ∧
      (Scan.start notLow (wrds.word (position / 64)) position).tmp ≠ 0 ∧
      32 ≤ n ∧ n ≤ max 32 (64 - position % 64) ∧
      (position % 64 + n < 64 → bitAt wrds.word (position + n) = false) ∧
      ∀ i, 32 ≤ i → i < n → bitAt wrds.word (position + i) = true := by
  have hlt := Nat.mod_lt position (Nat.zero_lt_succ 63)
  have hend : (Scan.start notLow (wrds.word (position / 64)) position).tmp.testBit
      (63 - max 32 (64 - position % 64)) = true := by
    rw [testBit_start _ _ (by omega), decide_eq_true (by omega), decide_eq_false (by omega)]
    rfl
  have hne := ne_zero_of_testBit hend
  have htmp : (Scan.start notLow (wrds.word (position / 64)) position).tmp < 2 ^ 64 := by
    rw [Scan.start_tmp]
    exact notLow_lt _
  obtain ⟨hn, hset, habove⟩ := countLeadingZeros_spec htmp hne
  generalize countLeadingZeros 64
    (Scan.start notLow (wrds.word (position / 64)) position).tmp = n at hn hset habove
  change Nat.testBit _ (63 - n) = true at hset
  change ∀ i < n, Nat.testBit _ (63 - i) = false at habove
  rw [testBit_start _ _ hn, Bool.and_eq_true, decide_eq_true_iff, Bool.not_eq_true',
    Bool.and_eq_false_iff, decide_eq_false_iff_not] at hset
  refine ⟨n, rfl, hne, hset.1, ?_, ?_, ?_⟩
  · refine Nat.not_lt.mp fun hgt => ?_
    rw [habove _ hgt] at hend
    exact Bool.false_ne_true hend
  · intro hin
    exact hset.2.resolve_left (not_not_intro hin)
  · intro i hi hin
    have hbit := habove i hin
    rw [testBit_start _ _ (by omega), decide_eq_true hi, Bool.true_and, Bool.not_eq_false',
      Bool.and_eq_true] at hbit
    exact hbit.2

section

variable {wrds : WordArray} {position p : Nat}

/-- At the start of a word. -/
theorem ffc_aligned (h : position % 64 = 0) :
    ffc wrds (wrds.word (position / 64)) position =
      (skipWords wrds notLow (wrds.size + 1)
        ⟨64 * (position / 64) + 0, wrds.word (position / 64), notLow (wrds.word (position / 64)),
          64⟩).bind (ffcLoop wrds (wrds.size + 1)) := by
  have hstart : Scan.start notLow (wrds.word (position / 64)) position =
      ⟨64 * (position / 64) + 0, wrds.word (position / 64), notLow (wrds.word (position / 64)),
        64⟩ := by
    unfold Scan.start
    rw [bfuBit_eq, h]
    dsimp only
    rw [Nat.shiftLeft_zero, Nat.mod_eq_of_lt (wrds.word_lt _)]
    congr 1
    omega
  rw [ffc, hstart]
  rfl

/-- The bit is one of those left in the word. -/
theorem ffc_of_lt {n : Nat}
    (hn : countLeadingZeros 64 (Scan.start notLow (wrds.word (position / 64)) position).tmp = n)
    (hne : (Scan.start notLow (wrds.word (position / 64)) position).tmp ≠ 0)
    (hlt : n < 64 - position % 64) (hsmall : position + n < 2 ^ 32) :
    ffc wrds (wrds.word (position / 64)) position =
      some ⟨wrds.word (position / 64), position + n⟩ := by
  have hleft : n < (Scan.start notLow (wrds.word (position / 64)) position).left := by
    rwa [Scan.start_left]
  rw [ffc, skipWords_of_ne hne, Option.bind_eq_bind, Option.bind_some,
    ffcLoop_of_lt _ hn hleft hsmall]
  rfl

/-- The bit taken is the first of the next word, whatever it is. -/
theorem ffc_of_eq
    (hn : countLeadingZeros 64 (Scan.start notLow (wrds.word (position / 64)) position).tmp =
      64 - position % 64)
    (hne : (Scan.start notLow (wrds.word (position / 64)) position).tmp ≠ 0)
    (hsmall : 64 * (position / 64 + 1) < 2 ^ 32) :
    ffc wrds (wrds.word (position / 64)) position =
      (wrds.get (position / 64 + 1)).map fun cur => ⟨cur, 64 * (position / 64 + 1)⟩ := by
  have hpos : (Scan.start notLow (wrds.word (position / 64)) position).pos +
      (64 - position % 64) = 64 * (position / 64 + 1) := by
    show position + (64 - position % 64) = _
    omega
  rw [ffc, skipWords_of_ne hne, Option.bind_eq_bind, Option.bind_some, ffcLoop, hn]
  dsimp only
  rw [Scan.start_left, if_pos (Nat.le_refl _), hpos, Nat.mod_eq_of_lt hsmall, bfuIndex_eq,
    Nat.mul_div_cancel_left _ (Nat.zero_lt_succ 63)]
  cases wrds.get (position / 64 + 1) with
  | none => rfl
  | some cur => exact if_pos rfl

/-- The bits left of the word are all in the half that is seen as clear: the scan goes on in the
next word, from its offset in this one. -/
theorem ffc_of_gt (h : 33 ≤ position % 64) (hsmall : 64 * (position / 64 + 1) + 31 < 2 ^ 32) :
    ffc wrds (wrds.word (position / 64)) position =
      (wrds.get (position / 64 + 1)).bind fun cur =>
        (skipWords wrds notLow wrds.size
          ⟨64 * (position / 64 + 1) + (position % 64 - 33), cur, notLow cur, 64⟩).bind
            (ffcLoop wrds wrds.size) := by
  have hlt := Nat.mod_lt position (Nat.zero_lt_succ 63)
  obtain ⟨n, hn, hne, hlow, hmax, -⟩ := exists_clz_start wrds (show position % 64 ≠ 0 by omega)
  obtain rfl : n = 32 := by omega
  have hpos : (Scan.start notLow (wrds.word (position / 64)) position).pos + 32 =
      64 * (position / 64 + 1) + (position % 64 - 33) + 1 := by
    show position + 32 = _
    omega
  have hindex : bfuIndex (64 * (position / 64 + 1) + (position % 64 - 33) + 1) =
      position / 64 + 1 := by
    rw [bfuIndex_eq]
    omega
  have hback : (64 * (position / 64 + 1) + (position % 64 - 33) + 1 + 2 ^ 32 - 1) % 2 ^ 32 =
      64 * (position / 64 + 1) + (position % 64 - 33) := by
    omega
  rw [ffc, skipWords_of_ne hne, Option.bind_eq_bind, Option.bind_some, ffcLoop, hn]
  dsimp only
  rw [Scan.start_left, if_pos (by omega), hpos, Nat.mod_eq_of_lt (by omega), hindex, hback]
  cases wrds.get (position / 64 + 1) with
  | none => rfl
  | some cur => exact if_neg (by omega)

end

/-- Where the clear bit is one that the scan sees first: at a word boundary, any in the low half
of its word; 1 to 32 bits into a word, one 32 bits on in this word or the first of the next; 33 bits
into a word, any in the low half of a later word; further into a word, none. -/
def FfcSees (position p : Nat) : Prop :=
  if position % 64 = 0 then 32 ≤ p % 64
  else if position % 64 ≤ 32 then
    (p / 64 = position / 64 ∧ position + 32 ≤ p) ∨ p = 64 * (position / 64 + 1)
  else position % 64 = 33 ∧ position / 64 < p / 64 ∧ 32 ≤ p % 64

section

variable {wrds : WordArray} {position p : Nat}

/-- The first clear bit is found where the scan sees it. -/
theorem ffc_spec (h : FirstBit wrds false position p) (hp : p < 2 ^ 32)
    (hsees : FfcSees position p) :
    Found wrds (ffc wrds (wrds.word (position / 64)) position) p := by
  have hle := h.le
  have hin := h.inside
  have hmod := Nat.mod_lt position (Nat.zero_lt_succ 63)
  -- the words between are all set
  have hskip : ∀ v, position ≤ 64 * v → v < p / 64 → notLow (wrds.word v) = 0 := by
    intro v hv hvp
    exact notLow_eq_zero fun i hi => h.first _ (by omega) (by omega)
  unfold Found
  unfold FfcSees at hsees
  split at hsees
  case isTrue haligned =>
    obtain ⟨hstop, hseen⟩ := seen_of_firstBit h (by omega) hsees
    rw [ffc_aligned haligned, skipWords_spec (Nat.div_le_div_right hle) hin (Nat.zero_lt_succ 63)
      (by omega) (fun v hv => hskip v (by omega)) hstop (by omega), Option.bind_some,
      ffcLoop_of_seen hseen (by omega), Nat.add_zero, Nat.div_add_mod]
  case isFalse hoff =>
    obtain ⟨n, hn, hne, hlow, hmax, hclear, hset⟩ := exists_clz_start wrds hoff
    split at hsees
    case isTrue hfirst =>
      -- the bit seen first is the clear one
      have hnp : position + n = p := by
        refine Nat.le_antisymm (Nat.not_lt.mp fun hlt => ?_) (Nat.not_lt.mp fun hlt => ?_)
        · have hbit := hset (p - position) (by omega) (by omega)
          rw [Nat.add_sub_cancel' hle, h.bit] at hbit
          exact Bool.false_ne_true hbit
        · have hbit := hclear (by omega)
          rw [h.first _ (Nat.le_add_right _ _) hlt] at hbit
          exact Bool.false_ne_true hbit.symm
      rcases hsees with ⟨hword, -⟩ | hnext
      · rw [ffc_of_lt hn hne (by omega) (by omega), hnp, hword]
      · obtain rfl : n = 64 - position % 64 := by omega
        have hindex : position / 64 + 1 = p / 64 := by omega
        rw [ffc_of_eq hn hne (by omega), ← hnext, hindex, WordArray.get, if_pos hin]
        rfl
    case isFalse hlast =>
      obtain ⟨h33, hlater, hhigh⟩ := hsees
      obtain ⟨hstop, hseen⟩ := seen_of_firstBit h (by omega) hhigh
      obtain ⟨k, hk⟩ : ∃ k, wrds.size = k + 1 := ⟨wrds.size - 1, by omega⟩
      rw [ffc_of_gt (by omega) (by omega), WordArray.get, if_pos (by omega), Option.bind_some,
        skipWords_spec (by omega) hin (by omega) (by omega) (fun v hv => hskip v (by omega)) hstop
          (by omega), Option.bind_some, hk, ffcLoop_of_seen hseen (by omega), h33, Nat.sub_self,
        Nat.add_zero, Nat.div_add_mod]

/-- Nowhere else; the words of the array have positions. -/
theorem ffc_only (h : FirstBit wrds false position p) (hsize : wrds.size < 2 ^ 26)
    (hfound : Found wrds (ffc wrds (wrds.word (position / 64)) position) p) :
    FfcSees position p := by
  have hle := h.le
  have hin := h.inside
  have hmod := Nat.mod_lt position (Nat.zero_lt_succ 63)
  have hw : position / 64 < wrds.size := Nat.lt_of_le_of_lt (Nat.div_le_div_right hle) hin
  unfold Found at hfound
  unfold FfcSees
  split
  case isTrue haligned =>
    rw [ffc_aligned haligned] at hfound
    obtain ⟨s, hscan, hloop⟩ := Option.bind_eq_some_iff.mp hfound
    obtain ⟨W, hWle, hW, hstop, rfl⟩ := exists_of_skipWords hw (Nat.zero_lt_succ 63) hsize hscan
    obtain ⟨n, hseen⟩ := seen_of_ne hstop
    have hlt := hseen.lt
    have hlow := hseen.low
    rw [ffcLoop_of_seen hseen (by omega)] at hloop
    have hpos : 64 * W + 0 + n = p := (Bfu.mk.inj (Option.some.inj hloop)).2
    omega
  case isFalse hoff =>
    obtain ⟨n, hn, hne, hlow, hmax, -⟩ := exists_clz_start wrds hoff
    split
    case isTrue hfirst =>
      by_cases hlt : n < 64 - position % 64
      · rw [ffc_of_lt hn hne hlt (by omega)] at hfound
        have hpos : position + n = p := (Bfu.mk.inj (Option.some.inj hfound)).2
        exact .inl (by omega)
      · obtain rfl : n = 64 - position % 64 := by omega
        rw [ffc_of_eq hn hne (by omega), Option.map_eq_some_iff] at hfound
        obtain ⟨cur, -, hcur⟩ := hfound
        exact .inr (Bfu.mk.inj hcur).2.symm
    case isFalse hlast =>
      rw [ffc_of_gt (by omega) (by omega)] at hfound
      obtain ⟨cur, hget, hrest⟩ := Option.bind_eq_some_iff.mp hfound
      obtain ⟨s, hscan, hloop⟩ := Option.bind_eq_some_iff.mp hrest
      unfold WordArray.get at hget
      split at hget
      case isFalse => cases hget
      case isTrue hnext =>
        obtain rfl := Option.some.inj hget
        obtain ⟨W, hWle, hW, hstop, rfl⟩ := exists_of_skipWords hnext (by omega) hsize hscan
        obtain ⟨k, hk⟩ : ∃ k, wrds.size = k + 1 := ⟨wrds.size - 1, by omega⟩
        obtain ⟨n, hseen⟩ := seen_of_ne hstop
        have hlt := hseen.lt
        have hlow := hseen.low
        rw [hk, ffcLoop_of_seen hseen (by omega)] at hloop
        have hpos : 64 * W + (position % 64 - 33) + n = p :=
          (Bfu.mk.inj (Option.some.inj hloop)).2
        -- the bit seen is clear, so it is not before the first clear one
        have hge : p ≤ 64 * W + n := by
          refine Nat.not_lt.mp fun hbefore => ?_
          have hbit := hseen.clear
          rw [h.first _ (by omega) hbefore] at hbit
          exact Bool.false_ne_true hbit.symm
        omega

end

/-- **The scans.** The first set bit is found by `BFU__ffs`. The first clear one is found by
`BFU__ffc` where it sees it, and there only: of an array with fewer than `2 ^ 26` words all
positions fit. -/
theorem scans_exact (wrds : WordArray) (position : Nat) :
    (∀ p < 2 ^ 32, FirstBit wrds true position p →
      Found wrds (ffs wrds (wrds.word (position / 64)) position) p) ∧
    (∀ p < 2 ^ 32, FirstBit wrds false position p → FfcSees position p →
      Found wrds (ffc wrds (wrds.word (position / 64)) position) p) ∧
    (wrds.size < 2 ^ 26 → ∀ p, FirstBit wrds false position p →
      (Found wrds (ffc wrds (wrds.word (position / 64)) position) p ↔ FfcSees position p)) := by
  refine ⟨fun p hp h => ffs_spec h hp, fun p hp h => ffc_spec h hp, ?_⟩
  intro hsize p h
  have hin := h.inside
  exact ⟨ffc_only h hsize, ffc_spec h (by omega)⟩

/-- The last bit of a word, set or clear. -/
theorem scans_exact_lastBit :
    Found ⟨1, fun _ => 1, fun _ => by decide⟩ (ffs ⟨1, fun _ => 1, fun _ => by decide⟩ 1 3) 63 ∧
    Found ⟨1, fun _ => 2 ^ 64 - 2, fun _ => by decide⟩
      (ffc ⟨1, fun _ => 2 ^ 64 - 2, fun _ => by decide⟩ (2 ^ 64 - 2) 0) 63 ∧
    (Found ⟨1, fun _ => 2 ^ 64 - 2, fun _ => by decide⟩
      (ffc ⟨1, fun _ => 2 ^ 64 - 2, fun _ => by decide⟩ (2 ^ 64 - 2) 0) 63 ↔ FfcSees 0 63) := by
  have hset : FirstBit ⟨1, fun _ => 1, fun _ => by decide⟩ true 3 63 := by
    refine ⟨by decide, by decide, by decide, ?_⟩
    have hbits : ∀ q < 63, 3 ≤ q → bitAt (fun _ => 1) q = !true := by decide
    exact fun q hq hqp => hbits q hqp hq
  have hclear : FirstBit ⟨1, fun _ => 2 ^ 64 - 2, fun _ => by decide⟩ false 0 63 := by
    refine ⟨by decide, by decide, by decide, ?_⟩
    have hbits : ∀ q < 63, bitAt (fun _ => 2 ^ 64 - 2) q = !false := by decide
    exact fun q _ hqp => hbits q hqp
  refine ⟨(scans_exact _ 3).1 63 (by decide) hset, ?_, ?_⟩
  · apply (scans_exact _ 0).2.1 63 (by decide) hclear
    show 32 ≤ 63 % 64
    decide
  · exact (scans_exact _ 0).2.2 (by decide) 63 hclear

/-- Of a word with no bit set the scan takes the first bit of its low half. -/
theorem ffc_misses_first :
    ¬ ∀ (wrds : WordArray) (position p : Nat), p < 2 ^ 32 → FirstBit wrds false position p →
      Found wrds (ffc wrds (wrds.word (position / 64)) position) p := by
  intro h
  have hclear : FirstBit ⟨1, fun _ => 0, fun _ => Nat.two_pow_pos 64⟩ false 0 0 :=
    ⟨Nat.le_refl 0, Nat.zero_lt_one, rfl, fun q _ hq => absurd hq (Nat.not_lt_zero q)⟩
  have hsees := ffc_only hclear (by decide) (h _ 0 0 (by decide) hclear)
  change 32 ≤ 0 at hsees
  omega

end ProtoDune.Firmware
