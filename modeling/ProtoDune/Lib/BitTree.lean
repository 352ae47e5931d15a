import Mathlib.Data.List.Count
import Mathlib.Tactic.IntervalCases
import Mathlib.Tactic.Ring

/-!
# Binary trees over bit strings

The leaves are the bits of a word. A node is set when a leaf under it is, and the
word is told by the two children of every set node, from the root down.

Main results:

* `node_iff` — a node is set when a leaf under it is.
* `levelPairs_skip` — only the children of set nodes are coded.
* `sum_map_eq` — a sum over pairs is one over the counts of the four values.
-/

namespace BitTree

variable (leaf : Nat → Bool)

/-- The node `q` of level `k`, over the leaves from `2 ^ k * q` on. -/
def node : Nat → Nat → Bool
  | 0, q => leaf q
  | k + 1, q => node k (2 * q + 1) || node k (2 * q)

/-- The children of node `c` of level `k + 1`, as a number of two bits. -/
def pair (k c : Nat) : Nat :=
  2 * (node leaf k (2 * c + 1)).toNat + (node leaf k (2 * c)).toNat

/-- The children of the first `j` nodes of level `k + 1`, the last node first. -/
def levelPairs (k : Nat) : Nat → List Nat
  | 0 => []
  | j + 1 => pair leaf k j :: levelPairs k j

/-- The pairs of level `k`, which has `2 * j` nodes, and of the levels below. -/
def treePairs : Nat → Nat → List Nat
  | 0, j => levelPairs leaf 0 j
  | k + 1, j => levelPairs leaf (k + 1) j ++ treePairs k (2 * j)

/-- A node is set when a leaf under it is. -/
theorem node_iff (k q : Nat) : node leaf k q = true ↔ ∃ i, i / 2 ^ k = q ∧ leaf i = true := by
  induction k generalizing q with
  | zero => simp [node]
  | succ k ih =>
      rw [node, Bool.or_eq_true, ih, ih]
      have hhalf : ∀ i, i / 2 ^ (k + 1) = i / 2 ^ k / 2 := fun i => by
        rw [Nat.pow_succ, Nat.div_div_eq_div_mul]
      constructor
      · rintro (⟨i, hi, hset⟩ | ⟨i, hi, hset⟩) <;> exact ⟨i, by rw [hhalf]; omega, hset⟩
      · rintro ⟨i, hi, hset⟩
        rw [hhalf] at hi
        rcases Nat.mod_two_eq_zero_or_one (i / 2 ^ k) with h | h
        · exact Or.inr ⟨i, by omega, hset⟩
        · exact Or.inl ⟨i, by omega, hset⟩

variable {leaf}

theorem pair_lt (k c : Nat) : pair leaf k c < 4 := by
  have h1 := Bool.toNat_lt (node leaf k (2 * c + 1))
  have h2 := Bool.toNat_lt (node leaf k (2 * c))
  unfold pair
  omega

theorem pair_eq_zero_iff {k c : Nat} : pair leaf k c = 0 ↔ node leaf (k + 1) c = false := by
  rw [pair, node]
  cases node leaf k (2 * c + 1) <;> cases node leaf k (2 * c) <;> simp

/-- The low bit of a pair is the even child. -/
theorem testBit_zero_pair (k c : Nat) : (pair leaf k c).testBit 0 = node leaf k (2 * c) := by
  rw [pair]
  cases node leaf k (2 * c + 1) <;> cases node leaf k (2 * c) <;> rfl

/-- The high bit of a pair is the odd child. -/
theorem testBit_one_pair (k c : Nat) : (pair leaf k c).testBit 1 = node leaf k (2 * c + 1) := by
  rw [pair]
  cases node leaf k (2 * c + 1) <;> cases node leaf k (2 * c) <;> rfl

/-- Under a node that is not set nothing is. -/
theorem node_eq_false {k q : Nat} (h : node leaf (k + 1) (q / 2) = false) :
    node leaf k q = false := by
  rw [node, Bool.or_eq_false_iff] at h
  rcases Nat.mod_two_eq_zero_or_one q with hq | hq
  · rw [show q = 2 * (q / 2) by omega]
    exact h.2
  · rw [show q = 2 * (q / 2) + 1 by omega]
    exact h.1

@[simp] theorem length_levelPairs (k j : Nat) : (levelPairs leaf k j).length = j := by
  induction j with
  | zero => rfl
  | succ j ih => rw [levelPairs, List.length_cons, ih]

theorem lt_of_mem_levelPairs {k j v : Nat} (hv : v ∈ levelPairs leaf k j) : v < 4 := by
  induction j with
  | zero => exact absurd hv List.not_mem_nil
  | succ j ih =>
      rcases List.mem_cons.mp hv with rfl | hv
      · exact pair_lt k j
      · exact ih hv

/-- A row of nodes is coded as a row of leaves would be. -/
theorem levelPairs_congr {f : Nat → Bool} {k j : Nat} (h : ∀ q < 2 * j, f q = node leaf k q) :
    levelPairs f 0 j = levelPairs leaf k j := by
  induction j with
  | zero => rfl
  | succ j ih =>
      rw [levelPairs, levelPairs, ih fun q hq => h q (by omega), pair, pair]
      rw [node, node, h _ (by omega), h _ (by omega)]

/-- A row of leaves splits anywhere. -/
theorem levelPairs_add (f : Nat → Bool) (a b : Nat) :
    levelPairs f 0 (a + b) = levelPairs (fun i => f (2 * b + i)) 0 a ++ levelPairs f 0 b := by
  induction a with
  | zero => rw [Nat.zero_add]; rfl
  | succ a ih =>
      rw [Nat.succ_add, levelPairs, ih, levelPairs, List.cons_append, pair, pair]
      simp only [node]
      rw [show 2 * b + (2 * a + 1) = 2 * (a + b) + 1 by ring,
        show 2 * b + 2 * a = 2 * (a + b) by ring]

/-- Nodes that are not set have no code of their own. -/
theorem levelPairs_skip {code : Nat → List Bool} (hcode : code 0 = []) {k c j : Nat}
    (hle : c ≤ j) (hskip : ∀ d, c ≤ d → d < j → node leaf (k + 1) d = false) :
    (levelPairs leaf k j).flatMap code = (levelPairs leaf k c).flatMap code := by
  induction j, hle using Nat.le_induction with
  | base => rfl
  | succ j hle ih =>
      have hzero : pair leaf k j = 0 := pair_eq_zero_iff.mpr (hskip j hle (Nat.lt_succ_self j))
      rw [levelPairs, List.flatMap_cons, hzero, hcode, List.nil_append]
      exact ih fun d hd hlt => hskip d hd (Nat.lt_succ_of_lt hlt)

/-- A sum over pairs, by how often each of the four values occurs. -/
theorem sum_map_eq (g : Nat → Nat) {xs : List Nat} (hlt : ∀ v ∈ xs, v < 4) :
    (xs.map g).sum
      = xs.count 0 * g 0 + xs.count 1 * g 1 + xs.count 2 * g 2 + xs.count 3 * g 3 := by
  induction xs with
  | nil => simp
  | cons x xs ih =>
      rw [List.map_cons, List.sum_cons, ih fun v hv => hlt v (List.mem_cons_of_mem x hv)]
      have hx : x < 4 := hlt x List.mem_cons_self
      -- the head adds one to one of the four counts
      interval_cases x <;> simp only [List.count_cons] <;> simp <;> ring

end BitTree
