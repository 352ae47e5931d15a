import Mathlib.Algebra.Group.Nat.Defs
import Mathlib.Data.List.Basic
import Mathlib.Logic.Function.Basic

/-!
# Bytes in memory

A memory of blocks of bytes: numbers are stored with their lowest byte first.

Main results:

* `ofBytes_toBytes` — a number is read back from its bytes.
* `At.store`, `At.agree` — what is in memory after a store.
* `field_read` — a number in memory, in a sequence that is read.
* `field_append` — a number in the middle of a sequence of bytes.
-/

namespace ByteMemory

/-! ## Numbers -/

/-- The `n` low bytes of a number, the lowest first. -/
def toBytes : Nat → Nat → List UInt8
  | 0, _ => []
  | n + 1, x => UInt8.ofNat x :: toBytes n (x / 2 ^ 8)

/-- The number with these bytes. -/
def ofBytes : List UInt8 → Nat
  | [] => 0
  | b :: bs => b.toNat + 2 ^ 8 * ofBytes bs

@[simp] theorem length_toBytes (n : Nat) : ∀ x, (toBytes n x).length = n := by
  induction n with
  | zero => exact fun _ => rfl
  | succ n ih =>
      intro x
      rw [toBytes, List.length_cons, ih]

theorem ofBytes_toBytes (n : Nat) : ∀ x, ofBytes (toBytes n x) = x % 2 ^ (8 * n) := by
  induction n with
  | zero =>
      intro x
      rw [Nat.mul_zero, Nat.pow_zero, Nat.mod_one]
      rfl
  | succ n ih =>
      intro x
      have hbyte : (UInt8.ofNat x).toNat = x % 2 ^ 8 := UInt8.toNat_ofNat'
      rw [toBytes, ofBytes, ih, hbyte, Nat.mul_succ, Nat.add_comm (8 * n) 8, Nat.pow_add,
        Nat.mod_mul]

theorem ofBytes_toBytes_of_lt {n x : Nat} (h : x < 2 ^ (8 * n)) : ofBytes (toBytes n x) = x := by
  rw [ofBytes_toBytes, Nat.mod_eq_of_lt h]

theorem ofBytes_append (xs ys : List UInt8) :
    ofBytes (xs ++ ys) = ofBytes xs + 2 ^ (8 * xs.length) * ofBytes ys := by
  induction xs with
  | nil => simp [ofBytes]
  | cons x xs ih =>
      rw [List.cons_append, ofBytes, ofBytes, ih, List.length_cons, Nat.mul_succ,
        Nat.add_comm (8 * xs.length) 8, Nat.pow_add, Nat.mul_add, Nat.add_assoc, Nat.mul_assoc]

theorem ofBytes_lt (bs : List UInt8) : ofBytes bs < 2 ^ (8 * bs.length) := by
  induction bs with
  | nil => exact Nat.one_pos
  | cons b bs ih =>
      have hbyte : b.toNat < 2 ^ 8 := b.toNat_lt
      rw [ofBytes, List.length_cons, Nat.mul_succ, Nat.add_comm (8 * bs.length) 8, Nat.pow_add]
      calc b.toNat + 2 ^ 8 * ofBytes bs < 2 ^ 8 + 2 ^ 8 * ofBytes bs :=
            Nat.add_lt_add_right hbyte _
        _ = 2 ^ 8 * (ofBytes bs + 1) := by rw [Nat.mul_succ, Nat.add_comm]
        _ ≤ 2 ^ 8 * 2 ^ (8 * bs.length) := Nat.mul_le_mul_left _ ih

/-! ## A sequence of bytes -/

/-- The number in the `n` bytes from `p` on; none where the sequence is too short. -/
def field (bytes : List UInt8) (p n : Nat) : Option Nat :=
  if p + n ≤ bytes.length then some (ofBytes ((bytes.drop p).take n)) else none

section Field

variable {xs ys zs : List UInt8} {p n x : Nat}

theorem field_lt (h : field xs p n = some x) : x < 2 ^ (8 * n) := by
  unfold field at h
  split at h
  · next hle =>
      have hlt := ofBytes_lt ((xs.drop p).take n)
      have hlen : ((xs.drop p).take n).length = n := by
        rw [List.length_take, List.length_drop]
        omega
      rw [hlen] at hlt
      rwa [← Option.some.inj h]
  · cases h

theorem le_of_field (h : field xs p n = some x) : p + n ≤ xs.length := by
  unfold field at h
  split at h
  · assumption
  · cases h

theorem exists_field (h : p + n ≤ xs.length) : ∃ x, field xs p n = some x := by
  rw [field, if_pos h]
  exact ⟨_, rfl⟩

/-- **A number in the middle** of a longer sequence. -/
theorem field_append (h : field ys p n = some x) : field (xs ++ (ys ++ zs)) (xs.length + p) n
    = some x := by
  have hle := le_of_field h
  have hle' : xs.length + p + n ≤ (xs ++ (ys ++ zs)).length := by
    rw [List.length_append, List.length_append]
    omega
  have htake : ((ys ++ zs).drop p).take n = (ys.drop p).take n := by
    rw [List.drop_append_of_le_length (by omega),
      List.take_append_of_le_length (by rw [List.length_drop]; omega)]
  rw [field, if_pos hle', ← h, field, if_pos hle, ← List.drop_drop, List.drop_left, htake]

theorem field_append_left (h : field ys p n = some x) : field (ys ++ zs) p n = some x := by
  have hat : field ([] ++ (ys ++ zs)) (([] : List UInt8).length + p) n = some x := field_append h
  rwa [List.nil_append, List.length_nil, Nat.zero_add] at hat

/-- A longer number at the same place has the number in its low bytes. -/
theorem field_longer (h : field xs p n = some x) {k : Nat} (hle : p + (n + k) ≤ xs.length) :
    ∃ y, field xs p (n + k) = some y ∧ y % 2 ^ (8 * n) = x := by
  have hshort := le_of_field h
  refine ⟨_, if_pos hle, ?_⟩
  have hlen : ((xs.drop p).take n).length = n := by
    rw [List.length_take, List.length_drop]
    omega
  have hx : ofBytes ((xs.drop p).take n) = x := by
    rw [field, if_pos hshort] at h
    exact Option.some.inj h
  have hlt := ofBytes_lt ((xs.drop p).take n)
  rw [hlen] at hlt
  rw [List.take_add, ofBytes_append, hlen, Nat.add_mul_mod_self_left, Nat.mod_eq_of_lt hlt, hx]

end Field

/-! ## Memory -/

variable {B : Type*}

/-- The bytes of a block, by their offset. -/
abbrev Mem (B : Type*) := B → Nat → UInt8

/-- Store bytes in a block from an offset on. -/
def store [DecidableEq B] (mem : Mem B) (b : B) (p : Nat) (bytes : List UInt8) : Mem B :=
  Function.update mem b fun o => if p ≤ o then (bytes[o - p]?).getD (mem b o) else mem b o

/-- The `n` bytes of a block from an offset on. -/
def read (mem : Mem B) (b : B) (p n : Nat) : List UInt8 := (List.range' p n).map (mem b)

/-- The number in the `n` bytes from an offset on. -/
def load (mem : Mem B) (b : B) (p n : Nat) : Nat := ofBytes (read mem b p n)

/-- The bytes are in the block from the offset on. -/
def At (mem : Mem B) (b : B) (p : Nat) (bytes : List UInt8) : Prop :=
  read mem b p bytes.length = bytes

@[simp] theorem length_read (mem : Mem B) (b : B) (p n : Nat) : (read mem b p n).length = n := by
  rw [read, List.length_map, List.length_range']

theorem read_add (mem : Mem B) (b : B) (p n k : Nat) :
    read mem b p (n + k) = read mem b p n ++ read mem b (p + n) k := by
  rw [read, ← List.range'_append_1, List.map_append]
  rfl

theorem read_congr {mem mem' : Mem B} {b : B} {p n : Nat}
    (h : ∀ o, p ≤ o → o < p + n → mem' b o = mem b o) : read mem' b p n = read mem b p n := by
  apply List.map_congr_left
  intro o ho
  rw [List.mem_range'_1] at ho
  exact h o ho.1 ho.2

theorem load_zero {mem : Mem B} {b : B} (h : ∀ o, mem b o = 0) (n : Nat) :
    ∀ p, load mem b p n = 0 := by
  induction n with
  | zero => exact fun _ => rfl
  | succ n ih =>
      intro p
      have hrest : ofBytes (read mem b (p + 1) n) = 0 := ih (p + 1)
      have hread : read mem b p (n + 1) = 0 :: read mem b (p + 1) n := by
        rw [read, List.range'_succ, List.map_cons, h]
        rfl
      rw [load, hread, ofBytes, hrest]
      rfl

/-- **A number** in the bytes that are read. -/
theorem field_read {mem : Mem B} {b : B} {p q n k : Nat} (h : q + n ≤ k) :
    field (read mem b p k) q n = some (load mem b (p + q) n) := by
  have hsplit : k = q + (n + (k - (q + n))) := by omega
  have hread : ((read mem b p k).drop q).take n = read mem b (p + q) n := by
    rw [hsplit, read_add, read_add, List.drop_left' (length_read mem b p q),
      List.take_left' (length_read mem b (p + q) n)]
  rw [field, length_read, if_pos h, hread]
  rfl

section Store

variable [DecidableEq B] {mem : Mem B} {b c : B} {p : Nat} {xs : List UInt8}

theorem store_of_ne (h : c ≠ b) : store mem b p xs c = mem c := Function.update_of_ne h _ _

theorem store_apply_of_disjoint {o : Nat} (h : o < p ∨ p + xs.length ≤ o) :
    store mem b p xs b o = mem b o := by
  rw [store, Function.update_self]
  split
  · rw [List.getElem?_eq_none (by omega)]
    rfl
  · rfl

end Store

/-! ## What a store leaves alone -/

/-- The memories agree outside `n` bytes of a block from `p` on. -/
def Agree (mem mem' : Mem B) (b : B) (p n : Nat) : Prop :=
  ∀ c o, (c ≠ b ∨ o < p ∨ p + n ≤ o) → mem' c o = mem c o

section Agree

variable {mem mem' mem'' : Mem B} {b c : B} {p q n k : Nat} {xs ys : List UInt8}

namespace Agree

theorem refl : Agree mem mem b p n := fun _ _ _ => rfl

theorem trans (h : Agree mem mem' b p n) (h' : Agree mem' mem'' b p n) :
    Agree mem mem'' b p n := by
  intro c o ho
  rw [h' c o ho, h c o ho]

/-- In a wider range they agree no less. -/
theorem mono (h : Agree mem mem' b q k) (hlo : p ≤ q) (hhi : q + k ≤ p + n) :
    Agree mem mem' b p n := by
  intro c o ho
  apply h
  rcases ho with hc | hlt | hge
  · exact .inl hc
  · exact .inr (.inl (Nat.lt_of_lt_of_le hlt hlo))
  · exact .inr (.inr (Nat.le_trans hhi hge))

theorem store [DecidableEq B] : Agree mem (store mem b p xs) b p xs.length := by
  intro c o ho
  by_cases hc : c = b
  · subst hc
    rcases ho with hne | ho
    · exact absurd rfl hne
    · exact store_apply_of_disjoint ho
  · rw [store_of_ne hc]

theorem store_toBytes [DecidableEq B] {x : Nat} :
    Agree mem (ByteMemory.store mem b p (toBytes n x)) b p n := by
  have hwrite : Agree mem (ByteMemory.store mem b p (toBytes n x)) b p (toBytes n x).length := store
  rwa [length_toBytes] at hwrite

theorem read (h : Agree mem mem' b p n) (hd : c ≠ b ∨ q + k ≤ p ∨ p + n ≤ q) :
    read mem' c q k = read mem c q k := by
  apply read_congr
  intro o hlo hhi
  apply h
  rcases hd with hc | hd
  · exact .inl hc
  · exact .inr (by omega)

end Agree

namespace At

/-- **Bytes beside** what is stored stay. -/
theorem agree (h : At mem c q ys) (ha : Agree mem mem' b p n)
    (hd : c ≠ b ∨ q + ys.length ≤ p ∨ p + n ≤ q) : At mem' c q ys := by
  rw [At, ha.read hd]
  exact h

/-- **Bytes stored** are in memory. -/
theorem store [DecidableEq B] : At (store mem b p xs) b p xs := by
  apply List.ext_getElem
  · rw [length_read]
  · intro i hi hi'
    have hget : ∀ h : i < (List.range' p xs.length).length,
        (List.range' p xs.length)[i] = p + i := by
      intro h
      rw [List.getElem_range', Nat.one_mul]
    simp only [ByteMemory.read, List.getElem_map, hget, ByteMemory.store, Function.update_self]
    rw [if_pos (Nat.le_add_right p i), Nat.add_sub_cancel_left, List.getElem?_eq_getElem hi']
    rfl

theorem load {x : Nat} (h : At mem b p (toBytes n x)) (hx : x < 2 ^ (8 * n)) :
    load mem b p n = x := by
  have hread := h
  rw [At, length_toBytes] at hread
  rw [ByteMemory.load, hread, ofBytes_toBytes_of_lt hx]

/-- A number in memory, in what is read around it. -/
theorem field {x : Nat} (h : At mem b (p + q) (toBytes n x)) (hx : x < 2 ^ (8 * n))
    (hle : q + n ≤ k) : field (ByteMemory.read mem b p k) q n = some x := by
  rw [field_read hle, h.load hx]

end At

end Agree

end ByteMemory
