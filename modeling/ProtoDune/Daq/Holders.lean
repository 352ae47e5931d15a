import Mathlib.Data.List.Nodup
import Mathlib.Data.Sum.Basic
import ProtoDune.Daq.Threads

/-!
# Who holds a buffer

Each buffer is with the driver, in the hands of the receive thread, on a list,
or ahead of the transmit thread on the list that it frees. `Buffers` says that
the state agrees.

Main results:

* `Buffers.receive`, `Buffers.giveBack` — a buffer changes hands.
* `Buffers.relist` — a list operation moves buffers between a list and the hands.
* `Buffers.move` — all buffers of some lists change hands.
-/

namespace ProtoDune.Daq

open Access LinkChain

inductive Holder where
  | driver
  | hand
  | list (h : Head)
  | walk
  | nowhere
deriving DecidableEq

/-- The state agrees with `own`. -/
structure Buffers (bCount : Nat) (driver : List Nat) (hand : List Addr) (live : Head → Prop)
    (σ : Head → List Nat) (own : Nat → Holder) : Prop where
  range : ∀ i, own i ≠ .nowhere → i < bCount
  driver_nodup : driver.Nodup
  mem_driver : ∀ i, i ∈ driver ↔ own i = .driver
  hand_nodup : hand.Nodup
  mem_hand : ∀ a, a ∈ hand ↔ ∃ i, a = .inr i ∧ own i = .hand
  lists : ∀ h i, own i = .list h ↔ live h ∧ i ∈ σ h

/-- A list operation on `list` that leaves `ys` on it and takes `popped` off it. -/
def relist (own : Nat → Holder) (list : Head) (ys popped : List Nat) (i : Nat) : Holder :=
  if i ∈ ys then .list list
  else if i ∈ popped then .hand
  else if own i = .list list then .nowhere
  else own i

/-- The buffers on the lists that meet `P` go to `k`. -/
def Holder.move (P : Head → Bool) (k : Holder) : Holder → Holder
  | .list h => if P h then k else .list h
  | o => o

namespace Holder

variable {P : Head → Bool} {k o : Holder} {h : Head}

theorem move_eq_list (hk : ∀ h, k ≠ .list h) :
    Holder.move P k o = .list h ↔ o = .list h ∧ P h = false := by
  cases o with
  | list h' =>
    cases hP : P h'
    · simp only [move, hP, Bool.false_eq_true, if_false, list.injEq]
      constructor
      · rintro rfl
        exact ⟨rfl, hP⟩
      · exact fun h => h.1
    · simp only [move, hP, if_true, list.injEq]
      constructor
      · exact fun heq => absurd heq (hk h)
      · rintro ⟨rfl, hfalse⟩
        rw [hP] at hfalse
        exact Bool.noConfusion hfalse
  | driver => simp [move]
  | hand => simp [move]
  | walk => simp [move]
  | nowhere => simp [move]

theorem move_eq (hk : ∀ h, k ≠ .list h) : Holder.move P k o = k ↔
    o = k ∨ ∃ h, o = .list h ∧ P h = true := by
  cases o with
  | list h' =>
    cases hP : P h'
    · simp only [move, hP, Bool.false_eq_true, if_false, list.injEq]
      simp [hP, Ne.symm (hk h')]
    · simp only [move, hP, if_true, list.injEq]
      simp [hP]
  | driver => simp [move]
  | hand => simp [move]
  | walk => simp [move]
  | nowhere => simp [move]

theorem move_eq_of_ne {l : Holder} (hl : l ≠ k) (hlist : ∀ h, l ≠ .list h) :
    Holder.move P k o = l ↔ o = l := by
  cases o with
  | list h' =>
    cases hP : P h'
    · simp [move, hP]
    · simp [move, hP, hl.symm, (hlist h').symm]
  | driver => simp [move]
  | hand => simp [move]
  | walk => simp [move]
  | nowhere => simp [move]

end Holder

variable {bCount : Nat} {driver : List Nat} {hand : List Addr} {live : Head → Prop}
  {σ : Head → List Nat} {own : Nat → Holder} {i : Nat}

/-- A list of the event. -/
def ofEvent (event : Nat) : Head → Bool
  | .latency _ => false
  | .contrib e _ => e == event

namespace Buffers

theorem congr (h : Buffers bCount driver hand live σ own) {live' : Head → Prop}
    (hlive : ∀ l, live' l ↔ live l) : Buffers bCount driver hand live' σ own :=
  ⟨h.range, h.driver_nodup, h.mem_driver, h.hand_nodup, h.mem_hand, fun l i => by
    rw [h.lists, hlive]⟩

/-- A buffer that is on no list goes to a holder that is not a list. -/
theorem lists_update (h : Buffers bCount driver hand live σ own) {k : Holder}
    (hi : ∀ l, own i ≠ .list l) (hk : ∀ l, k ≠ .list l) (l : Head) (j : Nat) :
    Function.update own i k j = .list l ↔ live l ∧ j ∈ σ l := by
  rw [← h.lists]
  by_cases hj : j = i
  · rw [hj, Function.update_self]
    exact iff_of_false (hk l) (hi l)
  · rw [Function.update_of_ne hj]

theorem range_update (h : Buffers bCount driver hand live σ own) {k : Holder}
    (hi : own i ≠ .nowhere) (j : Nat) (hj : Function.update own i k j ≠ .nowhere) : j < bCount := by
  by_cases hji : j = i
  · rw [hji]
    exact h.range i hi
  · rw [Function.update_of_ne hji] at hj
    exact h.range j hj

/-- `dmaReadIndex` hands out a buffer. -/
theorem receive (h : Buffers bCount driver hand live σ own) (hi : i ∈ driver) :
    Buffers bCount (driver.erase i) (.inr i :: hand) live σ (Function.update own i .hand) := by
  have hown : own i = .driver := (h.mem_driver i).mp hi
  refine ⟨h.range_update (by rw [hown]; exact nofun), h.driver_nodup.erase i, ?_, ?_, ?_,
    h.lists_update (by rw [hown]; exact nofun) nofun⟩
  · intro j
    rw [h.driver_nodup.mem_erase_iff, h.mem_driver]
    by_cases hj : j = i
    · rw [hj, Function.update_self]
      simp
    · rw [Function.update_of_ne hj]
      exact and_iff_right hj
  · refine List.nodup_cons.mpr ⟨?_, h.hand_nodup⟩
    rw [h.mem_hand]
    rintro ⟨j, hj, hhand⟩
    rw [← Sum.inr.inj hj, hown] at hhand
    exact Holder.noConfusion hhand
  · intro a
    rw [List.mem_cons, h.mem_hand]
    constructor
    · rintro (rfl | ⟨j, rfl, hj⟩)
      · exact ⟨i, rfl, Function.update_self i _ own⟩
      · refine ⟨j, rfl, ?_⟩
        rw [Function.update_of_ne (by rintro rfl; rw [hown] at hj; exact Holder.noConfusion hj)]
        exact hj
    · rintro ⟨j, rfl, hj⟩
      by_cases hji : j = i
      · exact .inl (by rw [hji])
      · rw [Function.update_of_ne hji] at hj
        exact .inr ⟨j, rfl, hj⟩

/-- A buffer of neither the driver nor the hands nor a list goes back to the driver. -/
theorem giveBack_walk (h : Buffers bCount driver hand live σ own) (hi : own i = .walk) :
    Buffers bCount (i :: driver) hand live σ (Function.update own i .driver) := by
  refine ⟨h.range_update (by rw [hi]; exact nofun), List.nodup_cons.mpr ⟨?_, h.driver_nodup⟩, ?_,
    h.hand_nodup, ?_, h.lists_update (by rw [hi]; exact nofun) nofun⟩
  · rw [h.mem_driver, hi]
    exact nofun
  · intro j
    rw [List.mem_cons, h.mem_driver]
    by_cases hj : j = i
    · rw [hj, Function.update_self]
      simp
    · rw [Function.update_of_ne hj]
      simp [hj]
  · intro a
    rw [h.mem_hand]
    apply exists_congr
    intro j
    by_cases hj : j = i
    · rw [hj, Function.update_self, hi]
      simp
    · rw [Function.update_of_ne hj]

/-- A buffer goes back to the driver from the hands. -/
theorem giveBack_hand (h : Buffers bCount driver hand live σ own) (hi : .inr i ∈ hand) :
    Buffers bCount (i :: driver) (hand.erase (.inr i)) live σ (Function.update own i .driver) := by
  have hown : own i = .hand := by
    obtain ⟨j, hj, hhand⟩ := (h.mem_hand _).mp hi
    rwa [Sum.inr.inj hj]
  refine ⟨h.range_update (by rw [hown]; exact nofun),
    List.nodup_cons.mpr ⟨?_, h.driver_nodup⟩, ?_, h.hand_nodup.erase _, ?_,
    h.lists_update (by rw [hown]; exact nofun) nofun⟩
  · rw [h.mem_driver, hown]
    exact nofun
  · intro j
    rw [List.mem_cons, h.mem_driver]
    by_cases hj : j = i
    · rw [hj, Function.update_self]
      simp
    · rw [Function.update_of_ne hj]
      simp [hj]
  · intro a
    rw [h.hand_nodup.mem_erase_iff, h.mem_hand]
    constructor
    · rintro ⟨hne, j, rfl, hj⟩
      refine ⟨j, rfl, ?_⟩
      rwa [Function.update_of_ne fun heq => hne (by rw [heq])]
    · rintro ⟨j, rfl, hj⟩
      by_cases hji : j = i
      · rw [hji, Function.update_self] at hj
        exact Holder.noConfusion hj
      · rw [Function.update_of_ne hji] at hj
        exact ⟨fun heq => hji (Sum.inr.inj heq), j, rfl, hj⟩

/-- A list operation. -/
theorem relist (h : Buffers bCount driver hand live σ own) {live' : Head → Prop} {list : Head}
    {ys popped given : List Nat} (hlive : ∀ l, live' l ↔ live l ∨ l = list)
    (hgiven : ∀ i ∈ given, .inr i ∈ hand ∧ i ∈ ys)
    (hys : ∀ i ∈ ys, own i = .list list ∨ i ∈ given)
    (hpopped : ∀ i ∈ popped, own i = .list list ∧ i ∉ ys) (hnd : popped.Nodup) :
    Buffers bCount driver (popped.map .inr ++ hand.diff (given.map .inr)) live'
      (Function.update σ list ys) (ProtoDune.Daq.relist own list ys popped) := by
  have hhand (i : Nat) : .inr i ∈ hand ↔ own i = .hand := by
    rw [h.mem_hand]
    constructor
    · rintro ⟨j, hj, hown⟩
      rwa [Sum.inr.inj hj]
    · exact fun hown => ⟨i, rfl, hown⟩
  have hmoved (i : Nat) (hi : i ∈ ys) : own i = .list list ∨ own i = .hand :=
    (hys i hi).imp_right fun hg => (hhand i).mp (hgiven i hg).1
  have hkept {i : Nat} {o : Holder} (ho : own i = o) (hlist : o ≠ .list list) (hne : o ≠ .hand) :
      ProtoDune.Daq.relist own list ys popped i = o := by
    unfold ProtoDune.Daq.relist
    rw [if_neg, if_neg, if_neg (by rwa [ho]), ho]
    · exact fun hp => hlist (ho.symm.trans (hpopped i hp).1)
    · exact fun hy => (hmoved i hy).elim (fun h => hlist (ho.symm.trans h))
        fun h => hne (ho.symm.trans h)
  refine ⟨?_, h.driver_nodup, ?_, ?_, ?_, ?_⟩
  · intro i hi
    apply h.range
    intro hown
    exact hi (hkept hown nofun nofun)
  · intro i
    rw [h.mem_driver]
    refine ⟨fun hown => hkept hown nofun nofun, ?_⟩
    unfold ProtoDune.Daq.relist
    split_ifs <;> simp
  · refine List.nodup_append.mpr ⟨hnd.map Sum.inr_injective, h.hand_nodup.diff, ?_⟩
    rintro a ha b hb rfl
    obtain ⟨i, hi, rfl⟩ := List.mem_map.mp ha
    have hown := (hhand i).mp (h.hand_nodup.mem_sdiff_iff.mp hb).1
    rw [(hpopped i hi).1] at hown
    exact Holder.noConfusion hown
  · intro a
    rw [List.mem_append, h.hand_nodup.mem_sdiff_iff]
    constructor
    · rintro (ha | ⟨ha, hnot⟩)
      · obtain ⟨i, hi, rfl⟩ := List.mem_map.mp ha
        refine ⟨i, rfl, ?_⟩
        rw [ProtoDune.Daq.relist, if_neg (hpopped i hi).2, if_pos hi]
      · obtain ⟨i, rfl, hown⟩ := (h.mem_hand a).mp ha
        have hy : i ∉ ys := fun hy => (hys i hy).elim
          (fun h => Holder.noConfusion (hown.symm.trans h))
          fun hg => hnot (List.mem_map_of_mem hg)
        have hp : i ∉ popped := fun hp => Holder.noConfusion (hown.symm.trans (hpopped i hp).1)
        refine ⟨i, rfl, ?_⟩
        rw [ProtoDune.Daq.relist, if_neg hy, if_neg hp, hown]
        exact if_neg nofun
    · rintro ⟨i, rfl, hi⟩
      unfold ProtoDune.Daq.relist at hi
      split_ifs at hi with hy hp hl
      · exact .inl (List.mem_map_of_mem hp)
      · refine .inr ⟨(hhand i).mpr hi, fun hg => hy ?_⟩
        obtain ⟨j, hj, heq⟩ := List.mem_map.mp hg
        rw [← Sum.inr.inj heq]
        exact (hgiven j hj).2
  · intro l i
    by_cases hl : l = list
    · subst hl
      rw [Function.update_self, hlive]
      unfold ProtoDune.Daq.relist
      split_ifs with hy hp hown
      · simp [hy]
      · simp [hy]
      · simp [hy]
      · simp [hy, hown]
    · rw [Function.update_of_ne hl, hlive, or_iff_left hl, ← h.lists]
      constructor
      · unfold ProtoDune.Daq.relist
        split_ifs
        · exact fun heq => absurd (Holder.list.inj heq).symm hl
        · exact nofun
        · exact nofun
        · exact id
      · exact fun hown => hkept hown (fun heq => hl (Holder.list.inj heq)) nofun

/-- The buffers of some lists change hands. -/
theorem move (h : Buffers bCount driver hand live σ own) {live' : Head → Prop} (P : Head → Bool)
    (k : Holder) (back : List Nat) (hback : k = .driver ∧ back.Nodup ∧
      (∀ i, i ∈ back ↔ ∃ l, own i = .list l ∧ P l = true) ∨ (k = .walk ∨ k = .nowhere) ∧ back = [])
    (hlive : ∀ l, live' l ↔ live l ∧ P l = false) :
    Buffers bCount (driver ++ back) hand live' σ fun i => Holder.move P k (own i) := by
  have hk : (∀ l, k ≠ .list l) ∧ k ≠ .hand := by
    rcases hback with ⟨rfl, -⟩ | ⟨rfl | rfl, -⟩ <;> exact ⟨nofun, nofun⟩
  refine ⟨?_, ?_, ?_, h.hand_nodup, ?_, ?_⟩
  · intro i hi
    apply h.range
    intro hown
    rw [hown] at hi
    exact hi rfl
  · rcases hback with ⟨-, hnd, hmem⟩ | ⟨-, rfl⟩
    · refine List.nodup_append.mpr ⟨h.driver_nodup, hnd, ?_⟩
      rintro i hi j hj rfl
      obtain ⟨l, hl, -⟩ := (hmem i).mp hj
      rw [(h.mem_driver i).mp hi] at hl
      exact Holder.noConfusion hl
    · rw [List.append_nil]
      exact h.driver_nodup
  · intro i
    rw [List.mem_append, h.mem_driver]
    rcases hback with ⟨rfl, -, hmem⟩ | ⟨hne, rfl⟩
    · rw [Holder.move_eq hk.1, hmem]
    · have hdriver : (.driver : Holder) ≠ k := by
        rcases hne with rfl | rfl <;> exact nofun
      rw [Holder.move_eq_of_ne hdriver nofun]
      simp
  · intro a
    rw [h.mem_hand]
    apply exists_congr
    intro i
    rw [Holder.move_eq_of_ne hk.2.symm nofun]
  · intro l i
    rw [Holder.move_eq_list hk.1, h.lists, hlive]
    tauto

end Buffers

end ProtoDune.Daq
