import ProtoDune.Daq.SetConfig
import ProtoDune.Lib.Tiles

/-!
# The software trigger

`SoftTrigger::check` compares the phases of the two ends of a packet. It answers
for the multiples of the period after the beginning of the packet and up to its
end.

Main results:

* `passage_iff` — for a packet shorter than the period, when a multiple of it is
  reported, and which.
* `exists_misreported` — a period that wraps in 32 bits is not kept.
* `softTrigger_exact_iff` — when the multiples of the period inside a stream are
  reported, each once, and nothing else is.
-/

namespace ProtoDune.Daq

open WindowSelect TimingClockTicks Tiles

/-! ## A packet -/

/-- The phase goes through 0 at `t`, in ticks of the period. -/
def Passage (period : Nat) (s : Span Nat) (t : Nat) : Prop :=
  s.fin % period < s.beg % period ∧ s.fin - s.fin % period = t

namespace Passage

variable {period t : Nat} {s : Span Nat}

/-- The time that is reported is after the beginning and not after the end. -/
theorem bounds (h : Passage period s t) (hs : s.beg ≤ s.fin) : s.beg < t ∧ t ≤ s.fin := by
  obtain ⟨hlt, rfl⟩ := h
  refine ⟨?_, Nat.sub_le _ _⟩
  have hbeg := Nat.div_add_mod s.beg period
  have hfin := Nat.div_add_mod s.fin period
  -- the end lies in a later period than the beginning
  have hdiv : s.beg / period < s.fin / period := by
    by_contra hge
    have hle : period * (s.fin / period) ≤ period * (s.beg / period) :=
      Nat.mul_le_mul_left _ (by omega)
    omega
  have hmul : period * (s.beg / period + 1) ≤ period * (s.fin / period) :=
    Nat.mul_le_mul_left _ hdiv
  have hphase : s.beg % period < period := Nat.mod_lt _ (Nat.pos_of_ne_zero (by
    rintro rfl
    rw [Nat.mod_zero, Nat.mod_zero] at hlt
    omega))
  rw [Nat.mul_add, Nat.mul_one] at hmul
  omega

theorem dvd (h : Passage period s t) : period ∣ t := by
  obtain ⟨-, rfl⟩ := h
  exact Nat.dvd_sub_mod s.fin

end Passage

/-- **In a packet shorter than the period** the phase goes through 0 at the
multiple after its beginning and up to its end. -/
theorem passage_iff {period t : Nat} {s : Span Nat} (hs : s.beg ≤ s.fin)
    (hshort : s.fin - s.beg < period) :
    Passage period s t ↔ period ∣ t ∧ s.beg < t ∧ t ≤ s.fin := by
  constructor
  · intro h
    exact ⟨h.dvd, h.bounds hs⟩
  · rintro ⟨⟨q, rfl⟩, hlo, hhi⟩
    -- the end is in the period from the multiple on, the beginning in the one before
    obtain ⟨q, rfl⟩ : ∃ q', q = q' + 1 :=
      Nat.exists_eq_succ_of_ne_zero (by rintro rfl; omega)
    have hmul : period * (q + 1) = period * q + period := Nat.mul_succ _ _
    have hfin : s.fin % period = s.fin - period * (q + 1) := by
      conv_lhs => rw [show s.fin = period * (q + 1) + (s.fin - period * (q + 1)) by omega]
      rw [Nat.mul_add_mod, Nat.mod_eq_of_lt (by omega)]
    have hbeg : s.beg % period = s.beg - period * q := by
      conv_lhs => rw [show s.beg = period * q + (s.beg - period * q) by omega]
      rw [Nat.mul_add_mod, Nat.mod_eq_of_lt (by omega)]
    unfold Passage
    rw [hfin, hbeg]
    omega

/-- The answer of `check`, as the receive loop takes it: the trigger time, if it
is not negative. -/
def SoftTrigger.triggerTime (s : Span Nat) (period : Nat) : Option Nat :=
  match SoftTrigger.check s period with
  | .ok t => if 0 ≤ t then some t.toNat else none
  | .error _ => none

theorem triggerTime_eq_some {s : Span Nat} {period t : Nat} (hperiod : period ≠ 0)
    (hrange : s.fin < 2 ^ 64) :
    SoftTrigger.triggerTime s period = some t ↔ Passage period s t ∧ t < 2 ^ 63 := by
  unfold SoftTrigger.triggerTime SoftTrigger.check Passage
  rw [if_neg hperiod]
  by_cases hlt : s.fin % period < s.beg % period
  · rw [if_pos hlt]
    have hle := Nat.sub_le s.fin (s.fin % period)
    dsimp only
    split_ifs <;> simp <;> omega
  · simp [hlt]

/-! ## A stream of packets -/

/-- The packets of one destination, each shorter than the period of `usecs`
microseconds. -/
structure PacketStream (usecs : Nat) (stream : List (Span Nat)) : Prop where
  contiguous : Contiguous stream
  short : ∀ s ∈ stream, s.fin - s.beg < 50 * usecs
  range : ∀ s ∈ stream, s.fin < 2 ^ 64

/-- The time is in the stream, and a multiple of the period. -/
def Due (usecs : Nat) : List (Span Nat) → Nat → Prop
  | [], _ => False
  | s :: ss, t => s.beg ≤ t ∧ t < finish s ss ∧ 50 * usecs ∣ t

instance (usecs : Nat) (stream : List (Span Nat)) : DecidablePred (Due usecs stream) := fun t => by
  cases stream <;> unfold Due <;> infer_instance

/-- The trigger times reported for the packets of a stream. -/
def reported (period : Nat) (stream : List (Span Nat)) : List Nat :=
  stream.filterMap fun s => SoftTrigger.triggerTime s period

/-- Each multiple of the period inside the stream is reported once, nothing else
is, and no remainder by zero is taken. -/
structure ReportsExactly (usecs : Nat) (stream : List (Span Nat)) : Prop where
  defined : ∀ s ∈ stream, ∀ e, SoftTrigger.check s (from_usecs usecs) ≠ .error e
  exact : ∀ t, (reported (from_usecs usecs) stream).count t = if Due usecs stream t then 1 else 0

/-- No multiple of the period at the ends of the stream, nor beyond what a 64-bit
number with a sign holds. -/
structure Timely (usecs : Nat) (s : Span Nat) (ss : List (Span Nat)) : Prop where
  start : s.beg < finish s ss → ¬ 50 * usecs ∣ s.beg
  stop : s.beg < finish s ss → finish s ss < 2 ^ 63 → ¬ 50 * usecs ∣ finish s ss
  signed : ∀ t, Due usecs (s :: ss) t → t < 2 ^ 63

/-- A packet is timely if no multiple of the period is at either end of it. -/
theorem Timely.single {usecs beg fin : Nat} (hstart : ¬ 50 * usecs ∣ beg)
    (hstop : ¬ 50 * usecs ∣ fin) (hfin : fin ≤ 2 ^ 63) : Timely usecs ⟨beg, fin⟩ [] :=
  ⟨fun _ => hstart, fun _ _ => hstop, fun _ ht => Nat.lt_of_lt_of_le ht.2.1 hfin⟩

section

variable {usecs period t : Nat} {s a : Span Nat} {ss stream : List (Span Nat)}

theorem mem_reported (h : PacketStream usecs stream) (hperiod : period ≠ 0) :
    t ∈ reported period stream ↔ ∃ a ∈ stream, Passage period a t ∧ t < 2 ^ 63 := by
  unfold reported
  rw [List.mem_filterMap]
  constructor
  · rintro ⟨a, ha, hsome⟩
    exact ⟨a, ha, (triggerTime_eq_some hperiod (h.range a ha)).mp hsome⟩
  · rintro ⟨a, ha, hpass⟩
    exact ⟨a, ha, (triggerTime_eq_some hperiod (h.range a ha)).mpr hpass⟩

/-- The times are reported in order. -/
theorem reported_sorted (h : PacketStream usecs stream) (hperiod : period ≠ 0) :
    (reported period stream).Pairwise (· < ·) := by
  unfold reported
  rw [List.pairwise_filterMap]
  refine h.contiguous.pairwise.imp_of_mem ?_
  intro a b ha hb hab t ht t' ht'
  have hpass := ((triggerTime_eq_some hperiod (h.range a ha)).mp ht).1
  have hpass' := ((triggerTime_eq_some hperiod (h.range b hb)).mp ht').1
  calc t ≤ a.fin := (hpass.bounds (h.contiguous.ordered a ha)).2
    _ ≤ b.beg := hab
    _ < t' := (hpass'.bounds (h.contiguous.ordered b hb)).1

/-- Exactly once, for a list in order. -/
theorem exact_iff_mem (hsorted : (reported period stream).Pairwise (· < ·)) :
    (∀ t, (reported period stream).count t = if Due usecs stream t then 1 else 0) ↔
      ∀ t, t ∈ reported period stream ↔ Due usecs stream t := by
  have hnodup : (reported period stream).Nodup := hsorted.imp fun hlt => Nat.ne_of_lt hlt
  apply forall_congr'
  intro t
  rw [hnodup.count]
  split_ifs <;> simp_all

theorem PacketStream.passage_iff (h : PacketStream usecs stream) (ha : a ∈ stream) :
    Passage (50 * usecs) a t ↔ 50 * usecs ∣ t ∧ a.beg < t ∧ t ≤ a.fin :=
  Daq.passage_iff (h.contiguous.ordered a ha) (h.short a ha)

/-- A multiple inside the stream, but not at its beginning, is passed in a packet. -/
theorem exists_passage (h : PacketStream usecs (s :: ss)) (hlo : s.beg < t) (hhi : t ≤ finish s ss)
    (hdvd : 50 * usecs ∣ t) : ∃ a ∈ s :: ss, Passage (50 * usecs) a t := by
  obtain ⟨a, ha, hat⟩ := h.contiguous.exists_mem hlo hhi
  exact ⟨a, ha, (h.passage_iff ha).mpr ⟨hdvd, hat⟩⟩

/-- Without a wrap the ticks are the period. -/
theorem mem_reported_of_le (h : PacketStream usecs (s :: ss)) (hle : usecs ≤ 4294967) :
    t ∈ reported (from_usecs usecs) (s :: ss) ↔
      ∃ a ∈ s :: ss, Passage (50 * usecs) a t ∧ t < 2 ^ 63 := by
  have hpos : 0 < 50 * usecs := Nat.zero_lt_of_lt (h.short s List.mem_cons_self)
  rw [from_usecs_eq hle]
  exact mem_reported h (by omega)

theorem exact_iff_mem_of_le (h : PacketStream usecs (s :: ss)) (hle : usecs ≤ 4294967) :
    ReportsExactly usecs (s :: ss) ↔
      ∀ t, t ∈ reported (from_usecs usecs) (s :: ss) ↔ Due usecs (s :: ss) t := by
  have hpos : 0 < 50 * usecs := Nat.zero_lt_of_lt (h.short s List.mem_cons_self)
  have hnonzero : from_usecs usecs ≠ 0 := by
    rw [from_usecs_eq hle]
    omega
  have hcount : (∀ t, (reported (from_usecs usecs) (s :: ss)).count t =
      if Due usecs (s :: ss) t then 1 else 0) ↔ _ := exact_iff_mem (reported_sorted h hnonzero)
  constructor
  · intro hr
    exact hcount.mp hr.exact
  · intro hmem
    refine ⟨?_, hcount.mpr hmem⟩
    intro a _ e
    unfold SoftTrigger.check
    rw [if_neg hnonzero]
    split <;> nofun

theorem Timely.reportsExactly (h : PacketStream usecs (s :: ss)) (hle : usecs ≤ 4294967)
    (ht : Timely usecs s ss) : ReportsExactly usecs (s :: ss) := by
  refine (exact_iff_mem_of_le h hle).mpr fun t => ?_
  rw [mem_reported_of_le h hle]
  constructor
  · rintro ⟨a, ha, hpass, hlt⟩
    obtain ⟨hdvd, hlo, hhi⟩ := (h.passage_iff ha).mp hpass
    have hbeg := h.contiguous.beg_le ha
    have hfin := h.contiguous.fin_le ha
    -- not at the end, so before it
    have hne : t ≠ finish s ss := by
      rintro rfl
      exact ht.stop (by omega) hlt hdvd
    exact ⟨by omega, by omega, hdvd⟩
  · intro hdue
    have hlt := ht.signed t hdue
    obtain ⟨hlo, hhi, hdvd⟩ := hdue
    -- not at the beginning, so in some packet
    have hne : s.beg ≠ t := by
      rintro rfl
      exact ht.start hhi hdvd
    obtain ⟨a, ha, hpass⟩ := exists_passage h (by omega) hhi.le hdvd
    exact ⟨a, ha, hpass, hlt⟩

theorem ReportsExactly.timely (h : PacketStream usecs (s :: ss)) (hle : usecs ≤ 4294967)
    (hr : ReportsExactly usecs (s :: ss)) : Timely usecs s ss := by
  have hmem : ∀ t, (∃ a ∈ s :: ss, Passage (50 * usecs) a t ∧ t < 2 ^ 63) ↔
      Due usecs (s :: ss) t := by
    intro t
    rw [← mem_reported_of_le h hle]
    exact (exact_iff_mem_of_le h hle).mp hr t
  refine ⟨?_, ?_, ?_⟩
  · intro hlt hdvd
    obtain ⟨a, ha, hpass, -⟩ := (hmem s.beg).mpr ⟨le_refl _, hlt, hdvd⟩
    have hbounds := hpass.bounds (h.contiguous.ordered a ha)
    have hbeg := h.contiguous.beg_le ha
    omega
  · intro hlt hsmall hdvd
    -- the packet which ends there reports it, and it is not in the stream
    obtain ⟨a, ha, hpass⟩ := exists_passage h hlt (le_refl _) hdvd
    obtain ⟨-, hbefore, -⟩ := (hmem (finish s ss)).mp ⟨a, ha, hpass, hsmall⟩
    exact Nat.lt_irrefl _ hbefore
  · intro t ht
    obtain ⟨-, -, -, hlt⟩ := (hmem t).mpr ht
    exact hlt

theorem ReportsExactly.nonzero (hr : ReportsExactly usecs (s :: ss)) : from_usecs usecs ≠ 0 := by
  intro hzero
  apply hr.defined s List.mem_cons_self .trap
  unfold SoftTrigger.check
  rw [if_pos hzero]

end

/-! ## Periods that wrap -/

section

variable {usecs beg fin : Nat}

theorem packetStream_single (hle : beg ≤ fin) (hshort : fin - beg < 50 * usecs)
    (hrange : fin < 2 ^ 64) : PacketStream usecs [⟨beg, fin⟩] :=
  ⟨⟨List.isChain_singleton _, by simpa using hle⟩, by simpa using hshort, by simpa using hrange⟩

/-- What is reported for a single packet, where the ticks are not 0. -/
theorem mem_reported_single (h : PacketStream usecs [⟨beg, fin⟩]) {period t : Nat}
    (hperiod : period ≠ 0) :
    t ∈ reported period [⟨beg, fin⟩] ↔ Passage period ⟨beg, fin⟩ t ∧ t < 2 ^ 63 := by
  rw [mem_reported h hperiod]
  simp only [List.mem_singleton, exists_eq_left]

/-- **For every period that wraps** some timely packet is misreported: where the ticks
are none the remainder is by zero, one tick is never passed, and more ticks are
passed before the period is. -/
theorem exists_misreported (hwrap : 4294967 < usecs) (husecs : usecs < 2 ^ 32) :
    ∃ beg fin, PacketStream usecs [⟨beg, fin⟩] ∧ Timely usecs ⟨beg, fin⟩ [] ∧
      ¬ ReportsExactly usecs [⟨beg, fin⟩] := by
  have hticks := from_usecs_lt usecs
  have hindivisible : ∀ n, 0 < n → n < 50 * usecs → ¬ 50 * usecs ∣ n := by
    intro n hpos hlt hdvd
    exact absurd (Nat.le_of_dvd hpos hdvd) (by omega)
  rcases Nat.lt_trichotomy (from_usecs usecs) 1 with hnone | hone | hmore
  · refine ⟨1, 2, packetStream_single (by omega) (by omega) (by omega), ?_, ?_⟩
    · exact .single (hindivisible 1 (by omega) (by omega)) (hindivisible 2 (by omega) (by omega))
        (by omega)
    · intro hr
      exact hr.nonzero (by omega)
  · -- the packet goes from one tick before the period to one after it
    have hstream : PacketStream usecs [⟨50 * usecs - 1, 50 * usecs + 1⟩] :=
      packetStream_single (by omega) (by omega) (by omega)
    refine ⟨_, _, hstream, ?_, ?_⟩
    · refine .single (hindivisible _ (by omega) (by omega)) ?_ (by omega)
      rw [Nat.dvd_add_right (Nat.dvd_refl _)]
      exact hindivisible 1 (by omega) (by omega)
    · intro hr
      have hdue : Due usecs [⟨50 * usecs - 1, 50 * usecs + 1⟩] (50 * usecs) :=
        ⟨by simp, by simp [finish], Nat.dvd_refl _⟩
      have hmem := (exact_iff_mem (reported_sorted hstream hr.nonzero)).mp hr.exact (50 * usecs)
      rw [mem_reported_single hstream hr.nonzero, hone] at hmem
      obtain ⟨⟨hlt, -⟩, -⟩ := hmem.mpr hdue
      simp [Nat.mod_one] at hlt
  · -- the packet ends with the ticks
    have hstream : PacketStream usecs [⟨from_usecs usecs - 1, from_usecs usecs⟩] :=
      packetStream_single (by omega) (by omega) (by omega)
    refine ⟨_, _, hstream, ?_, ?_⟩
    · exact .single (hindivisible _ (by omega) (by omega)) (hindivisible _ (by omega) (by omega))
        (by omega)
    · intro hr
      have hpass : Passage (from_usecs usecs) ⟨from_usecs usecs - 1, from_usecs usecs⟩
          (from_usecs usecs) := by
        refine ⟨?_, ?_⟩
        · dsimp only
          rw [Nat.mod_self, Nat.mod_eq_of_lt (by omega)]
          omega
        · dsimp only
          rw [Nat.mod_self, Nat.sub_zero]
      have hmem := (exact_iff_mem (reported_sorted hstream hr.nonzero)).mp hr.exact
        (from_usecs usecs)
      rw [mem_reported_single hstream hr.nonzero] at hmem
      obtain ⟨-, hbefore, -⟩ := hmem.mp ⟨hpass, by omega⟩
      exact Nat.lt_irrefl _ hbefore

end

/-- **Software triggers.** For a period that is not wrapped and every contiguous stream
of packets shorter than it, the multiples of the period inside the stream are
reported, each once and with its time, and nothing else is, exactly when the
stream is timely. For each other period some timely stream is misreported. -/
theorem softTrigger_exact_iff {usecs : Nat} (husecs : usecs < 2 ^ 32) :
    (usecs ≤ 4294967 → ∀ stream, PacketStream usecs stream →
      (ReportsExactly usecs stream ↔ ∀ s ss, stream = s :: ss → Timely usecs s ss)) ∧
    (4294967 < usecs → ∃ s ss, PacketStream usecs (s :: ss) ∧ Timely usecs s ss ∧
      ¬ ReportsExactly usecs (s :: ss)) := by
  constructor
  · intro hle stream h
    cases stream with
    | nil =>
      constructor
      · intro _ s ss hnil
        cases hnil
      · intro _
        refine ⟨fun s hs => (nomatch hs), ?_⟩
        intro t
        rfl
    | cons s ss =>
      constructor
      · rintro hr _ _ ⟨⟩
        exact hr.timely h hle
      · intro ht
        exact (ht s ss rfl).reportsExactly h hle
  · intro hwrap
    obtain ⟨beg, fin, hstream, htimely, hmis⟩ := exists_misreported hwrap husecs
    exact ⟨⟨beg, fin⟩, [], hstream, htimely, hmis⟩

/-- Two packets, and a multiple of a period of 1 ms between them. -/
def packetPair : List (Span Nat) := [⟨40000, 50010⟩, ⟨50010, 60000⟩]

theorem packetPair_stream : PacketStream 1000 packetPair :=
  ⟨⟨by simp [packetPair], by simp [packetPair]⟩, by simp [packetPair], by simp [packetPair]⟩

theorem packetPair_timely : Timely 1000 ⟨40000, 50010⟩ [⟨50010, 60000⟩] := by
  refine ⟨fun _ => by decide, fun _ _ => by simp [finish], ?_⟩
  rintro t ⟨-, hlt, -⟩
  exact Nat.lt_trans hlt (by simp [finish])

/-- The multiple is reported, and for a period of 4294968 microseconds some is not. -/
theorem softTrigger_exact_iff_packetPair :
    ReportsExactly 1000 packetPair ∧ reported (from_usecs 1000) packetPair = [50000] ∧
      ∃ s ss, PacketStream 4294968 (s :: ss) ∧ Timely 4294968 s ss ∧
        ¬ ReportsExactly 4294968 (s :: ss) := by
  refine ⟨?_, by decide, ?_⟩
  · refine ((softTrigger_exact_iff (by decide)).1 (by decide) packetPair packetPair_stream).mpr ?_
    rintro _ _ ⟨⟩
    exact packetPair_timely
  · exact (softTrigger_exact_iff (by decide)).2 (by decide)

/-- A period of 2^29 microseconds is a multiple of 2^32 ns, so that the ticks are none. -/
theorem wrappedPeriod_traps :
    ¬ ∀ (usecs : Nat) (stream : List (Span Nat)), usecs < 2 ^ 32 → PacketStream usecs stream →
      ReportsExactly usecs stream := by
  intro hall
  have hstream : PacketStream (2 ^ 29) [⟨0, 25600⟩] :=
    ⟨⟨by simp, by simp⟩, by simp, by simp⟩
  have hr := hall (2 ^ 29) [⟨0, 25600⟩] (by decide) hstream
  apply hr.defined ⟨0, 25600⟩ List.mem_cons_self .trap
  rfl

end ProtoDune.Daq
