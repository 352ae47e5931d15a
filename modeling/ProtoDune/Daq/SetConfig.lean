import ProtoDune.Daq.RxRun

/-!
# `TimingClockTicks.h`, `DaqBuffer::setConfig`

Times are configured in microseconds and kept in ticks of 20 ns. The conversion
is done in 32 bits.
-/

namespace ProtoDune.Daq

namespace TimingClockTicks

def CLOCK_PERIOD : Nat := 20
def PER_SAMPLE : Nat := 25

/-- `from_usecs`, in 32-bit arithmetic. -/
def from_usecs (period : Nat) : Nat :=
  (1000 * period % 2 ^ 32 + CLOCK_PERIOD / 2) % 2 ^ 32 / CLOCK_PERIOD

/-- The largest time that does not wrap. -/
theorem from_usecs_eq {period : Nat} (h : period ≤ 4294967) : from_usecs period = 50 * period := by
  unfold from_usecs CLOCK_PERIOD
  omega

theorem from_usecs_lt (period : Nat) : from_usecs period < 214748365 := by
  unfold from_usecs CLOCK_PERIOD
  omega

end TimingClockTicks

open TimingClockTicks

/-- `setConfig`: the part of the configuration the receive loop reads. All
arguments are 32-bit numbers. -/
def Config.setConfig (cfg : Config) (blowOffDmaData pretrigger duration period : Nat) : Config :=
  { cfg with
    blowOffDmaData := blowOffDmaData != 0
    pretrigger := from_usecs pretrigger
    posttrigger := from_usecs ((duration + 2 ^ 32 - pretrigger) % 2 ^ 32)
    period := from_usecs period }

end ProtoDune.Daq
