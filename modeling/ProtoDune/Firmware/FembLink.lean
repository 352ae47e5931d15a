import ProtoDune.Firmware.FembLine
import ProtoDune.Firmware.WibLink

/-!
# The link from the event builder to the WIB receiver

The event builder computes the CRC with `EthernetCRCD32`, 32 bits a cycle, and
the receiver checks it with `EthernetCRCD16B`. The gearbox moves the words
against the clock of the frames, so that a frame starts in the low or in the
high half of what the event builder puts out.

Main results:

* `femb_delivers` — the frames that the event builder writes come out of the
  receiver one by one and without errors.
-/

namespace ProtoDune.Firmware.FembLink

open Framing EthernetCRC WibLink FEMB_EventBuilder

/-- The receiver after the symbols `S`, and one more that is still in its receive registers. -/
def receiver (s₀ : BitVec 32) (runEnable : Nat → Bool) (S : List LineSymbol) (s : LineSymbol) :
    ProtoDuneDpmWibRxFramer.Monitor (BitVec 32) :=
  ProtoDuneDpmWibRxFramer.run d16bEngine s₀ (linePortsOf runEnable (S ++ [s]))

/-- The event builder feeds the receiver. In every run since a reset of the event builder, from
whatever state and with whatever inputs, the receiver sees no error, and the frames that leave it
are those that were written, in their order and with their words. Seven cycles into a frame all
earlier ones have left. -/
theorem femb_delivers (FIBER_ID : BitVec 2) (b : Builder) (ps : List Ports) (s₀ : BitVec 32)
    (runEnable : Nat → Bool) (s : LineSymbol) :
    let m := run FIBER_ID b ps
    let rx := receiver s₀ runEnable m.line s
    Quiet rx.r ∧ ∃ fs, fs <+: m.frames FIBER_ID ∧
      List.Forall₂ Delivered fs (frames AxiWord.tLast rx.out).complete ∧
      ∀ cap, m.cur = some cap → 7 ≤ cap.cycles.length → fs = m.frames FIBER_ID := by
  intro m rx
  obtain ⟨J, S, hline, hJ, fs, o, honLine, hpre, hall⟩ := run_onLine FIBER_ID b ps
  have hstep : InStep d16bEngine rx fs o := by
    have hrun := inStep_run_after s₀ runEnable hJ honLine s (runEnable (J ++ S).length)
    rw [← linePortsOf_append_singleton, ← hline] at hrun
    exact hrun
  refine ⟨hstep.quiet, fs, hpre, ?_, hall⟩
  have hrx : ProtoDuneDpmWibRxFramer.Receives d16bEngine rx :=
    ProtoDuneDpmWibRxFramer.receives_run d16bEngine s₀ _
  rw [hrx.frames_out]
  exact delivered_ended hstep.ended honLine.length_of_mem

end ProtoDune.Firmware.FembLink
