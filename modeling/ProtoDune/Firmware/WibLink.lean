import ProtoDune.Firmware.EmuTxFramer
import ProtoDune.Firmware.WibRxFramer

/-!
# The link from the emulator to the WIB receiver

The symbols that `ProtoDuneDpmEmuTxFramer` puts on the line are the input of
`ProtoDuneDpmWibRxFramer`. Both use the same CRC engine.

Main results:

* `InStep.step` — the receiver stays in step with the line protocol.
* `link_delivers` — each frame on the line comes out whole and without errors.
-/

namespace ProtoDune.Firmware.WibLink

open Framing ProtoDuneDpmWibRxFramer

variable {σ : Type*}

/-- The input ports of the receiver with the symbol `s` on the line: no pause, flush, blow-off or
line error. -/
def linePorts (runEnable : Bool) (s : LineSymbol) : Ports where
  rxValid := true
  rxData := s.data
  rxdataK := s.dataK
  rxDecErr := 0
  rxDispErr := 0
  swFlush := false
  runEnable := runEnable
  blowoffWib := false
  pause := false

/-- The input ports in the cycles of a run. -/
def linePortsOf (runEnable : Nat → Bool) (S : List LineSymbol) : List Ports :=
  S.mapIdx fun i s => linePorts (runEnable i) s

/-- A symbol of the line in the receive registers. -/
def received (s : LineSymbol) : RxSymbol := ⟨s, true⟩

/-- The symbols of the frame on the line, so far. -/
def frameSoFar (e : CrcEngine σ) : LineState → List LineSymbol
  | .gap => []
  | .words ws => wordSymbols ws
  | .crcLo ws => wordSymbols ws ++ [⟨(e.checksum ws).extractLsb' 0 16, 0b00⟩]
  | .crcHi ws => frameSymbols e ws

/-- No error pulse. -/
structure Quiet (r : RegType) : Prop where
  errPktLen : r.errPktLen = false
  errCrc : r.errCrc = false
  errPktDrop : r.errPktDrop = false

/-- What was received is a frame of the line. -/
structure Clean (e : CrcEngine σ) (rc : Reception) (S : List LineSymbol) : Prop where
  symbols : rc.symbols = S.map received
  flush : rc.flush = false
  blown : rc.blown = false

/-- The receiver follows the line: `fs` have ended, and the line is in the state `o`. -/
structure InStep (e : CrcEngine σ) (m : Monitor σ) (fs : List (List (BitVec 16)))
    (o : LineState) : Prop where
  quiet : Quiet m.r
  ended : List.Forall₂ (fun ws rc => Clean e rc (frameSymbols e ws ++ [idle])) fs m.ended
  phase : match o with
    | .gap => Gap e m
    | o => ∃ rc, Receiving e m rc ∧ Clean e rc (frameSoFar e o)

variable {e : CrcEngine σ} {m : Monitor σ} {rc : Reception} {fs : List (List (BitVec 16))}
  {S : List LineSymbol} {o : LineState} {ws : List (BitVec 16)} {s s' : LineSymbol} {b : Bool}

/-! ## What is received of a frame -/

theorem Clean.length (h : Clean e rc S) : rc.symbols.length = S.length := by
  rw [h.symbols, List.length_map]

theorem Clean.data (h : Clean e rc S) : rc.data = S.map LineSymbol.data := by
  rw [Reception.data, h.symbols, List.map_map]
  rfl

theorem Clean.add (h : Clean e rc S) (s : LineSymbol) :
    Clean e (rc.add (received s)) (S ++ [s]) := by
  refine ⟨?_, h.flush, h.blown⟩
  rw [Reception.add, h.symbols, List.map_append]
  rfl

@[simp] theorem length_frameSymbols (ws : List (BitVec 16)) :
    (frameSymbols e ws).length = ws.length + 2 := by
  rw [frameSymbols, List.length_append, length_wordSymbols]
  rfl

theorem data_frameSymbols (ws : List (BitVec 16)) :
    (frameSymbols e ws).map LineSymbol.data =
      ws ++ [(e.checksum ws).extractLsb' 0 16, (e.checksum ws).extractLsb' 16 16] := by
  rw [frameSymbols, List.map_append, map_data_wordSymbols]
  rfl

theorem extractLsb'_halves (c : BitVec 32) : c.extractLsb' 16 16 ++ c.extractLsb' 0 16 = c := by
  rw [BitVec.extractLsb'_append_extractLsb'_eq_extractLsb' (show 16 = 0 + 16 from rfl),
    BitVec.extractLsb'_eq_self]

/-- The words of the frame come first, and its CRC follows. -/
theorem Clean.words_crc {T : List LineSymbol} (h : Clean e rc (frameSymbols e ws ++ T))
    (hlen : ws.length = wibWords) : rc.words = ws ∧ rc.crc = e.checksum ws := by
  have hdata : rc.data = ws ++ (e.checksum ws).extractLsb' 0 16 ::
      (e.checksum ws).extractLsb' 16 16 :: T.map LineSymbol.data := by
    rw [h.data, List.map_append, data_frameSymbols, List.append_assoc]
    rfl
  have hlen : ws.length = 120 := hlen
  constructor
  · rw [Reception.words, hdata]
    exact List.take_left' hlen
  · rw [Reception.crc, hdata, List.getD_append_right _ _ _ _ (by omega),
      List.getD_append_right _ _ _ _ (by omega), hlen]
    exact extractLsb'_halves _

/-- The symbols of a frame after the first one are data. -/
theorem dataK_tail_frameSymbols (hne : ws ≠ []) :
    ∀ s ∈ (frameSymbols e ws).tail, s.dataK = 0b00 := by
  cases ws with
  | nil => exact absurd rfl hne
  | cons w ws =>
    intro s hs
    rw [frameSymbols, wordSymbols, List.cons_append, List.tail_cons] at hs
    rcases List.mem_append.mp hs with hs | hs
    · obtain ⟨w', -, rfl⟩ := List.mem_map.mp hs
      rfl
    · rcases List.mem_pair.mp hs with rfl | rfl <;> rfl

/-- A frame of the line has no errors. -/
theorem Clean.error (h : Clean e rc (frameSymbols e ws ++ [idle])) (hlen : ws.length = wibWords) :
    rc.error e = false := by
  have hlen' : ws.length = 120 := hlen
  have hne : ws ≠ [] := List.ne_nil_of_length_pos (by omega)
  have hfull : (frameSymbols e ws).length = 122 := by rw [length_frameSymbols, hlen']
  have hnonempty : frameSymbols e ws ≠ [] := List.ne_nil_of_length_pos (by omega)
  have htail : rc.symbols.tail.take 121 = (frameSymbols e ws).tail.map received := by
    rw [h.symbols, ← List.map_tail, List.tail_append_of_ne_nil hnonempty, List.map_append]
    exact List.take_left' (by rw [List.length_map, List.length_tail, hfull])
  have hrest : rc.symbols.drop 122 = [received idle] := by
    rw [h.symbols, List.map_append]
    exact List.drop_left' (by rw [List.length_map, hfull])
  have hlength : rc.lengthError = false := by
    rw [Reception.lengthError, htail, List.any_eq_false]
    intro s hs
    obtain ⟨s', hs', rfl⟩ := List.mem_map.mp hs
    simp [RxSymbol.isData, received, dataK_tail_frameSymbols hne s' hs']
  have hidle : rc.idleError = false := by
    rw [Reception.idleError, hrest]
    rfl
  have hcrc : rc.crcError e = false := by
    obtain ⟨hwords, hcrc⟩ := h.words_crc hlen
    rw [Reception.crcError, hcrc, hwords, bne_self_eq_false]
  rw [Reception.error, hlength, hidle, hcrc]
  rfl

/-! ## One clock cycle -/

theorem rx_tick (m : Monitor σ) (s : LineSymbol) (b : Bool) :
    (tick e m (linePorts b s)).r.rx = received s :=
  comb_rx (linePorts b s) m.r

theorem quiet_data (h : Receiving e m rc) (hn : rc.symbols.length < 122)
    (hdata : m.r.rx.isData = true) (p : Ports) : Quiet (tick e m p).r := by
  by_cases hmove : rc.symbols.length ≤ 119
  · have hr : (tick e m p).r = _ := comb_move (h.state.trans (phase_move hmove))
    exact ⟨by rw [hr]; simp [hdata], by rw [hr]; rfl, by rw [hr]; rfl⟩
  · have hcases : rc.symbols.length = 120 ∨ rc.symbols.length = 121 := by omega
    rcases hcases with hn | hn
    · have hr : (tick e m p).r = _ := comb_crcLo (h.state.trans (by rw [hn]; rfl))
      exact ⟨by rw [hr]; simp [hdata], by rw [hr]; rfl, by rw [hr]; rfl⟩
    · have hr : (tick e m p).r = _ := comb_crcHi (h.state.trans (by rw [hn]; rfl))
      exact ⟨by rw [hr]; simp [hdata], by rw [hr]; rfl, by rw [hr]; rfl⟩

theorem quiet_last (h : Receiving e m rc) (hn : rc.symbols.length = 122)
    (hidle : m.r.rx.isIdle = true) (hcrc : rc.crc = e.checksum rc.words) (p : Ports) :
    Quiet (tick e m p).r := by
  have hmatch : m.r.crc = e.crc m.crcState := by
    rw [h.crcHi (Nat.le_of_eq hn.symm), (h.crcOff (by omega)).2, hcrc]
    rfl
  have hr : (tick e m p).r = _ := comb_last (h.state.trans (by rw [hn]; rfl))
  exact ⟨by rw [hr]; simp [hidle], by rw [hr]; simp [hmatch], by rw [hr]; rfl⟩

/-- An idle symbol, or no valid one. -/
theorem InStep.stay (h : InStep e m fs .gap) (hrx : m.r.rx.isStart = false) (b : Bool)
    (s : LineSymbol) : InStep e (tick e m (linePorts b s)) fs .gap := by
  have hgap : Gap e m := h.phase
  have hr : (tick e m (linePorts b s)).r = _ := comb_idle hgap.state
  rw [if_neg (by simp [hrx, linePorts])] at hr
  obtain ⟨hgap', hended, -⟩ := hgap.tick_stay hr
  refine ⟨⟨by rw [hr]; rfl, by rw [hr]; rfl, ?_⟩, hended ▸ h.ended, hgap'⟩
  rw [hr, hrx]
  rfl

/-- The first symbol of a frame. -/
theorem InStep.start {w : BitVec 16} (h : InStep e m fs .gap)
    (hrx : m.r.rx = received ⟨w, 0b01⟩) (hw : w.extractLsb' 0 8 = K28_5_C) (b : Bool)
    (s : LineSymbol) : InStep e (tick e m (linePorts b s)) fs (.words [w]) := by
  have hgap : Gap e m := h.phase
  have hstart : m.r.rx.isStart = true := by
    rw [hrx]
    simp [RxSymbol.isStart, received, hw]
  have hr : (tick e m (linePorts b s)).r = _ := comb_idle hgap.state
  rw [if_pos ⟨rfl, .inl hstart⟩] at hr
  obtain ⟨hrc, hended, -⟩ := hgap.tick_start hr
  refine ⟨⟨by rw [hr]; rfl, by rw [hr]; rfl, by rw [hr]; rfl⟩, hended ▸ h.ended, _, hrc, ?_⟩
  exact ⟨by rw [hrx]; rfl, rfl, rfl⟩

/-- A data symbol of a frame. -/
theorem InStep.grow {k : BitVec 16} (h : InStep e m fs o) (o' : LineState) (ho : o ≠ .gap)
    (ho' : o' ≠ .gap) (hgrow : frameSoFar e o' = frameSoFar e o ++ [⟨k, 0b00⟩])
    (hlen : (frameSoFar e o).length < 122) (hrx : m.r.rx = received ⟨k, 0b00⟩) (b : Bool)
    (s : LineSymbol) : InStep e (tick e m (linePorts b s)) fs o' := by
  obtain ⟨rc, hrc, hclean⟩ : ∃ rc, Receiving e m rc ∧ Clean e rc (frameSoFar e o) := by
    have hphase := h.phase
    cases o with
    | gap => exact absurd rfl ho
    | words ws => exact hphase
    | crcLo ws => exact hphase
    | crcHi ws => exact hphase
  have hn : rc.symbols.length < 122 := by rw [hclean.length]; exact hlen
  obtain ⟨hrc', hended⟩ := hrc.next hn (linePorts b s)
  have hquiet := quiet_data hrc hn (by rw [hrx]; rfl) (linePorts b s)
  refine ⟨hquiet, hended ▸ h.ended, ?_⟩
  have hclean' : Clean e (rc.add m.r.rx) (frameSoFar e o') := by
    rw [hgrow, hrx]
    exact hclean.add _
  cases o' with
  | gap => exact absurd rfl ho'
  | words ws => exact ⟨_, hrc', hclean'⟩
  | crcLo ws => exact ⟨_, hrc', hclean'⟩
  | crcHi ws => exact ⟨_, hrc', hclean'⟩

/-- The idle symbol after a frame. -/
theorem InStep.finish (h : InStep e m fs (.crcHi ws)) (hlen : ws.length = wibWords)
    (hrx : m.r.rx = received idle) (b : Bool) (s : LineSymbol) :
    InStep e (tick e m (linePorts b s)) (fs ++ [ws]) .gap := by
  obtain ⟨rc, hrc, hclean⟩ := h.phase
  have hclean : Clean e rc (frameSymbols e ws) := hclean
  have hn : rc.symbols.length = 122 := by
    rw [hclean.length, length_frameSymbols, hlen]
    rfl
  obtain ⟨hwords, hcrc⟩ := Clean.words_crc (T := []) (by rwa [List.append_nil]) hlen
  obtain ⟨hgap, hended, -⟩ := hrc.step_last hn (linePorts b s)
  refine ⟨quiet_last hrc hn (by rw [hrx]; rfl) (by rw [hcrc, hwords]) _, ?_, hgap⟩
  rw [hended, hrx]
  exact List.rel_append h.ended (.cons (hclean.add idle) .nil)

/-! ## Runs -/

theorem linePortsOf_append_singleton (runEnable : Nat → Bool) (S : List LineSymbol)
    (s : LineSymbol) : linePortsOf runEnable (S ++ [s]) =
      linePortsOf runEnable S ++ [linePorts (runEnable S.length) s] := by
  rw [linePortsOf, List.mapIdx_concat]
  rfl

theorem run_append_singleton (s₀ : σ) (ps : List Ports) (p : Ports) :
    run e s₀ (ps ++ [p]) = tick e (run e s₀ ps) p := run_append s₀ ps [p]

theorem rx_run (s₀ : σ) (ps : List Ports) (b : Bool) (s : LineSymbol) :
    (run e s₀ (ps ++ [linePorts b s])).r.rx = received s := by
  rw [run_append_singleton, rx_tick]

/-- Symbols that start no frame leave the receiver where it is. -/
theorem inStep_quiet (s₀ : σ) (runEnable : Nat → Bool) {J : List LineSymbol}
    (hJ : ∀ s ∈ J, s.dataK ≠ 0b01) (s : LineSymbol) (b : Bool) :
    InStep e (run e s₀ (linePortsOf runEnable J ++ [linePorts b s])) [] .gap := by
  induction J using List.reverseRecOn generalizing s b with
  | nil =>
    have hinit : InStep e (Monitor.init s₀) [] .gap :=
      ⟨⟨rfl, rfl, rfl⟩, .nil, rfl, rfl, rfl, .inl rfl⟩
    exact hinit.stay rfl b s
  | append_singleton J s' ih =>
    rw [linePortsOf_append_singleton, run_append_singleton]
    have hs' : s'.dataK ≠ 0b01 := hJ s' (by simp)
    apply (ih (fun s hs => hJ s (List.mem_append_left _ hs)) s' _).stay
    rw [rx_run]
    simp only [RxSymbol.isStart, received, Bool.true_and, Bool.and_eq_false_iff, beq_eq_false_iff_ne]
    exact .inl hs'

/-- After such symbols the receiver is in step with what it has taken out of its receive
registers. -/
theorem inStep_run_after (s₀ : σ) (runEnable : Nat → Bool) {J : List LineSymbol}
    (hJ : ∀ s ∈ J, s.dataK ≠ 0b01) (h : OnLine e S fs o) (s : LineSymbol) (b : Bool) :
    InStep e (run e s₀ (linePortsOf runEnable (J ++ S) ++ [linePorts b s])) fs o := by
  induction h generalizing s b with
  | nil =>
    rw [List.append_nil]
    exact inStep_quiet s₀ runEnable hJ s b
  | idle h ih =>
    rw [← List.append_assoc, linePortsOf_append_singleton, run_append_singleton]
    exact (ih idle _).stay (by rw [rx_run]; rfl) b s
  | first w h hw ih =>
    rw [← List.append_assoc, linePortsOf_append_singleton, run_append_singleton]
    exact (ih ⟨w, 0b01⟩ _).start (rx_run _ _ _ _) hw b s
  | @word S fs ws w h hlen ih =>
    rw [← List.append_assoc, linePortsOf_append_singleton, run_append_singleton]
    have hne : ws ≠ [] := List.ne_nil_of_length_pos h.sized.1
    have hlt : (frameSoFar e (.words ws)).length < 122 := by
      rw [frameSoFar, length_wordSymbols]
      exact Nat.lt_trans hlen (by decide)
    exact (ih ⟨w, 0b00⟩ _).grow (.words (ws ++ [w])) (fun h => LineState.noConfusion h)
      (fun h => LineState.noConfusion h) (wordSymbols_append hne [w]) hlt (rx_run _ _ _ _) b s
  | @crcLo S fs ws h hlen ih =>
    rw [← List.append_assoc, linePortsOf_append_singleton, run_append_singleton]
    have hlt : (frameSoFar e (.words ws)).length < 122 := by
      rw [frameSoFar, length_wordSymbols, hlen]
      decide
    exact (ih ⟨_, 0b00⟩ _).grow (.crcLo ws) (fun h => LineState.noConfusion h)
      (fun h => LineState.noConfusion h) rfl hlt (rx_run _ _ _ _) b s
  | @crcHi S fs ws h ih =>
    rw [← List.append_assoc, linePortsOf_append_singleton, run_append_singleton]
    have hlen : ws.length = wibWords := h.sized
    have hlt : (frameSoFar e (.crcLo ws)).length < 122 := by
      rw [frameSoFar, List.length_append, length_wordSymbols, hlen, wibWords,
        List.length_singleton]
      decide
    have hgrow : frameSoFar e (.crcHi ws) =
        frameSoFar e (.crcLo ws) ++ [⟨(e.checksum ws).extractLsb' 16 16, 0b00⟩] := by
      rw [frameSoFar, frameSoFar, frameSymbols, List.append_assoc]
      rfl
    exact (ih ⟨_, 0b00⟩ _).grow (.crcHi ws) (fun h => LineState.noConfusion h)
      (fun h => LineState.noConfusion h) hgrow hlt (rx_run _ _ _ _) b s
  | last h ih =>
    rw [← List.append_assoc, linePortsOf_append_singleton, run_append_singleton]
    exact (ih idle _).finish h.sized (rx_run _ _ _ _) b s

/-- The receiver is in step with what it has taken out of its receive registers. -/
theorem inStep_run (s₀ : σ) (runEnable : Nat → Bool) (h : OnLine e S fs o) (s : LineSymbol)
    (b : Bool) : InStep e (run e s₀ (linePortsOf runEnable S ++ [linePorts b s])) fs o :=
  inStep_run_after s₀ runEnable (fun _ hs => absurd hs List.not_mem_nil) h s b

/-! ## The frames that come out -/

/-- The frame `f` carries the words `ws` of a frame on the line, without errors. -/
structure Delivered (ws : List (BitVec 16)) (f : List Beat) : Prop where
  length : f.length = wibWords
  data : f.map AxiWord.tData = ws
  sof : ∀ i b, f[i]? = some b → (b.tUser.sof = true ↔ i = 0)
  tLast : ∀ i b, f[i]? = some b → (b.tLast = true ↔ i = wibWords - 1)
  clean : ∀ b ∈ f, b.tUser.eofe = false ∧ b.tUser.flush = false

theorem Clean.delivered (h : Clean e rc (frameSymbols e ws ++ [idle]))
    (hlen : ws.length = wibWords) : Delivered ws (rc.frameBeats e) := by
  have h123 : rc.symbols.length = 123 := by
    rw [h.length, List.length_append, length_frameSymbols, hlen]
    rfl
  obtain ⟨hlength, hdata, hsof, hlast, -, -⟩ := Reception.carried (e := e) h123
  refine ⟨hlength, hdata.trans (h.words_crc hlen).1, hsof, hlast, ?_⟩
  intro b hb
  rw [Reception.frameBeats, h.error hlen, h.flush] at hb
  rcases List.mem_append.mp hb with hb | hb
  · exact Reception.tUser_openBeats b hb
  · rw [List.mem_singleton.mp hb]
    exact ⟨rfl, rfl⟩

theorem delivered_ended {rcs : List Reception}
    (h : List.Forall₂ (fun ws rc => Clean e rc (frameSymbols e ws ++ [idle])) fs rcs)
    (hlen : ∀ ws ∈ fs, ws.length = wibWords) :
    List.Forall₂ Delivered fs ((rcs.filter fun rc => !rc.blown).map (Reception.frameBeats e)) := by
  induction h with
  | nil => exact .nil
  | cons hclean _ ih =>
    rw [List.filter_cons_of_pos (by rw [hclean.blown]; rfl), List.map_cons]
    exact .cons (hclean.delivered (hlen _ List.mem_cons_self))
      (ih fun ws hws => hlen ws (List.mem_cons_of_mem _ hws))

/-- The emulator feeds the receiver: in every run, whenever the emulator is enabled and whatever
it sends, the frames on the line come out one by one and there is no error. -/
theorem link_delivers (e : CrcEngine σ) (s s₀ : σ) (ps : List ProtoDuneDpmEmuTxFramer.Ports)
    (p : ProtoDuneDpmEmuTxFramer.Ports) (runEnable : Nat → Bool) :
    let line := ProtoDuneDpmEmuTxFramer.sent e (.init s)
    let m := run e s₀ (linePortsOf runEnable (line (ps ++ [p])))
    Quiet m.r ∧ ∃ fs o, OnLine e (line ps) fs o ∧
      List.Forall₂ Delivered fs (frames AxiWord.tLast m.out).complete := by
  intro line m
  obtain ⟨fs, o, hline⟩ := ProtoDuneDpmEmuTxFramer.sent_onLine (e := e) s ps
  have hstep : InStep e m fs o := by
    have hrun := inStep_run s₀ runEnable hline
      (ps.foldl (ProtoDuneDpmEmuTxFramer.tick e) (.init s)).r.txOut
      (runEnable (ProtoDuneDpmEmuTxFramer.sent e (.init s) ps).length)
    rw [← linePortsOf_append_singleton] at hrun
    change InStep e (run e s₀ (linePortsOf runEnable
      (ProtoDuneDpmEmuTxFramer.sent e (.init s) (ps ++ [p])))) fs o
    rw [ProtoDuneDpmEmuTxFramer.sent_append]
    exact hrun
  refine ⟨hstep.quiet, fs, o, hline, ?_⟩
  rw [(receives_run e s₀ _).frames_out]
  exact delivered_ended hstep.ended hline.length_of_mem

end ProtoDune.Firmware.WibLink
