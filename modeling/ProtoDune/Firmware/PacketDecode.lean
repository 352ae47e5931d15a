import ProtoDune.Firmware.CompressedPacket
import ProtoDune.Firmware.HeaderDecode

/-!
# `DuneDataCompressionCore_test.cpp`: decoding a compressed packet

The host copies a packet to a buffer, takes the table of contents from its end and the header
record from its start, and decodes the channels one behind the other. It gives up where a channel
does not start at the offset that the table has.

Main results:

* `decodeChannels_spec` — the channels are decoded in their order.
* `decode_compressedWords` — which packets the host decodes, and to what.
-/

namespace ProtoDune.Firmware

open BitString Stored

/-! ## The decoder -/

/-- The words of `buf[(12*1024*128)/64 + 0x800]`. -/
def hostBufSize : Nat := 12 * 1024 * 128 / 64 + 0x800

/-- What the local arrays of `chan_decode` hold before, and what the count of the leading zeros
of 0 is. -/
structure ChanLocals where
  undef : Nat
  bins : Nat → Nat
  table : Nat → Nat

/-- The buffer, as the words of an array. -/
def hostArray (buf : Nat → BitVec 64) : WordArray where
  size := hostBufSize
  word i := (buf i).toNat
  word_lt i := (buf i).isLt

/-- The loop over the channels, with `k` iterations to go: `exit (-1)` is the error with the number
of the channel. The position is compared as an unsigned number. -/
def decodeChannels (locals : Nat → ChanLocals) (buf : Nat → BitVec 64) (toc : Toc) :
    Nat → Nat → Int → Option (Except Nat (List ChanDecoded))
  | 0, _, _ => some (.ok [])
  | k + 1, ichan, position =>
      if (position % 2 ^ 32).toNat ≠ toc.offsets ichan then some (.error ichan)
      else if position < 0 then none
      else do
        let r ← chanDecode (locals ichan).undef (locals ichan).bins (locals ichan).table
          (hostArray buf) position.toNat
        let rest ← decodeChannels locals buf toc k (ichan + 1) r.totbits
        return rest.map (r :: ·)

/-- What `decode` finds in a packet. -/
structure PacketDecoded where
  toc : Toc
  headers : DecodedHeaders
  channels : List ChanDecoded

/-- `decode`; the words beyond those of the stream are what the buffer holds before. A longer
stream does not fit the buffer. -/
def decode (locals : Nat → ChanLocals) (stale : Nat → BitVec 64) (mAxis : List AxisOut) :
    Option (Except Nat PacketDecoded) :=
  let words := mAxis.map AxisOut.data
  let nbuf := words.length
  if nbuf ≤ hostBufSize then do
    let buf := withRest words stale
    let toc := tocDecode buf nbuf
    let headers := headerDecode buf
    let position : Nat := headers.recLen <<< 6
    let channels ← decodeChannels locals buf toc toc.nchannels 0 position
    return channels.map fun channels => ⟨toc, headers, channels⟩
  else none

/-! ## The words of the buffer -/

/-- Words in a buffer are their bits in memory. -/
theorem holds_of_storedAt {buf : Nat → BitVec 64} {p : Nat} {ws : List (BitVec 64)}
    (h : StoredAt buf p ws) : Holds (fun i => (buf i).toNat) (64 * p) (wordBits ws) := by
  induction ws generalizing p with
  | nil => exact fun i hi => absurd hi (Nat.not_lt_zero i)
  | cons w ws ih =>
    obtain ⟨hw, hws⟩ := StoredAt.append.mp (show StoredAt buf p ([w] ++ ws) from h)
    have hrest := ih hws
    have hword : buf p = w := StoredAt.singleton.mp hw
    have hnext : 64 * (p + [w].length) = 64 * p + (toBits 64 w.toNat).length := by
      rw [length_toBits, List.length_singleton]
      omega
    rw [hnext] at hrest
    refine Holds.append.mpr ⟨?_, hrest⟩
    rw [holds_iff, length_toBits, bitsAt_word _ (by omega), Nat.mul_mod_right,
      Nat.mul_div_cancel_left _ (Nat.zero_lt_succ 63), hword, Nat.zero_add, Nat.sub_self,
      Nat.shiftRight_zero]

theorem length_packedBits_succ (bits : Nat → List Bool) (n : Nat) :
    (packedBits bits (n + 1)).length = (packedBits bits n).length + (bits n).length := by
  rw [packedBits, List.length_append]

/-- Every channel is where its offset says. -/
theorem holds_packedBits {mem : Memory} {start : Nat} {bits : Nat → List Bool} {n : Nat}
    (h : Holds mem start (packedBits bits n)) {c : Nat} (hc : c < n) :
    Holds mem (start + (packedBits bits c).length) (bits c) := by
  induction n with
  | zero => exact absurd hc (Nat.not_lt_zero c)
  | succ n ih =>
    obtain ⟨hbefore, hlast⟩ := Holds.append.mp h
    rcases Nat.lt_succ_iff_lt_or_eq.mp hc with hlt | rfl
    · exact ih hbefore hlt
    · exact hlast

theorem length_packedBits_mono (bits : Nat → List Bool) {a b : Nat} (h : a ≤ b) :
    (packedBits bits a).length ≤ (packedBits bits b).length := by
  induction b with
  | zero =>
    obtain rfl : a = 0 := Nat.le_zero.mp h
    exact Nat.le_refl _
  | succ b ih =>
    rcases Nat.le_succ_iff.mp h with hle | rfl
    · exact Nat.le_trans (ih hle) (by rw [length_packedBits_succ]; exact Nat.le_add_right _ _)
    · exact Nat.le_refl _

/-! ## The channels -/

/-- Where a channel starts, behind `start` bits. -/
def chanStart (start : Nat) (w : Nat → Waveform) (c : Nat) : Nat :=
  start + (packedBits (fun c => (w c).channelBits) c).length

section Channels

variable {buf : Nat → BitVec 64} {toc : Toc} {start : Nat} {w : Nat → Waveform} {n c : Nat}

theorem chanStart_succ (start : Nat) (w : Nat → Waveform) (c : Nat) :
    chanStart start w (c + 1) = chanStart start w c + (w c).channelBits.length := by
  rw [chanStart, length_packedBits_succ, chanStart, Nat.add_assoc]

/-- The host can read every channel of the packet, and the table has the offsets. -/
structure Readable (buf : Nat → BitVec 64) (toc : Toc) (start : Nat) (w : Nat → Waveform)
    (n : Nat) : Prop where
  holds : Holds (fun i => (buf i).toNat) start (packedBits (fun c => (w c).channelBits) n)
  inside : chanStart start w n / 64 < hostBufSize
  offsets : ∀ c < n, toc.offsets c = chanStart start w c

theorem Readable.reads (h : Readable buf toc start w n) (hc : c < n) :
    Reads (hostArray buf) ⟨(hostArray buf).word (chanStart start w c / 64), chanStart start w c⟩
      (chanStart start w c) (w c).channelBits := by
  have hinside := h.inside
  have hmono := length_packedBits_mono (fun c => (w c).channelBits) (show c + 1 ≤ n from hc)
  have hsucc := chanStart_succ start w c
  have hle : chanStart start w (c + 1) ≤ chanStart start w n := Nat.add_le_add_left hmono start
  have hsize : hostBufSize = 26624 := rfl
  refine ⟨rfl, holds_packedBits h.holds hc, ?_, ?_⟩
  · show _ < hostBufSize
    omega
  · omega

/-- The position agrees with the table: the channel is decoded. -/
theorem Readable.decodeChannels_eq (h : Readable buf toc start w n) (locals : Nat → ChanLocals)
    (k : Nat) (hc : c < n) :
    decodeChannels locals buf toc (k + 1) c (chanStart start w c : Nat) =
      (chanDecode (locals c).undef (locals c).bins (locals c).table (hostArray buf)
        (chanStart start w c)).bind fun r =>
          (decodeChannels locals buf toc k (c + 1) r.totbits).bind fun rest =>
            some (rest.map (r :: ·)) := by
  have hsmall := (h.reads hc).small
  have hposition : ((chanStart start w c : Int) % 2 ^ 32).toNat = toc.offsets c := by
    rw [h.offsets c hc]
    omega
  rw [decodeChannels, if_neg (not_not.mpr hposition), if_neg (by omega), Int.toNat_natCast]
  rfl

/-- A channel that can be read is decoded, and the next one starts at its end. -/
theorem Readable.chanDecode_next (h : Readable buf toc start w n) (locals : ChanLocals)
    (hc : c < n) (hovr : (w c).OverflowsReadable) :
    ∃ r, chanDecode locals.undef locals.bins locals.table (hostArray buf) (chanStart start w c) =
        some r ∧
      r.samples = (w c).restored ∧ r.totbits = (chanStart start w (c + 1) : Nat) := by
  obtain ⟨r, hrun, hsamples, htotal⟩ := (w c).chanDecode_total hovr locals.undef locals.bins
    locals.table (h.reads hc)
  refine ⟨r, hrun, hsamples, ?_⟩
  rw [htotal, chanStart_succ]
  push_cast
  rfl

/-- **The channels** are decoded in their order, if each is readable, and each is found at the end
of the one before. -/
theorem decodeChannels_spec (locals : Nat → ChanLocals) (h : Readable buf toc start w n) (k : Nat)
    (hck : c + k = n) (hovr : ∀ i, c ≤ i → i < n → (w i).OverflowsReadable) :
    ∃ rs, decodeChannels locals buf toc k c (chanStart start w c : Nat) = some (.ok rs) ∧
      rs.map ChanDecoded.samples = (List.range' c k).map fun i => (w i).restored := by
  induction k generalizing c with
  | zero => exact ⟨[], rfl, rfl⟩
  | succ k ih =>
    have hc : c < n := by omega
    obtain ⟨r, hrun, hsamples, htotal⟩ :=
      h.chanDecode_next (locals c) hc (hovr c (Nat.le_refl c) hc)
    obtain ⟨rs, hrest, hmap⟩ := ih (c := c + 1) (by omega) fun i hi => hovr i (by omega)
    refine ⟨r :: rs, ?_, ?_⟩
    · rw [h.decodeChannels_eq locals k hc, hrun, Option.bind_some, htotal, hrest]
      rfl
    · rw [List.map_cons, hmap, hsamples, List.range'_succ, List.map_cons]

/-- A channel with overflows that have no bits is undefined. -/
theorem decodeChannels_eq_none (locals : Nat → ChanLocals) (h : Readable buf toc start w n)
    (k : Nat) (hck : c + k = n) (hovr : ∃ i, c ≤ i ∧ i < n ∧ ¬ (w i).OverflowsReadable) :
    decodeChannels locals buf toc k c (chanStart start w c : Nat) = none := by
  induction k generalizing c with
  | zero =>
    obtain ⟨i, hle, hlt, -⟩ := hovr
    omega
  | succ k ih =>
    have hc : c < n := by omega
    rw [h.decodeChannels_eq locals k hc]
    by_cases hread : (w c).OverflowsReadable
    · obtain ⟨r, hrun, -, htotal⟩ := h.chanDecode_next (locals c) hc hread
      have hlater : ∃ i, c + 1 ≤ i ∧ i < n ∧ ¬ (w i).OverflowsReadable := by
        obtain ⟨i, hle, hlt, hi⟩ := hovr
        have hne : i ≠ c := by
          rintro rfl
          exact hi hread
        exact ⟨i, by omega, hlt, hi⟩
      rw [hrun, Option.bind_some, htotal, ih (by omega) hlater]
      rfl
    · rw [(w c).chanDecode_eq_none hread _ _ _ (h.reads hc)]
      rfl

end Channels

/-! ## The packet -/

theorem map_data_compressedWords (header ws : List (BitVec 64)) (offsets : Nat → Nat)
    (status : BitVec 32) :
    (compressedWords header ws offsets status).map AxisOut.data =
      header ++ (ws ++ (tocWords NCHANS NSAMPLES offsets ++
        [statusId .COMPRESSED status ((header.length + ws.length + 66) * 8 + 16), trailer])) := by
  rw [compressedWords, List.map_append, List.map_append, map_data_sofFirst, List.map_map]
  simp only [List.append_assoc]
  congr 1
  rw [← List.append_assoc]
  congr 1
  exact List.map_id _

/-- What a packet is decoded to: the counts, the offsets, the status, the headers of the first
frame and the samples of the channels. -/
structure DecodesTo (pktCtx : PacketContext) (start : Nat) (w : Nat → Waveform)
    (d : PacketDecoded) : Prop where
  nchannels : d.toc.nchannels = NCHANS
  nsamples : d.toc.nsamples = NSAMPLES
  offsets : ∀ c ≤ NCHANS, d.toc.offsets c = chanStart start w c
  status : d.headers.status = pktCtx.status
  headers : d.headers.headers = ![pktCtx.hdrsBuf 0, pktCtx.hdrsBuf 1, pktCtx.hdrsBuf 3,
    pktCtx.hdrsBuf 4, pktCtx.hdrsBuf 5, pktCtx.hdrsBuf 6]
  channels : d.channels.map ChanDecoded.samples = (List.range NCHANS).map fun c => (w c).restored

section Packet

variable {pktCtx : PacketContext} {excsBuf : Nat → BitVec 64} {ws : List (BitVec 64)}
  {offsets : Nat → Nat} {w : Nat → Waveform}

theorem length_headerWords (pktCtx : PacketContext) (excsBuf : Nat → BitVec 64) :
    (headerWords pktCtx excsBuf).length = (pktCtx.cedx + 3) / 4 + pktCtx.chdx + 1 := by
  rw [headerWords, List.length_cons, List.length_append, List.length_map, List.length_map,
    List.length_range, List.length_range]
  omega

/-- The header record is read from the start of the buffer. -/
theorem headerDecode_headerWords {buf : Nat → BitVec 64} (hchdx : 7 ≤ pktCtx.chdx)
    (hcedx : pktCtx.cedx < 2 ^ 8) (hlen : (headerWords pktCtx excsBuf).length < 2 ^ 16)
    (h : StoredAt buf 0 (headerWords pktCtx excsBuf)) :
    (headerDecode buf).recLen = (headerWords pktCtx excsBuf).length ∧
      (headerDecode buf).status = pktCtx.status ∧
      (headerDecode buf).headers = ![pktCtx.hdrsBuf 0, pktCtx.hdrsBuf 1, pktCtx.hdrsBuf 3,
        pktCtx.hdrsBuf 4, pktCtx.hdrsBuf 5, pktCtx.hdrsBuf 6] := by
  have hfirst : buf 0 = recHeader pktCtx.status pktCtx.chdx pktCtx.cedx := h 0 _ rfl
  have hhdr {i : Nat} (hi : i < 7) : buf (i + 1) = pktCtx.hdrsBuf i := by
    have hat : (headerWords pktCtx excsBuf)[i + 1]? = some (pktCtx.hdrsBuf i) := by
      rw [headerWords, List.getElem?_cons_succ, List.getElem?_append_left
        (by rw [List.length_map, List.length_range]; omega), List.getElem?_map,
        List.getElem?_range (by omega)]
      rfl
    have hbuf := h (i + 1) _ hat
    rwa [Nat.zero_add] at hbuf
  rw [length_headerWords] at hlen ⊢
  rw [headerDecode_eq hfirst hcedx hlen]
  refine ⟨rfl, rfl, ?_⟩
  dsimp only
  rw [hhdr (show 0 < 7 by omega), hhdr (show 1 < 7 by omega), hhdr (show 3 < 7 by omega),
    hhdr (show 4 < 7 by omega), hhdr (show 5 < 7 by omega), hhdr (show 6 < 7 by omega)]

/-- **The host** decodes a packet that fits its buffer exactly where the overflows of all channels
have bits: no channel is out of place. -/
theorem decode_compressedWords (locals : Nat → ChanLocals) (stale : Nat → BitVec 64)
    (hchdx : 7 ≤ pktCtx.chdx) (hcedx : pktCtx.cedx < 2 ^ 8)
    (hlen : (headerWords pktCtx excsBuf).length < 2 ^ 16)
    (hspells : Spells (fun c => (w c).channelBits) (headerWords pktCtx excsBuf).length ws offsets)
    (hfits : (compressedWords (headerWords pktCtx excsBuf) ws offsets pktCtx.status).length ≤
      hostBufSize) :
    ((∀ c < NCHANS, (w c).OverflowsReadable) →
      ∃ d, decode locals stale
          (compressedWords (headerWords pktCtx excsBuf) ws offsets pktCtx.status) =
          some (.ok d) ∧
        DecodesTo pktCtx (64 * (headerWords pktCtx excsBuf).length) w d) ∧
    ((¬ ∀ c < NCHANS, (w c).OverflowsReadable) →
      decode locals stale
        (compressedWords (headerWords pktCtx excsBuf) ws offsets pktCtx.status) = none) := by
  have hsize : hostBufSize = 26624 := rfl
  have hstored := storedAt_withRest ((compressedWords (headerWords pktCtx excsBuf) ws offsets
    pktCtx.status).map AxisOut.data) stale
  have hnbuf : ((compressedWords (headerWords pktCtx excsBuf) ws offsets
      pktCtx.status).map AxisOut.data).length =
      (headerWords pktCtx excsBuf).length + ws.length + (NCHANS / 2 + 2) + 2 := by
    rw [List.length_map, length_compressedWords]
    rfl
  have hfits' := hfits
  rw [length_compressedWords] at hfits'
  unfold decode
  dsimp only
  rw [hnbuf, if_pos (by rw [← hnbuf, List.length_map]; exact hfits)]
  generalize withRest ((compressedWords (headerWords pktCtx excsBuf) ws offsets
    pktCtx.status).map AxisOut.data) stale = buf at hstored ⊢
  rw [map_data_compressedWords] at hstored
  obtain ⟨hheader, hrest⟩ := StoredAt.append.mp hstored
  obtain ⟨hws, hrest⟩ := StoredAt.append.mp hrest
  obtain ⟨htoc, -⟩ := StoredAt.append.mp hrest
  rw [Nat.zero_add] at hws htoc
  -- the channels, in memory
  have hmem := holds_of_storedAt hws
  rw [hspells.spelled] at hmem
  have hholds := (Holds.append.mp hmem).1
  have hwords := congrArg List.length hspells.spelled
  rw [length_wordBits, List.length_append, List.length_replicate] at hwords
  have hoffsets : ∀ i ≤ NCHANS + 1, offsets i < 2 ^ 32 := by
    intro i hi
    rcases Nat.le_succ_iff.mp hi with hle | rfl
    · have hmono := length_packedBits_mono (fun c => (w c).channelBits) hle
      rw [hspells.starts i hle]
      generalize (packedBits (fun c => (w c).channelBits) NCHANS).length = total at hwords hmono
      omega
    · rw [hspells.last]
      exact Nat.two_pow_pos 32
  have hchanCount : 1 ≤ NCHANS ∧ NCHANS ≤ 2 ^ 12 := ⟨by decide, by decide⟩
  have hsampleCount : 1 ≤ NSAMPLES ∧ NSAMPLES ≤ 2 ^ 12 := ⟨by decide, by decide⟩
  obtain ⟨hchans, hsamples, -, htable⟩ := tocDecode_spec hchanCount hsampleCount hoffsets htoc
  obtain ⟨hrecLen, hstatus, hhdrs⟩ := headerDecode_headerWords hchdx hcedx hlen hheader
  have htoc' : ∀ c ≤ NCHANS, (tocDecode buf ((headerWords pktCtx excsBuf).length + ws.length +
      (NCHANS / 2 + 2) + 2)).offsets c = chanStart (64 * (headerWords pktCtx excsBuf).length) w c :=
    fun c hc => (htable c hc).trans (hspells.starts c hc)
  have hreadable : Readable buf (tocDecode buf ((headerWords pktCtx excsBuf).length + ws.length +
      (NCHANS / 2 + 2) + 2)) (64 * (headerWords pktCtx excsBuf).length) w NCHANS := by
    refine ⟨hholds, ?_, fun c hc => htoc' c (Nat.le_of_lt hc)⟩
    unfold chanStart
    generalize (packedBits (fun c => (w c).channelBits) NCHANS).length = total at hwords ⊢
    omega
  have hstart : (headerDecode buf).recLen <<< 6 =
      chanStart (64 * (headerWords pktCtx excsBuf).length) w 0 := by
    rw [hrecLen, Nat.shiftLeft_eq, chanStart, packedBits, List.length_nil]
    omega
  rw [hchans, hstart]
  constructor
  · intro hovr
    obtain ⟨rs, hrun, hmap⟩ := decodeChannels_spec locals hreadable NCHANS
      (Nat.zero_add NCHANS) fun i _ hi => hovr i hi
    refine ⟨_, by rw [hrun]; rfl, hchans, hsamples, htoc', hstatus, hhdrs, ?_⟩
    rw [List.range_eq_range']
    exact hmap
  · intro hovr
    rw [decodeChannels_eq_none locals hreadable NCHANS (Nat.zero_add NCHANS)]
    · rfl
    · push Not at hovr
      obtain ⟨c, hc, hnot⟩ := hovr
      exact ⟨c, Nat.zero_le c, hc, hnot⟩

end Packet

end ProtoDune.Firmware
