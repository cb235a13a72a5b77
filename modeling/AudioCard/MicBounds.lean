import AudioCard.Speaker

/-! No byte of the microphone path falls outside its half of `write_buffer`, as long as the
    frequency set by the host asks for packets that fit.

    `usbd_audio_set_sampling_freq` accepts any frequency, and `write_samples` stores
    `get_inp_packet_size()` bytes whatever that is, while the halves have the size of the packets of
    the highest advertised frequency. `FreqFits` is the exact condition. Past the end of
    `write_buffer` the linker has put other arrays, which the model keeps apart: what is said of
    their bytes elsewhere is said of runs in which packets fit (`PacketsFit`). -/

namespace AudioCard
open Segment Flags Run

/-- The packets of frequency `f` fit half of `write_buffer`: `6 * f` modulo `2^32`, in thousandths
    of a byte per packet, is within the 576 bytes of the full-speed half; the high-speed half has
    288 bytes and four packets in a millisecond. -/
def FreqFits (b : Build) (f : UInt32) : Prop :=
  match b with
  | .fs => 6 * f.toNat % UInt32.size < 577 * 1000
  | .hs => 6 * f.toNat % UInt32.size < 289 * 4000

instance (b : Build) (f : UInt32) : Decidable (FreqFits b f) :=
  match b with
  | .fs => inferInstanceAs (Decidable (6 * f.toNat % UInt32.size < 577 * 1000))
  | .hs => inferInstanceAs (Decidable (6 * f.toNat % UInt32.size < 289 * 4000))

/-- `FreqFits` is what `get_inp_packet_size() <= write_bf.halfsize` says about the frequency. -/
theorem freqFits_iff (b : Build) (f : UInt32) :
    FreqFits b f ↔ (getInpPacketSize b f).toNat ≤ (audioInpPacketSz b).toNat := by
  have h6 : (f * audioInpFrameSizeByte * audioInpChannelNum).toNat = 6 * f.toNat % UInt32.size := by
    rw [audioInpFrameSizeByte, audioInpChannelNum, UInt32.toNat_mul, UInt32.toNat_mul, UInt32.size]
    simp only [UInt32.reduceToNat]
    omega
  cases b with
  | fs =>
    have hsize : (audioInpPacketSz .fs).toNat = 576 := by decide
    simp only [FreqFits, getInpPacketSize, UInt32.toNat_div, h6, hsize, UInt32.reduceToNat]
    omega
  | hs =>
    have hsize : (audioInpPacketSz .hs).toNat = 288 := by decide
    have hpkt : (packetsPerMs .hs).toNat = 4 := by decide
    simp only [FreqFits, getInpPacketSize, UInt32.toNat_div, h6, hsize, hpkt, UInt32.reduceToNat]
    omega

/-! ### The stores of a pass -/

theorem readLoop_succ (rb : RingBuf) (mem : Bytes) (off n : ℕ) :
    readLoop rb mem off (n + 1) = readBody rb.buff rb.size (readLoop rb mem off n) :=
  Function.iterate_succ_apply' _ n _

/-- The copy loop of `ring_buf_read` changes only the cells it stores to. -/
theorem exists_dst_of_changed {rb : RingBuf} {mem : Bytes} {off n i : ℕ}
    (h : (readLoop rb mem off n).mem i ≠ mem i) : ∃ k < n, (readLoop rb mem off k).dst = i := by
  induction n with
  | zero => exact absurd rfl h
  | succ n ih =>
    rw [readLoop_succ] at h
    simp only [readBody, Function.update_apply] at h
    split_ifs at h with hi
    · exact ⟨n, Nat.lt_succ_self n, hi.symm⟩
    · rcases ih h with ⟨k, hk, hdst⟩
      exact ⟨k, Nat.lt_succ_of_lt hk, hdst⟩

theorem mem_readStores_of_changed {rb : RingBuf} {mem : Bytes} {off : ℕ} {len : UInt32} {i : ℕ}
    (h : (ringBufRead rb mem off len).2.1 i ≠ mem i) : i ∈ readStores rb mem off len := by
  simp only [ringBufRead] at h
  rw [readStores]
  split_ifs at h ⊢
  · exact absurd rfl h
  · rcases exists_dst_of_changed h with ⟨k, hk, hdst⟩
    exact List.mem_map.mpr ⟨k, List.mem_range.mpr hk, hdst⟩

theorem mem_memsetStores_of_changed {mem : Bytes} {off : ℕ} {v : UInt8} {n i : ℕ}
    (h : memset mem off v n i ≠ mem i) : i ∈ memsetStores off n := by
  rcases (overlay_eq_or mem off (List.replicate n v) i).resolve_left h with ⟨hlo, hhi⟩
  rw [List.length_replicate] at hhi
  exact List.mem_map.mpr ⟨i - off, List.mem_range.mpr (by omega), by omega⟩

/-- Every cell of memory that a pass over the microphone changes is in `write_bf`'s array, and is
    one of the stores of the packet it builds. -/
theorem mem_stores_of_changed {b : Build} {d : Device} {r : Region} {i : ℕ}
    (h : (writePass b d).1.mem r i ≠ d.mem r i) : r = d.writeBf.buffer ∧
      ∃ off carried data stores, .fill off carried data stores ∈ (writePass b d).2 ∧
        i ∈ stores := by
  by_cases hopen : isSet d.openFlag EpFlag.tx.mask = true
  swap
  · rw [writePass, if_neg hopen] at h
    exact absurd rfl h
  rw [writePass, if_pos hopen] at h ⊢
  by_cases hbusy : isSet d.epBusyFlag EpFlag.tx.mask = true
  · rw [writeSamples, if_neg (not_not.mpr hbusy)] at h
    exact absurd rfl h
  rw [writeSamples, if_pos hbusy] at h ⊢
  rcases eq_or_ne r d.writeBf.buffer with rfl | hr
  swap
  · exact absurd (congrFun (Function.update_of_ne hr _ _) i) h
  refine ⟨rfl, _, _, _, _, List.mem_singleton_self _, List.mem_append.mpr ?_⟩
  simp only [Function.update_self] at h ⊢
  generalize d.writeBf.mainHalf.toNat = data at h ⊢
  generalize getInpPacketSize b d.curInpFreq = needLen at h ⊢
  -- changed by the zeros, or by the bytes off the ring before them
  split_ifs at h ⊢ with hpad
  · by_cases hzero : memset (ringBufRead d.outRb (d.mem d.writeBf.buffer) data needLen).2.1
        (data + (ringBufRead d.outRb (d.mem d.writeBf.buffer) data needLen).2.2.toNat) 0
        (needLen - (ringBufRead d.outRb (d.mem d.writeBf.buffer) data needLen).2.2).toNat i =
        (ringBufRead d.outRb (d.mem d.writeBf.buffer) data needLen).2.1 i
    · rw [hzero] at h
      exact Or.inl (mem_readStores_of_changed h)
    · exact Or.inr (mem_memsetStores_of_changed hzero)
  · exact Or.inl (mem_readStores_of_changed h)

/-! ### In bounds -/

/-- Every store of `write_samples` lies in the half it selected, which is one of the two halves of
    `write_buffer`, and `in_callback` hands over no more than a half. -/
def Io.InHalf (half : UInt32) : Io → Prop
  | .fill off _ _ stores =>
    (off = 0 ∨ off = half.toNat) ∧ ∀ a ∈ stores, off ≤ a ∧ a < off + half.toNat
  | .startWrite ep _ _ len _ => ep = audioInpEp → len ≤ half
  | _ => True

/-- The card as `audio_test` has set it up, some bytes being queued in the ring. -/
def Running (b : Build) (d : Device) : Prop := Wired b d ∧ ∃ q, d.Queued q

theorem running_initial (b : Build) : Running b (initial b) :=
  ⟨wired_initial b, [], queued_initial b⟩

theorem running_step {b : Build} (d : Device) (e : Event) (h : Running b d) :
    Running b (step b d e).1 := by
  rcases h with ⟨hw, q, hq⟩
  exact ⟨wired_step hw e, _, queue_step hw hq e⟩

theorem running_final {b : Build} {s : Device} (hs : Running b s) (es : List Event) :
    Running b (final (step b) s es) :=
  invariant_of_forall (fun e _ d h => running_step d e h) hs

/-- A pass that fills stays in its half exactly when the packet fits. -/
theorem writePass_inHalf_iff {b : Build} {d : Device} (h : Running b d)
    (hf : d.mic.filling = true) :
    (∀ io ∈ (writePass b d).2, io.InHalf (audioInpPacketSz b)) ↔ FreqFits b d.curInpFreq := by
  rcases h with ⟨hw, q, hq⟩
  rw [writePass_io hw hq.holds, if_pos hf, freqFits_iff]
  simp only [List.mem_singleton, forall_eq, Io.InHalf, List.mem_map, List.mem_range]
  have hhalf : d.mic.bf.mainHalf.toNat = 0 ∨
      d.mic.bf.mainHalf.toNat = (audioInpPacketSz b).toNat := by
    rw [← hw.writeHalf]
    exact mainHalf_cases d.writeBf
  have hneed : d.needLen b = (getInpPacketSize b d.curInpFreq).toNat := rfl
  constructor
  · rintro ⟨-, hall⟩
    by_contra hlt
    have := (hall _ ⟨d.needLen b - 1, by omega, rfl⟩).2
    omega
  · intro hle
    refine ⟨hhalf, ?_⟩
    rintro a ⟨k, hk, rfl⟩
    omega

/-- In addition the length that `in_callback` would hand over is at most a half. -/
def CountFits (b : Build) (d : Device) : Prop :=
  Running b d ∧ d.writeBf.count ≤ audioInpPacketSz b

/-- The condition on one step: a pass that fills a half does so for a frequency that fits. -/
def FillFits (b : Build) (d : Device) (e : Event) : Prop :=
  e = .writePass → d.mic.filling = true → FreqFits b d.curInpFreq

instance (b : Build) (d : Device) (e : Event) : Decidable (FillFits b d e) :=
  inferInstanceAs (Decidable (e = .writePass → d.mic.filling = true → FreqFits b d.curInpFreq))

theorem countFits_step {b : Build} (d : Device) (e : Event) (h : CountFits b d)
    (hc : FillFits b d e) : CountFits b (step b d e).1 := by
  rcases h with ⟨hr, hcount⟩
  refine ⟨running_step d e hr, ?_⟩
  rcases hr with ⟨hw, q, hq⟩
  change (step b d e).1.mic.bf.count ≤ _
  rw [mic_step hw hq.holds e]
  cases e with
  | openIntf intf =>
    simp only [Mic.step]
    split
    · exact UInt32.zero_le
    · exact hcount
  | closeIntf intf =>
    simp only [Mic.step]
    split <;> exact hcount
  | writePass =>
    simp only [Mic.step]
    split_ifs with hf
    · have hfit := (freqFits_iff b d.curInpFreq).mp (hc rfl hf)
      rw [length_micPacket, UInt32.le_iff_toNat_le]
      simpa [Device.needLen] using hfit
    · exact hcount
  | _ => exact hcount

theorem inHalf_step {b : Build} (d : Device) (e : Event) (h : CountFits b d)
    (hc : FillFits b d e) : ∀ io ∈ (step b d e).2, io.InHalf (audioInpPacketSz b) := by
  rcases h with ⟨hr, hcount⟩
  rcases eq_or_ne e .writePass with rfl | hw
  · by_cases hf : d.mic.filling = true
    · exact (writePass_inHalf_iff hr hf).mpr (hc rfl hf)
    · rcases hr with ⟨hw, q, hq⟩
      intro io hio
      rw [step, writePass_io hw hq.holds, if_neg hf] at hio
      cases hio
  · rcases eq_or_ne e .inCallback with rfl | hi
    · rw [step, inCallback_io hr.1]
      simp only [List.mem_singleton, forall_eq, Io.InHalf]
      exact fun _ => hcount
    · intro io hio
      have hno := not_ofMic hw hi io hio
      cases io with
      | fill off carried data stores => exact absurd trivial hno
      | startWrite ep buf off len data => exact fun h => absurd h hno
      | _ => trivial

/-- What fits, at one step: a packet the half it is received in, one to send the half it is built
    in. -/
def PacketsFit (b : Build) (d : Device) (e : Event) : Prop := e.Fits b ∧ FillFits b d e

instance (b : Build) (d : Device) (e : Event) : Decidable (PacketsFit b d e) :=
  inferInstanceAs (Decidable (e.Fits b ∧ FillFits b d e))

theorem fits_of_packetsFit {b : Build} {s : Device} {es : List Event}
    (h : Along (step b) (PacketsFit b) s es) : ∀ e ∈ es, e.Fits b := by
  intro e he
  rcases List.append_of_mem he with ⟨pre, post, rfl⟩
  exact ((along_iff_forall_split _ _).mp h pre e post rfl).1

theorem countFits_initial (b : Build) : CountFits b (initial b) :=
  ⟨running_initial b, UInt32.zero_le⟩

/-- RUN: as long as fills fit, no more than a half is ever handed over. -/
theorem countFits_final {b : Build} {s : Device} {es : List Event} (hs : CountFits b s)
    (h : Along (step b) (FillFits b) s es) : CountFits b (final (step b) s es) :=
  invariant_of_along countFits_step hs h

/-- EXACT: a run keeps every store of `write_samples` in its half and every length of `in_callback`
    within a half if and only if each pass that fills does so for a frequency that fits. -/
theorem mic_in_bounds_iff (b : Build) (es : List Event) :
    Along (step b) (fun d e => ∀ io ∈ (step b d e).2, io.InHalf (audioInpPacketSz b))
        (initial b) es ↔
      Along (step b) (FillFits b) (initial b) es := by
  constructor
  · refine along_of_invariant (I := Running b) (fun d e h _ => running_step d e h) ?_
      (running_initial b)
    rintro d e hr hin rfl hf
    exact (writePass_inHalf_iff hr hf).mp hin
  · exact along_of_invariant countFits_step inHalf_step (countFits_initial b)

/-- The host asks for 200 kHz on the microphone endpoint, opens the interface, and the next pass
    stores 1200 bytes into a half of 576. -/
theorem mic_overrun : ¬ Along (step .fs)
    (fun d e => ∀ io ∈ (step .fs d e).2, io.InHalf (audioInpPacketSz .fs)) (initial .fs)
    [.setSamplingFreq 0 audioInpEp 200000, .openIntf 2, .writePass] := by
  rintro ⟨-, -, hio, -⟩
  have hr := running_step _ (.openIntf 2) (running_step _ (.setSamplingFreq 0 audioInpEp 200000)
    (running_initial .fs))
  have hfit := (writePass_inHalf_iff hr (by decide)).mp hio
  exact absurd hfit (by decide)

end AudioCard
