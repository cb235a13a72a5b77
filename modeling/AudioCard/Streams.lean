import AudioCard.Events
import AudioCard.RingQueue

/-! The card taken apart: the flag bytes, the speaker stream, the microphone stream and the ring
    between the two.

    `Device.speaker` and `Device.mic` are what one stream reads and writes of the globals. An event
    acts on each of them by itself (`speaker_step`, `mic_step`), on the two flag bytes
    (`flags_step`) and on the bytes queued in the ring (`queue_step`), so an invariant of one part
    needs no other part of the card. -/

namespace AudioCard
open Segment Flags

/-! ### What `audio_test` has set up and nothing changes -/

/-- The pointers and sizes are those set up by `audio_test`; the controller stores to `read_buffer`
    only. -/
structure Wired (b : Build) (d : Device) : Prop where
  writePtr : d.writeBf.buffer = .writeBuffer
  writeHalf : d.writeBf.halfsize = audioInpPacketSz b
  readPtr : d.readBf.buffer = .readBuffer
  readHalf : d.readBf.halfsize = audioOutPacketSz b
  armed : ∀ t, d.armed = some t → t.buf = .readBuffer

theorem wired_initial (b : Build) : Wired b (initial b) where
  writePtr := rfl
  writeHalf := rfl
  readPtr := rfl
  readHalf := rfl
  armed := by intro t ht; simp [initial, audioTestInit, static] at ht

/-- The pointers and sizes of the two double buffers. -/
structure Layout where
  writePtr : Region
  writeHalf : UInt32
  readPtr : Region
  readHalf : UInt32
  deriving DecidableEq

def Device.layout (d : Device) : Layout :=
  ⟨d.writeBf.buffer, d.writeBf.halfsize, d.readBf.buffer, d.readBf.halfsize⟩

theorem layout_store (i : ℕ) (l : List UInt8) (d : Device) :
    (controllerStore i l d).layout = d.layout := by
  unfold controllerStore
  split <;> rfl

theorem armed_store (i : ℕ) (l : List UInt8) (d : Device) :
    (controllerStore i l d).armed = d.armed := by
  unfold controllerStore
  split <;> simp_all

/-- No event moves a double buffer or changes its size. -/
theorem layout_step (b : Build) (d : Device) (e : Event) : (step b d e).1.layout = d.layout := by
  cases e with
  | openIntf intf =>
    simp only [step, usbdAudioOpen]
    split_ifs <;> rfl
  | closeIntf intf =>
    simp only [step, usbdAudioClose]
    split_ifs <;> rfl
  | outCallback pkt => exact layout_store 0 pkt d
  | inCallback => rfl
  | inFbCallback =>
    simp only [step]
    split_ifs <;> rfl
  | setSamplingFreq entityId epCh freq =>
    simp only [step, usbdAudioSetSamplingFreq]
    cases b <;> simp only <;> split_ifs <;> rfl
  | readPass =>
    simp only [step, readPass, readSamples]
    split_ifs <;> rfl
  | writePass =>
    simp only [step, writePass, writeSamples]
    split_ifs <;> rfl
  | feedbackPass =>
    simp only [step, feedbackPass, writeFeedback]
    split_ifs <;> rfl
  | dma i v =>
    simp only [step]
    split_ifs
    · exact layout_store i [v] d
    · rfl

/-- What the controller has armed before an event stays armed, or is replaced by a transfer to the
    buffer of the speaker stream. -/
theorem armed_step {b : Build} {d : Device} {e : Event} {t : Transfer}
    (h : (step b d e).1.armed = some t) : d.armed = some t ∨ t.buf = d.readBf.buffer := by
  cases e with
  | openIntf intf =>
    simp only [step, usbdAudioOpen, usbdEpStartRead] at h
    split_ifs at h
    · cases h
      exact Or.inr rfl
    · cases h
      exact Or.inr rfl
    · exact Or.inl h
    · exact Or.inl h
  | closeIntf intf =>
    simp only [step, usbdAudioClose] at h
    split_ifs at h <;> exact Or.inl h
  | outCallback pkt =>
    cases h
    refine Or.inr ?_
    exact congrArg Layout.readPtr (layout_store 0 pkt d)
  | inCallback => exact Or.inl h
  | inFbCallback =>
    simp only [step] at h
    split_ifs at h <;> exact Or.inl h
  | setSamplingFreq entityId epCh freq =>
    simp only [step, usbdAudioSetSamplingFreq] at h
    cases b <;> simp only at h <;> split_ifs at h <;> exact Or.inl h
  | readPass =>
    simp only [step, readPass, readSamples] at h
    split_ifs at h <;> exact Or.inl h
  | writePass =>
    simp only [step, writePass, writeSamples] at h
    split_ifs at h <;> exact Or.inl h
  | feedbackPass =>
    simp only [step, feedbackPass, writeFeedback] at h
    split_ifs at h <;> exact Or.inl h
  | dma i v =>
    simp only [step] at h
    split_ifs at h
    · rw [armed_store] at h
      exact Or.inl h
    · exact Or.inl h

theorem wired_iff {b : Build} {d : Device} : Wired b d ↔
    d.layout = ⟨.writeBuffer, audioInpPacketSz b, .readBuffer, audioOutPacketSz b⟩ ∧
      ∀ t, d.armed = some t → t.buf = .readBuffer := by
  simp only [Device.layout, Layout.mk.injEq]
  exact ⟨fun ⟨h1, h2, h3, h4, h5⟩ => ⟨⟨h1, h2, h3, h4⟩, h5⟩,
    fun ⟨⟨h1, h2, h3, h4⟩, h5⟩ => ⟨h1, h2, h3, h4, h5⟩⟩

theorem wired_readSamples {b : Build} {d : Device} (h : Wired b d) :
    Wired b (readSamples d).1 := by
  rw [readSamples]
  split_ifs
  · exact h
  · exact ⟨h.writePtr, h.writeHalf, h.readPtr, h.readHalf, h.armed⟩

theorem wired_step {b : Build} {d : Device} (h : Wired b d) (e : Event) :
    Wired b (step b d e).1 := by
  obtain ⟨hlayout, harmed⟩ := wired_iff.mp h
  refine wired_iff.mpr ⟨(layout_step b d e).trans hlayout, fun t ht => ?_⟩
  rcases armed_step ht with hold | hbuf
  · exact harmed t hold
  · exact hbuf.trans h.readPtr

/-! ### The flag bytes -/

/-- `open_flag` and `ep_busy_flag`. -/
structure FlagBytes where
  openFlag : UInt8
  epBusyFlag : UInt8

def Device.flags (d : Device) : FlagBytes := ⟨d.openFlag, d.epBusyFlag⟩

/-- A pass of the main loop over stream `f`. -/
def FlagBytes.pass (s : FlagBytes) (f : EpFlag) : FlagBytes :=
  if isSet s.openFlag f.mask && !isSet s.epBusyFlag f.mask then
    { s with epBusyFlag := s.epBusyFlag ||| f.mask } else s

@[simp] theorem pass_openFlag (s : FlagBytes) (f : EpFlag) : (s.pass f).openFlag = s.openFlag := by
  unfold FlagBytes.pass
  split <;> rfl

/-- One event, as the flag bytes see it. -/
def FlagBytes.step (b : Build) (s : FlagBytes) : Event → FlagBytes
  | .openIntf intf =>
    if intf = 1 then
      if b.hasFeedback then
        ⟨s.openFlag ||| EpFlag.rx.mask ||| EpFlag.fb.mask,
          s.epBusyFlag ||| EpFlag.rx.mask ||| EpFlag.fb.mask⟩
      else ⟨s.openFlag ||| EpFlag.rx.mask, s.epBusyFlag ||| EpFlag.rx.mask⟩
    else if intf = 2 then { s with openFlag := s.openFlag ||| EpFlag.tx.mask }
    else s
  | .closeIntf intf =>
    if intf = 1 then
      if b.hasFeedback then
        ⟨s.openFlag &&& ~~~EpFlag.rx.mask &&& ~~~EpFlag.fb.mask,
          s.epBusyFlag &&& ~~~EpFlag.rx.mask &&& ~~~EpFlag.fb.mask⟩
      else ⟨s.openFlag &&& ~~~EpFlag.rx.mask, s.epBusyFlag &&& ~~~EpFlag.rx.mask⟩
    else ⟨s.openFlag &&& ~~~EpFlag.tx.mask, s.epBusyFlag &&& ~~~EpFlag.tx.mask⟩
  | .outCallback _ => { s with epBusyFlag := s.epBusyFlag &&& ~~~EpFlag.rx.mask }
  | .inCallback => { s with epBusyFlag := s.epBusyFlag &&& ~~~EpFlag.tx.mask }
  | .inFbCallback =>
    if b.hasFeedback then { s with epBusyFlag := s.epBusyFlag &&& ~~~EpFlag.fb.mask } else s
  | .readPass => s.pass .rx
  | .writePass => s.pass .tx
  | .feedbackPass => if b.hasFeedback then s.pass .fb else s
  | .setSamplingFreq _ _ _ | .dma _ _ => s

theorem flags_store (i : ℕ) (l : List UInt8) (d : Device) :
    (controllerStore i l d).flags = d.flags := by
  unfold controllerStore
  split <;> rfl

/-- An event acts on the flag bytes by themselves. -/
theorem flags_step (b : Build) (d : Device) (e : Event) :
    (step b d e).1.flags = d.flags.step b e := by
  cases e with
  | openIntf intf =>
    simp only [step, usbdAudioOpen, FlagBytes.step]
    split_ifs <;> rfl
  | closeIntf intf =>
    simp only [step, usbdAudioClose, FlagBytes.step]
    split_ifs <;> rfl
  | outCallback pkt =>
    rw [FlagBytes.step, ← flags_store 0 pkt d]
    rfl
  | inCallback => rfl
  | inFbCallback =>
    simp only [step, FlagBytes.step]
    split_ifs <;> rfl
  | setSamplingFreq entityId epCh freq =>
    simp only [step, usbdAudioSetSamplingFreq]
    cases b <;> simp only <;> split_ifs <;> rfl
  | readPass =>
    simp only [step, readPass, readSamples, FlagBytes.step, FlagBytes.pass, Device.flags]
    split_ifs <;> simp_all
  | writePass =>
    simp only [step, writePass, writeSamples, FlagBytes.step, FlagBytes.pass, Device.flags]
    split_ifs <;> simp_all
  | feedbackPass =>
    simp only [step, feedbackPass, writeFeedback, FlagBytes.step, FlagBytes.pass, Device.flags]
    split_ifs <;> simp_all
  | dma i v =>
    simp only [step]
    split_ifs
    · exact flags_store i [v] d
    · rfl

/-! ### The frequencies -/

/-- The two frequencies, and the feedback value made from the first. -/
structure Rates where
  curOutFreq : UInt32
  curInpFreq : UInt32
  curFeedbackRate : UInt32
  deriving DecidableEq

def Device.rates (d : Device) : Rates := ⟨d.curOutFreq, d.curInpFreq, d.curFeedbackRate⟩

/-- The endpoint, or the entity, is that of the output frequency. -/
def selectsOut (b : Build) (entityId epCh : UInt8) : Bool :=
  match b with
  | .fs => epCh = audioOutEp
  | .hs => entityId = acClockOutSourceId

/-- The endpoint, or the entity, is that of the input frequency. -/
def selectsInp (b : Build) (entityId epCh : UInt8) : Bool :=
  match b with
  | .fs => epCh = audioInpEp
  | .hs => entityId = acClockInpSourceId

/-- One event, as the frequencies see it. -/
def Rates.step (b : Build) (r : Rates) : Event → Rates
  | .setSamplingFreq entityId epCh freq =>
    if selectsOut b entityId epCh then
      { r with curOutFreq := freq, curFeedbackRate := (freq / 1000) <<< 14 }
    else if selectsInp b entityId epCh then { r with curInpFreq := freq }
    else r
  | _ => r

theorem rates_store (i : ℕ) (l : List UInt8) (d : Device) :
    (controllerStore i l d).rates = d.rates := by
  unfold controllerStore
  split <;> rfl

theorem rates_readSamples (d : Device) : (readSamples d).1.rates = d.rates := by
  rw [readSamples]
  split_ifs <;> rfl

/-- An event acts on the frequencies by themselves. -/
theorem rates_step (b : Build) (d : Device) (e : Event) :
    (step b d e).1.rates = d.rates.step b e := by
  cases e with
  | openIntf intf =>
    simp only [step, usbdAudioOpen]
    split_ifs <;> rfl
  | closeIntf intf =>
    simp only [step, usbdAudioClose]
    split_ifs <;> rfl
  | outCallback pkt => exact rates_store 0 pkt d
  | inCallback => rfl
  | inFbCallback =>
    simp only [step]
    split_ifs <;> rfl
  | setSamplingFreq entityId epCh freq =>
    cases b <;>
    · simp only [step, usbdAudioSetSamplingFreq, Rates.step, selectsOut, selectsInp,
        decide_eq_true_eq]
      split_ifs <;> rfl
  | readPass =>
    rw [step, readPass]
    split_ifs
    · exact rates_readSamples d
    · rfl
  | writePass =>
    simp only [step, writePass, writeSamples]
    split_ifs <;> rfl
  | feedbackPass =>
    simp only [step, feedbackPass, writeFeedback]
    split_ifs <;> rfl
  | dma i v =>
    simp only [step]
    split_ifs
    · exact rates_store i [v] d
    · rfl

/-! ### The speaker stream -/

/-- What the speaker stream reads and writes: its bits in the two flag bytes, its double buffer, the
    contents of `read_buffer`, and the transfer armed at the controller. -/
structure Speaker where
  opened : Bool
  busy : Bool
  bf : DblBuffer
  bytes : Bytes
  armed : Option Transfer

def Device.speaker (d : Device) : Speaker where
  opened := isSet d.openFlag EpFlag.rx.mask
  busy := isSet d.epBusyFlag EpFlag.rx.mask
  bf := d.readBf
  bytes := d.mem .readBuffer
  armed := d.armed

/-- A pass of the main loop will drain a packet. -/
def Speaker.draining (s : Speaker) : Bool := s.opened && !s.busy

/-- The controller stores `l` from place `i` of the armed half on. -/
def Speaker.store (s : Speaker) (i : ℕ) (l : List UInt8) : Speaker :=
  match s.armed with
  | some t => { s with bytes := overlay s.bytes (t.off + i) l }
  | none => s

/-- One event, as the speaker stream sees it: its new state and the bytes given to
    `ring_buf_write`. -/
def Speaker.step (s : Speaker) : Event → Speaker × Option (List UInt8)
  | .openIntf intf =>
    if intf = 1 then
      ({ s with
          opened := true
          busy := true
          bf := dblBufferReset s.bf
          armed := some ⟨s.bf.buffer, 0, s.bf.halfsize⟩ }, none)
    else (s, none)
  | .closeIntf intf =>
    if intf = 1 then ({ s with opened := false, busy := false }, none) else (s, none)
  | .outCallback pkt =>
    let s := s.store 0 pkt
    let bf := { s.bf with count := pkt.length.toUInt32 }.flip
    ({ s with
        busy := false
        bf := bf
        armed := some ⟨bf.buffer, bf.usbHalf.toNat, bf.halfsize⟩ }, none)
  | .readPass =>
    if s.draining then
      ({ s with busy := true }, some (slice s.bytes s.bf.mainHalf.toNat s.bf.count.toNat))
    else (s, none)
  | .dma i v =>
    (if (s.armed.map fun t => decide (i < t.len.toNat)).getD false then s.store i [v] else s, none)
  | _ => (s, none)

/-- Only a pass of the main loop drains. -/
theorem speaker_out_eq_none (s : Speaker) {e : Event} (h : e ≠ .readPass) :
    (s.step e).2 = none := by
  cases e with
  | openIntf intf => simp only [Speaker.step]; split_ifs <;> rfl
  | closeIntf intf => simp only [Speaker.step]; split_ifs <;> rfl
  | readPass => exact absurd rfl h
  | _ => rfl

/-- The bytes that the calls `io` give to `ring_buf_write`, if they do. -/
def drained (io : List Io) : Option (List UInt8) :=
  io.findSome? fun
    | .ringWrite data _ => some data
    | _ => none

theorem speaker_store {b : Build} {d : Device} (h : Wired b d) (i : ℕ) (l : List UInt8) :
    (controllerStore i l d).speaker = d.speaker.store i l := by
  unfold controllerStore Speaker.store Device.speaker
  cases ha : d.armed with
  | none => simp [ha]
  | some t => simp [h.armed t ha]

theorem busy_self {s : Speaker} (h : s.busy = true) : { s with busy := true } = s := by
  cases s
  cases h
  rfl

/-- `read_samples`, as the speaker stream sees it. -/
theorem speaker_readSamples {b : Build} {d : Device} (h : Wired b d) :
    (readSamples d).1.speaker = { d.speaker with busy := true } ∧
      drained (readSamples d).2 =
        if d.speaker.busy then none
        else some (slice d.speaker.bytes d.readBf.mainHalf.toNat d.readBf.count.toNat) := by
  cases hb : isSet d.epBusyFlag EpFlag.rx.mask with
  | true => simp [readSamples, Device.speaker, drained, hb]
  | false => simp [readSamples, Device.speaker, drained, hb, h.readPtr]

/-- An event acts on the speaker stream by itself. -/
theorem speaker_step {b : Build} {d : Device} (h : Wired b d) (e : Event) :
    (step b d e).1.speaker = (d.speaker.step e).1 ∧
      drained (step b d e).2 = (d.speaker.step e).2 := by
  cases e with
  | openIntf intf =>
    simp only [step, usbdAudioOpen, Speaker.step]
    split_ifs with h1 h2 h3 <;>
      simp [usbdEpStartRead, dblBufferReset, Device.speaker, drained, h.readPtr]
  | closeIntf intf =>
    simp only [step, usbdAudioClose, Speaker.step]
    split_ifs <;> simp [Device.speaker, drained]
  | outCallback pkt =>
    have hs := speaker_store h 0 pkt
    simp only [step, usbdAudioOutCallback, usbdEpStartRead, Speaker.step, ← hs]
    simp [Device.speaker, drained]
  | inCallback =>
    simp [step, usbdAudioInCallback, usbdEpStartWrite, Speaker.step, Device.speaker, drained]
  | inFbCallback =>
    simp only [step, usbdAudioInFbCallback, usbdEpStartWrite, Speaker.step]
    split_ifs <;> simp [Device.speaker, drained]
  | setSamplingFreq entityId epCh freq =>
    simp only [step, usbdAudioSetSamplingFreq, setFeedbackValue, Speaker.step]
    cases b <;> simp only <;> split_ifs <;> simp [Device.speaker, drained]
  | readPass =>
    have hread := speaker_readSamples h
    rcases Bool.eq_false_or_eq_true d.speaker.opened with ho | ho
    · have hpass : readPass d = readSamples d := if_pos ho
      rw [step, hpass, hread.1, hread.2, Speaker.step]
      rcases Bool.eq_false_or_eq_true d.speaker.busy with hb | hb
      · have hdraining : ¬ d.speaker.draining = true := by simp [Speaker.draining, hb]
        rw [busy_self hb, if_pos hb, if_neg hdraining]
        exact ⟨rfl, rfl⟩
      · have hdraining : d.speaker.draining = true := by simp [Speaker.draining, ho, hb]
        rw [if_pos hdraining, if_neg (by simp [hb])]
        exact ⟨rfl, rfl⟩
    · have hpass : readPass d = (d, []) := if_neg (by simp [show isSet _ _ = false from ho])
      have hdraining : ¬ d.speaker.draining = true := by simp [Speaker.draining, ho]
      rw [step, hpass, Speaker.step, if_neg hdraining]
      exact ⟨rfl, rfl⟩
  | writePass =>
    simp only [step, writePass, writeSamples, Speaker.step]
    split_ifs <;> simp [Device.speaker, drained, h.writePtr]
  | feedbackPass =>
    simp only [step, feedbackPass, writeFeedback, Speaker.step]
    split_ifs <;> simp [Device.speaker, drained]
  | dma i v =>
    have hs := speaker_store h i [v]
    simp only [step, inArmed, Speaker.step, ← hs]
    constructor
    · exact apply_ite Device.speaker _ _ _
    · rfl

/-! ### The microphone stream -/

/-- What the microphone stream reads and writes, apart from the ring. -/
structure Mic where
  opened : Bool
  busy : Bool
  bf : DblBuffer
  bytes : Bytes

def Device.mic (d : Device) : Mic where
  opened := isSet d.openFlag EpFlag.tx.mask
  busy := isSet d.epBusyFlag EpFlag.tx.mask
  bf := d.writeBf
  bytes := d.mem .writeBuffer

/-- A pass of the main loop will build a packet. -/
def Mic.filling (m : Mic) : Bool := m.opened && !m.busy

/-- `get_inp_packet_size()` -/
def Device.needLen (b : Build) (d : Device) : ℕ := (getInpPacketSize b d.curInpFreq).toNat

/-- The packet of `n` bytes built from the queue `q`: its oldest bytes, then zeros. -/
def micPacket (q : List UInt8) (n : ℕ) : List UInt8 :=
  q.take n ++ List.replicate (n - q.length) 0

@[simp] theorem length_micPacket (q : List UInt8) (n : ℕ) : (micPacket q n).length = n := by
  simp only [micPacket, List.length_append, List.length_take, List.length_replicate]
  omega

/-- One event, as the microphone stream sees it, when `packet` is what `write_samples` would
    build. -/
def Mic.step (m : Mic) (packet : List UInt8) : Event → Mic
  | .openIntf intf =>
    if intf = 2 then { m with opened := true, bf := dblBufferReset m.bf } else m
  | .closeIntf intf => if intf = 1 then m else { m with opened := false, busy := false }
  | .inCallback => { m with busy := false, bf := m.bf.flip }
  | .writePass =>
    if m.filling then
      { m with
        busy := true
        bytes := overlay m.bytes m.bf.mainHalf.toNat packet
        bf := { m.bf with count := packet.length.toUInt32 } }
    else m
  | _ => m

/-- The offsets stored to by the copy loop of a read are consecutive. -/
theorem readStores_eq {rb : RingBuf} {q : List UInt8} (h : rb.Holds q) (mem : Bytes) (off : ℕ)
    (len : UInt32) : readStores rb mem off len =
      (List.range (min len.toNat q.length)).map (off + ·) := by
  have hcount := h.count
  have hlen := toNat_readLen rb len
  rw [readStores]
  split_ifs with hempty
  · rw [ringBufEmpty_iff] at hempty
    rw [show min len.toNat q.length = 0 by omega]
    rfl
  · rw [ringBufEmpty_iff] at hempty
    rw [hlen, hcount]
    refine List.map_congr_left fun k _ => ?_
    exact (readBody_iterate rb.buff k ⟨mem, off, rb.start⟩ (h.start_lt hempty)).2.1

/-- The bytes off the ring and the zeros behind them are the packet. -/
theorem memset_take (q : List UInt8) (mem : Bytes) (off n : ℕ) :
    memset (overlay mem off (q.take (min n q.length))) (off + min n q.length) 0
      (n - min n q.length) = overlay mem off (micPacket q n) := by
  have hlen : (q.take (min n q.length)).length = min n q.length := by
    rw [List.length_take]; omega
  have htake : q.take (min n q.length) = q.take n := by
    rw [← List.take_take, List.take_length]
  rw [memset, micPacket, overlay_append, ← htake, hlen]
  congr 2
  omega

theorem range_append_memsetStores (off : ℕ) {k n : ℕ} (h : k ≤ n) :
    (List.range k).map (off + ·) ++ memsetStores (off + k) (n - k) =
      (List.range n).map (off + ·) := by
  obtain ⟨m, rfl⟩ := Nat.exists_eq_add_of_le h
  rw [memsetStores, Nat.add_sub_cancel_left, List.range_add, List.map_append, List.map_map]
  congr 1
  exact List.map_congr_left fun i _ => Nat.add_assoc off k i

/-- What `write_samples` does when the busy bit is clear: it takes the oldest bytes off the ring,
    and its stores are the packet, byte after byte from the start of its half. -/
theorem writeSamples_of_not_busy {b : Build} {d : Device} {q : List UInt8} (h : Wired b d)
    (hq : d.outRb.Holds q) (hb : isSet d.epBusyFlag EpFlag.tx.mask = false) :
    (writeSamples b d).1.mic =
        { d.mic with
          busy := true
          bytes := overlay d.mic.bytes d.mic.bf.mainHalf.toNat (micPacket q (d.needLen b))
          bf := { d.mic.bf with count := getInpPacketSize b d.curInpFreq } } ∧
      (writeSamples b d).1.outRb.Holds (q.drop (d.needLen b)) ∧
      (writeSamples b d).1.outRb.size = d.outRb.size ∧
      (writeSamples b d).2 =
        [.fill d.mic.bf.mainHalf.toNat (min (d.needLen b) q.length) (micPacket q (d.needLen b))
          ((List.range (d.needLen b)).map (d.mic.bf.mainHalf.toNat + ·))] := by
  set need := getInpPacketSize b d.curInpFreq with hneed
  set half := d.writeBf.mainHalf.toNat with hhalf
  have hn : d.needLen b = need.toNat := rfl
  have hread := holds_read hq (d.mem .writeBuffer) half need
  have hmem := mem_read hq (d.mem .writeBuffer) half need
  have hret := toNat_ret_read hq (d.mem .writeBuffer) half need
  have hsize := size_read d.outRb (d.mem .writeBuffer) half need
  have hstores := readStores_eq hq (d.mem .writeBuffer) half need
  have hdrop : q.drop (min need.toNat q.length) = q.drop need.toNat := by
    rcases Nat.le_total need.toNat q.length with hle | hle
    · rw [Nat.min_eq_left hle]
    · rw [Nat.min_eq_right hle, List.drop_length, List.drop_eq_nil_of_le hle]
  simp only [writeSamples, hb, h.writePtr, Bool.false_eq_true, not_false_eq_true, if_true,
    ← hneed, ← hhalf, hstores]
  generalize ringBufRead d.outRb (d.mem .writeBuffer) half need = r at hread hmem hret hsize ⊢
  -- the test `count < need_len`, and what both of its branches come to
  have hpad : (if r.2.2 < need then (need - r.2.2).toNat else 0) = need.toNat - r.2.2.toNat := by
    split_ifs with hlt
    · rw [UInt32.lt_iff_toNat_lt] at hlt
      exact UInt32.toNat_sub_of_le _ _ (UInt32.le_iff_toNat_le.mpr (by omega))
    · rw [UInt32.lt_iff_toNat_lt] at hlt
      omega
  have htotal : (if r.2.2 < need then need else r.2.2) = need := by
    split_ifs with hlt
    · rfl
    · rw [UInt32.lt_iff_toNat_lt] at hlt
      exact UInt32.toNat_inj.mp (by omega)
  have hbytes : (if r.2.2 < need then memset r.2.1 (half + r.2.2.toNat) 0
      (need.toNat - r.2.2.toNat) else r.2.1) =
      overlay (d.mem .writeBuffer) half (micPacket q need.toNat) := by
    rw [← memset_take, hmem, hret]
    split_ifs with hlt
    · rfl
    · rw [UInt32.lt_iff_toNat_lt] at hlt
      rw [show need.toNat - min need.toNat q.length = 0 by omega]
      rfl
  rw [hpad, htotal, hbytes]
  have hpacket := slice_overlay (d.mem .writeBuffer) half (micPacket q need.toNat)
  rw [length_micPacket] at hpacket
  refine ⟨?_, ?_, hsize, ?_⟩
  · simp [Device.mic, hn, hhalf, h.writePtr]
  · rw [hn, ← hdrop]; exact hread
  · rw [hpacket, hret, range_append_memsetStores half (Nat.min_le_left _ _)]
    rfl

/-- An event acts on the microphone stream by itself, as long as no packet is taken from the ring.
    -/
theorem mic_step_of_ne {b : Build} {d : Device} (h : Wired b d) {e : Event} (hw : e ≠ .writePass)
    (packet : List UInt8) : (step b d e).1.mic = d.mic.step packet e := by
  cases e with
  | openIntf intf =>
    simp only [step, usbdAudioOpen, Mic.step]
    split_ifs <;> simp_all [usbdEpStartRead, dblBufferReset, Device.mic]
  | closeIntf intf =>
    simp only [step, usbdAudioClose, Mic.step]
    split_ifs <;> simp [Device.mic]
  | outCallback pkt =>
    simp only [step, usbdAudioOutCallback, usbdEpStartRead, controllerStore, Mic.step]
    cases ha : d.armed with
    | none => simp [Device.mic]
    | some t => simp [Device.mic, h.armed t ha]
  | inCallback =>
    simp [step, usbdAudioInCallback, usbdEpStartWrite, Mic.step, Device.mic]
  | inFbCallback =>
    simp only [step, usbdAudioInFbCallback, usbdEpStartWrite, Mic.step]
    split_ifs <;> simp [Device.mic]
  | setSamplingFreq entityId epCh freq =>
    simp only [step, usbdAudioSetSamplingFreq, setFeedbackValue, Mic.step]
    cases b <;> simp only <;> split_ifs <;> simp [Device.mic]
  | readPass =>
    simp only [step, readPass, readSamples, Mic.step]
    split_ifs <;> simp [Device.mic]
  | writePass => exact absurd rfl hw
  | feedbackPass =>
    simp only [step, feedbackPass, writeFeedback, Mic.step]
    split_ifs <;> simp [Device.mic]
  | dma i v =>
    simp only [step, controllerStore, Mic.step]
    split_ifs
    · cases ha : d.armed with
      | none => simp [Device.mic]
      | some t => simp [Device.mic, h.armed t ha]
    · rfl

/-- An event acts on the microphone stream by itself, but for the packet taken from the ring. -/
theorem mic_step {b : Build} {d : Device} {q : List UInt8} (h : Wired b d) (hq : d.outRb.Holds q)
    (e : Event) : (step b d e).1.mic = d.mic.step (micPacket q (d.needLen b)) e := by
  rcases eq_or_ne e .writePass with rfl | hw
  · simp only [step, writePass, Mic.step]
    cases ho : isSet d.openFlag EpFlag.tx.mask with
    | false => simp [Mic.filling, Device.mic, ho]
    | true =>
      cases hb : isSet d.epBusyFlag EpFlag.tx.mask with
      | false =>
        obtain ⟨hmic, -⟩ := writeSamples_of_not_busy h hq hb
        rw [if_pos rfl, hmic]
        simp [Mic.filling, Device.mic, ho, hb, Device.needLen]
      | true => simp [writeSamples, Mic.filling, Device.mic, ho, hb]
  · exact mic_step_of_ne h hw _

/-- What a pass of the main loop shows of the microphone stream. -/
theorem writePass_io {b : Build} {d : Device} {q : List UInt8} (h : Wired b d)
    (hq : d.outRb.Holds q) : (writePass b d).2 =
      if d.mic.filling then
        [.fill d.mic.bf.mainHalf.toNat (min (d.needLen b) q.length) (micPacket q (d.needLen b))
          ((List.range (d.needLen b)).map (d.mic.bf.mainHalf.toNat + ·))]
      else [] := by
  rcases Bool.eq_false_or_eq_true (isSet d.openFlag EpFlag.tx.mask) with ho | ho
  · rcases Bool.eq_false_or_eq_true (isSet d.epBusyFlag EpFlag.tx.mask) with hb | hb
    · rw [if_neg (by simp [Mic.filling, Device.mic, hb])]
      simp [writePass, ho, hb, writeSamples]
    · obtain ⟨-, -, -, hio⟩ := writeSamples_of_not_busy h hq hb
      rw [if_pos (by simp [Mic.filling, Device.mic, ho, hb]), writePass, if_pos ho, hio]
  · rw [if_neg (by simp [Mic.filling, Device.mic, ho])]
    simp [writePass, ho]

/-- `in_callback` hands over the half that the main loop had before the toggle. -/
theorem inCallback_io {b : Build} {d : Device} (h : Wired b d) : (usbdAudioInCallback d).2 =
    [.startWrite audioInpEp .writeBuffer d.mic.bf.mainHalf.toNat d.mic.bf.count
      (slice d.mic.bytes d.mic.bf.mainHalf.toNat d.mic.bf.count.toNat)] := by
  simp only [usbdAudioInCallback, usbdEpStartWrite, flip_usbHalf, flip_buffer, flip_count,
    Device.mic, h.writePtr]

/-- The call fills a half of `write_buffer` or hands one over. -/
def Io.OfMic : Io → Prop
  | .fill _ _ _ _ => True
  | .startWrite ep _ _ _ _ => ep = audioInpEp
  | _ => False

/-- Only a pass of the main loop fills, and only `in_callback` hands over. -/
theorem not_ofMic {b : Build} {d : Device} {e : Event} (hw : e ≠ .writePass)
    (hc : e ≠ .inCallback) : ∀ io ∈ (step b d e).2, ¬ io.OfMic := by
  cases e with
  | openIntf intf =>
    simp only [step, usbdAudioOpen, usbdEpStartRead]
    split_ifs <;> simp [Io.OfMic]
  | closeIntf intf =>
    simp only [step, usbdAudioClose]
    split_ifs <;> simp
  | outCallback pkt => simp [step, usbdAudioOutCallback, usbdEpStartRead, Io.OfMic]
  | inCallback => exact absurd rfl hc
  | inFbCallback =>
    simp only [step, usbdAudioInFbCallback, usbdEpStartWrite]
    split_ifs
    · simp [Io.OfMic, audioOfbEp, audioInpEp]
    · simp
  | setSamplingFreq entityId epCh freq => simp [step]
  | readPass =>
    simp only [step, readPass, readSamples]
    split_ifs <;> simp [Io.OfMic]
  | writePass => exact absurd rfl hw
  | feedbackPass =>
    simp only [step, feedbackPass, writeFeedback]
    split_ifs <;> simp
  | dma i v => simp [step]

/-- A fold that looks only at calls of the microphone skips the others. -/
theorem foldl_of_not_ofMic {α : Type*} {f : α → Io → α} (hf : ∀ a io, ¬ io.OfMic → f a io = a)
    {ios : List Io} (h : ∀ io ∈ ios, ¬ io.OfMic) (a : α) : ios.foldl f a = a := by
  induction ios generalizing a with
  | nil => rfl
  | cons io ios ih =>
    rw [List.foldl_cons, hf a io (h io (by simp))]
    exact ih (fun io' hmem => h io' (by simp [hmem])) a

/-! ### The ring between the streams -/

/-- The ring set up by `audio_test` holds the bytes `q`. -/
structure Device.Queued (d : Device) (q : List UInt8) : Prop where
  size : d.outRb.size = outRbSize
  holds : d.outRb.Holds q

theorem queued_initial (b : Build) : (initial b).Queued [] where
  size := rfl
  holds := holds_init _ _ _

/-- The queue after one event: a pass that drains appends what fits, a pass that fills takes the
    bytes of its packet. -/
def queueStep (b : Build) (d : Device) (q : List UInt8) : Event → List UInt8
  | .readPass =>
    match (d.speaker.step .readPass).2 with
    | some data => q ++ data.take (outRbSize.toNat - q.length)
    | none => q
  | .writePass => if d.mic.filling then q.drop (d.needLen b) else q
  | _ => q

/-- What a draining pass does to the ring, and what its `ring_buf_write` returns. -/
theorem readPass_drains {b : Build} {d : Device} {q : List UInt8} (h : Wired b d)
    (hq : d.Queued q) {data : List UInt8} (hd : (d.speaker.step .readPass).2 = some data) :
    (readPass d).1.Queued (q ++ data.take (outRbSize.toNat - q.length)) ∧
      ∃ ret, (readPass d).2 = [.ringWrite data ret] ∧
        ret.toNat = data.length - (outRbSize.toNat - q.length) := by
  simp only [Speaker.step] at hd
  split_ifs at hd with hc
  simp only [Speaker.draining, Device.speaker, Bool.and_eq_true, Bool.not_eq_true'] at hc hd
  obtain ⟨ho, hb⟩ := hc
  cases hd
  have hw := holds_write hq.holds (d.mem .readBuffer) d.readBf.mainHalf.toNat d.readBf.count
  have hr := toNat_ret_write hq.holds (d.mem .readBuffer) d.readBf.mainHalf.toNat d.readBf.count
  have hs := size_write d.outRb (d.mem .readBuffer) d.readBf.mainHalf.toNat d.readBf.count
  rw [hq.size] at hw hr hs
  have htake : (slice (d.mem .readBuffer) d.readBf.mainHalf.toNat d.readBf.count.toNat).take
      (outRbSize.toNat - q.length) = slice (d.mem .readBuffer) d.readBf.mainHalf.toNat
        (min d.readBf.count.toNat (outRbSize.toNat - q.length)) := by
    rw [← take_slice _ _ (Nat.min_le_left _ _), List.take_eq_take_min, length_slice, Nat.min_comm]
  simp only [readPass, readSamples, ho, hb, h.readPtr, Bool.false_eq_true, not_false_eq_true,
    if_true, htake, length_slice]
  refine ⟨⟨hs, hw⟩, _, rfl, ?_⟩
  rw [hr]
  omega

theorem queue_step {b : Build} {d : Device} {q : List UInt8} (h : Wired b d) (hq : d.Queued q)
    (e : Event) : (step b d e).1.Queued (queueStep b d q e) := by
  cases e with
  | readPass =>
    simp only [queueStep]
    cases hd : (d.speaker.step .readPass).2 with
    | some data => exact (readPass_drains h hq hd).1
    | none =>
      have hr : (readPass d).1.outRb = d.outRb := by
        simp only [Speaker.step, Speaker.draining, Device.speaker] at hd
        simp only [readPass, readSamples]
        split_ifs <;> simp_all
      exact ⟨by rw [step, hr]; exact hq.size, by rw [step, hr]; exact hq.holds⟩
  | writePass =>
    simp only [queueStep, step, writePass]
    rcases Bool.eq_false_or_eq_true (isSet d.openFlag EpFlag.tx.mask) with ho | ho
    · rcases Bool.eq_false_or_eq_true (isSet d.epBusyFlag EpFlag.tx.mask) with hb | hb
      · have hf : d.mic.filling = false := by simp [Mic.filling, Device.mic, hb]
        simpa [ho, hb, hf, writeSamples] using hq
      · have hf : d.mic.filling = true := by simp [Mic.filling, Device.mic, ho, hb]
        obtain ⟨-, hholds, hsize, -⟩ := writeSamples_of_not_busy h hq.holds hb
        rw [if_pos ho, if_pos hf]
        exact ⟨hsize.trans hq.size, hholds⟩
    · have hf : d.mic.filling = false := by simp [Mic.filling, Device.mic, ho]
      simpa [ho, hf] using hq
  | openIntf intf =>
    simp only [step, usbdAudioOpen, queueStep]
    split_ifs <;> exact ⟨hq.size, hq.holds⟩
  | closeIntf intf =>
    simp only [step, usbdAudioClose, queueStep]
    split_ifs <;> exact ⟨hq.size, hq.holds⟩
  | outCallback pkt =>
    simp only [step, usbdAudioOutCallback, usbdEpStartRead, controllerStore, queueStep]
    cases d.armed <;> exact ⟨hq.size, hq.holds⟩
  | inCallback => exact ⟨hq.size, hq.holds⟩
  | inFbCallback =>
    simp only [step, usbdAudioInFbCallback, usbdEpStartWrite, queueStep]
    split_ifs <;> exact ⟨hq.size, hq.holds⟩
  | setSamplingFreq entityId epCh freq =>
    simp only [step, usbdAudioSetSamplingFreq, setFeedbackValue, queueStep]
    cases b <;> simp only <;> split_ifs <;> exact ⟨hq.size, hq.holds⟩
  | feedbackPass =>
    simp only [step, feedbackPass, writeFeedback, queueStep]
    split_ifs <;> exact ⟨hq.size, hq.holds⟩
  | dma i v =>
    simp only [step, controllerStore, queueStep]
    split_ifs
    · cases d.armed <;> exact ⟨hq.size, hq.holds⟩
    · exact hq

end AudioCard
