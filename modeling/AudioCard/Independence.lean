import AudioCard.MicHandover

/-! The streams do not disturb one another.

    The three endpoints share the flag bytes, the callbacks and the main loop, and the microphone
    carries what the speaker brings. Apart from that content, and as long as packets fit their
    halves, each stream is on its own: what the controller is told for it, and what the main loop
    does for it, is what would happen if no other stream had any events (`stream_alone`). -/

namespace AudioCard
open Segment Run

/-- The event is one of stream `f`'s own. -/
def Event.concerns (b : Build) : EpFlag → Event → Bool
  | .rx, .openIntf intf | .rx, .closeIntf intf => intf = 1
  | .rx, .outCallback _ | .rx, .readPass | .rx, .dma _ _ => true
  | .tx, .openIntf intf => intf = 2
  | .tx, .closeIntf intf => intf ≠ 1
  | .tx, .inCallback | .tx, .writePass => true
  | .tx, .setSamplingFreq entityId epCh _ => selectsInp b entityId epCh
  | .fb, .inFbCallback => true
  | .fb, .setSamplingFreq entityId epCh _ => selectsOut b entityId epCh
  | _, _ => false

/-- What a call shows of stream `f`: for the speaker the transfers armed and the bytes given to the
    ring, for the microphone the transfers and the stores, but not the sound in them, for the
    feedback the transfers with their contents. -/
def Io.shownOf : EpFlag → Io → List Io
  | .rx, .startRead ep buf off len => [.startRead ep buf off len]
  | .rx, .ringWrite data _ => [.ringWrite data 0]
  | .tx, .startWrite ep buf off len data =>
    if ep = audioInpEp then [.startWrite ep buf off len (List.replicate data.length 0)] else []
  | .tx, .fill off _ data stores => [.fill off 0 (List.replicate data.length 0) stores]
  | .fb, .startWrite ep buf off len data =>
    if ep = audioOfbEp then [.startWrite ep buf off len data] else []
  | _, _ => []

/-- What the calls of an event show of stream `f`. -/
def shown (f : EpFlag) (io : List Io) : List Io := io.flatMap (Io.shownOf f)

/-! ### The speaker -/

/-- What an event shows of the speaker stream. -/
def Speaker.shown (s : Speaker) : Event → List Io
  | .openIntf intf =>
    if intf = 1 then [.startRead audioOutEp s.bf.buffer 0 s.bf.halfsize] else []
  | .outCallback pkt =>
    let bf := { s.bf with count := pkt.length.toUInt32 }.flip
    [.startRead audioOutEp bf.buffer bf.usbHalf.toNat bf.halfsize]
  | .readPass =>
    if s.draining then
      [.ringWrite (slice s.bytes s.bf.mainHalf.toNat s.bf.count.toNat) 0]
    else []
  | _ => []

theorem shown_rx {b : Build} {d : Device} (h : Wired b d) (e : Event) :
    shown .rx (step b d e).2 = d.speaker.shown e := by
  cases e with
  | openIntf intf =>
    simp only [step, usbdAudioOpen, Speaker.shown]
    split_ifs <;> simp [usbdEpStartRead, dblBufferReset, Device.speaker, shown, Io.shownOf]
  | closeIntf intf =>
    simp only [step, usbdAudioClose, Speaker.shown]
    split_ifs <;> rfl
  | outCallback pkt =>
    have hbf : (controllerStore 0 pkt d).readBf = d.readBf := by
      unfold controllerStore
      split <;> rfl
    simp [step, usbdAudioOutCallback, usbdEpStartRead, Speaker.shown, Device.speaker, shown,
      Io.shownOf, hbf]
  | inCallback => rfl
  | inFbCallback =>
    simp only [step, Speaker.shown]
    split_ifs <;> rfl
  | setSamplingFreq entityId epCh freq => rfl
  | readPass =>
    simp only [step, readPass, readSamples, Speaker.shown, Speaker.draining, Device.speaker]
    split_ifs <;> simp_all [shown, Io.shownOf, h.readPtr]
  | writePass =>
    simp only [step, writePass, writeSamples, Speaker.shown]
    split_ifs <;> rfl
  | feedbackPass =>
    simp only [step, feedbackPass, writeFeedback, Speaker.shown]
    split_ifs <;> rfl
  | dma i v => rfl

/-- Other streams' events leave the speaker alone. -/
theorem speaker_other {b : Build} {s : Speaker} {e : Event}
    (he : e.concerns b .rx = false) : (s.step e).1 = s ∧ s.shown e = [] := by
  cases e with
  | openIntf intf =>
    have hi : intf ≠ 1 := by simpa [Event.concerns] using he
    simp [Speaker.step, Speaker.shown, hi]
  | closeIntf intf =>
    have hi : intf ≠ 1 := by simpa [Event.concerns] using he
    simp [Speaker.step, Speaker.shown, hi]
  | outCallback | readPass | dma => cases he
  | _ => exact ⟨rfl, rfl⟩

/-! ### The microphone -/

/-- The microphone stream without the contents of its packets. -/
structure MicShape where
  opened : Bool
  busy : Bool
  bf : DblBuffer
  freq : UInt32

def Device.micShape (d : Device) : MicShape := ⟨d.mic.opened, d.mic.busy, d.mic.bf, d.curInpFreq⟩

/-- What an event shows of the microphone stream. -/
def MicShape.shown (b : Build) (m : MicShape) : Event → List Io
  | .writePass =>
    let need := (getInpPacketSize b m.freq).toNat
    if m.opened && !m.busy then
      [.fill m.bf.mainHalf.toNat 0 (List.replicate need 0)
        ((List.range need).map (m.bf.mainHalf.toNat + ·))]
    else []
  | .inCallback =>
    [.startWrite audioInpEp .writeBuffer m.bf.mainHalf.toNat m.bf.count
      (List.replicate m.bf.count.toNat 0)]
  | _ => []

theorem shown_tx {b : Build} {d : Device} {q : List UInt8} (h : Wired b d) (hq : d.outRb.Holds q)
    (e : Event) : shown .tx (step b d e).2 = d.micShape.shown b e := by
  rcases eq_or_ne e .writePass with rfl | hw
  · rw [step, writePass_io h hq]
    simp only [MicShape.shown]
    by_cases hf : d.mic.filling = true
    · have hf' : (d.micShape.opened && !d.micShape.busy) = true := hf
      rw [if_pos hf, if_pos hf']
      simp [shown, Io.shownOf, Device.needLen, Device.micShape]
    · have hf' : ¬ (d.micShape.opened && !d.micShape.busy) = true := hf
      rw [if_neg hf, if_neg hf']
      rfl
  · rcases eq_or_ne e .inCallback with rfl | hc
    · rw [step, inCallback_io h]
      simp [shown, Io.shownOf, MicShape.shown, Device.micShape]
    · have hno := not_ofMic (b := b) (d := d) hw hc
      have hnil : shown .tx (step b d e).2 = [] := by
        rw [shown, List.flatMap_eq_nil_iff]
        intro io hio
        have hio' := hno io hio
        cases io with
        | startWrite ep buf off len data => exact if_neg hio'
        | fill off carried data stores => exact absurd trivial hio'
        | _ => rfl
      rw [hnil]
      cases e with
      | writePass => exact absurd rfl hw
      | inCallback => exact absurd rfl hc
      | _ => rfl

/-- Other streams' events leave the microphone alone, but for its contents. -/
theorem micShape_other {b : Build} {d : Device} (h : Running b d) {e : Event}
    (he : e.concerns b .tx = false) :
    (step b d e).1.micShape = d.micShape ∧ d.micShape.shown b e = [] := by
  obtain ⟨hw, q, hq⟩ := h
  have hmic := mic_step hw hq.holds e
  have hfreq : (step b d e).1.curInpFreq = (d.rates.step b e).curInpFreq :=
    congrArg Rates.curInpFreq (rates_step b d e)
  simp only [Device.micShape, hmic, hfreq]
  cases e with
  | openIntf intf =>
    have hi : intf ≠ 2 := by simpa [Event.concerns] using he
    exact ⟨by simp [Mic.step, hi, Rates.step, Device.rates], rfl⟩
  | closeIntf intf =>
    have hi : intf = 1 := by simpa [Event.concerns] using he
    exact ⟨by simp [Mic.step, hi, Rates.step, Device.rates], rfl⟩
  | setSamplingFreq entityId epCh freq =>
    have hsel : selectsInp b entityId epCh = false := he
    refine ⟨?_, rfl⟩
    simp only [Mic.step, Rates.step, hsel, Bool.false_eq_true, if_false]
    split_ifs <;> rfl
  | inCallback => cases he
  | writePass => cases he
  | _ => exact ⟨rfl, rfl⟩

/-- The microphone stream, but for its contents, goes by its own events. -/
theorem micShape_own {b : Build} {d d' : Device} (h : Running b d) (h' : Running b d')
    (heq : d.micShape = d'.micShape) (e : Event) :
    (step b d e).1.micShape = (step b d' e).1.micShape := by
  obtain ⟨hw, q, hq⟩ := h
  obtain ⟨hw', q', hq'⟩ := h'
  have hfreq : (step b d e).1.curInpFreq = (d.rates.step b e).curInpFreq :=
    congrArg Rates.curInpFreq (rates_step b d e)
  have hfreq' : (step b d' e).1.curInpFreq = (d'.rates.step b e).curInpFreq :=
    congrArg Rates.curInpFreq (rates_step b d' e)
  obtain ⟨ho, hb, hbf, hf⟩ := MicShape.mk.inj heq
  have hneed : d.needLen b = d'.needLen b := by rw [Device.needLen, Device.needLen, hf]
  simp only [Device.micShape, mic_step hw hq.holds e, mic_step hw' hq'.holds e, hfreq, hfreq']
  cases e with
  | openIntf intf =>
    simp only [Mic.step, Rates.step, Device.rates]
    split_ifs <;> simp only [ho, hb, hbf, hf]
  | closeIntf intf =>
    simp only [Mic.step, Rates.step, Device.rates]
    split_ifs <;> simp only [ho, hb, hbf, hf]
  | writePass =>
    simp only [Mic.step, Rates.step, Device.rates, Mic.filling, length_micPacket, ho, hb, hneed]
    split_ifs <;> simp only [ho, hb, hbf, hf]
  | setSamplingFreq entityId epCh freq =>
    simp only [Mic.step, Rates.step, Device.rates]
    split_ifs <;> simp only [ho, hb, hbf, hf]
  | inCallback => simp only [Mic.step, Rates.step, Device.rates, ho, hbf, hf]
  | _ => simp only [Mic.step, Rates.step, Device.rates, ho, hb, hbf, hf]

/-! ### The feedback -/

/-- What an event shows of the feedback endpoint, when its value is `rate`. -/
def shownFb (b : Build) (rate : UInt32) : Event → List Io
  | .inFbCallback =>
    if b.hasFeedback then
      [.startWrite audioOfbEp .feedbackBuffer 0 (feedbackBytes b rate).length.toUInt32
        (feedbackBytes b rate)]
    else []
  | _ => []

theorem shown_fb (b : Build) (d : Device) (e : Event) :
    shown .fb (step b d e).2 = shownFb b d.curFeedbackRate e := by
  cases e with
  | openIntf intf =>
    simp only [step, usbdAudioOpen]
    split_ifs <;> rfl
  | closeIntf intf =>
    simp only [step, usbdAudioClose]
    split_ifs <;> rfl
  | inFbCallback =>
    simp only [step, shownFb]
    split_ifs
    · have hlen : (feedbackBytes b d.curFeedbackRate).length.toUInt32.toNat =
          (feedbackBytes b d.curFeedbackRate).length := by cases b <;> rfl
      simp [usbdAudioInFbCallback, usbdEpStartWrite, shown, Io.shownOf, hlen, slice_overlay]
    · rfl
  | inCallback => simp [step, usbdAudioInCallback, usbdEpStartWrite, shown, Io.shownOf, shownFb,
      audioInpEp, audioOfbEp]
  | readPass =>
    simp only [step, readPass, readSamples]
    split_ifs <;> rfl
  | writePass =>
    simp only [step, writePass, writeSamples]
    split_ifs <;> rfl
  | feedbackPass =>
    simp only [step, feedbackPass, writeFeedback]
    split_ifs <;> rfl
  | _ => rfl

/-! ### A stream on its own -/

/-- Only the microphone's own passes can fill. -/
theorem fillFits_other {b : Build} {f : EpFlag} (hf : f ≠ .tx) (d : Device) {e : Event}
    (he : e.concerns b f = true) : FillFits b d e := by
  rintro rfl
  cases f with
  | tx => exact absurd rfl hf
  | _ => cases he

/-- Whether packets fit at an event is in view of the microphone. -/
theorem packetsFit_micShape {b : Build} {d d' : Device} (heq : d.micShape = d'.micShape) {e : Event}
    (h : PacketsFit b d e) : PacketsFit b d' e := by
  obtain ⟨ho, hb, -, hf⟩ := MicShape.mk.inj heq
  refine ⟨h.1, fun hw hfill => ?_⟩
  rw [← hf]
  refine h.2 hw ?_
  rw [Mic.filling, ho, hb]
  exact hfill

/-- CORRECT: in a run in which packets fit, what is done for a stream (the transfers armed for it
    and handed over with their places and lengths, the bytes drained, the stores of the packets
    built, the contents of the feedback) is what is done in the run of its own events alone, in
    which packets fit as well. -/
theorem stream_alone (b : Build) (f : EpFlag) (es : List Event)
    (hfit : Along (step b) (PacketsFit b) (initial b) es) :
    Along (step b) (PacketsFit b) (initial b) (es.filter (Event.concerns b f)) ∧
      (outputs (step b) (initial b) es).flatMap (shown f) =
        (outputs (step b) (initial b) (es.filter (Event.concerns b f))).flatMap (shown f) := by
  have hrun := running_initial b
  have hstep : ∀ d e, Running b d → Running b (step b d e).1 := running_step
  cases f with
  | rx =>
    refine unwinding (v := Device.speaker) hstep ?_ ?_ hrun hrun rfl hfit
    · intro d e hd he
      rw [(speaker_step hd.1 e).1, shown_rx hd.1]
      exact speaker_other he
    · intro d d' e hd hd' heq he hP
      rw [(speaker_step hd.1 e).1, (speaker_step hd'.1 e).1, shown_rx hd.1, shown_rx hd'.1, heq]
      exact ⟨⟨hP.1, fillFits_other (by decide) d' he⟩, rfl, rfl⟩
  | tx =>
    refine unwinding (v := Device.micShape) hstep ?_ ?_ hrun hrun rfl hfit
    · rintro d e hd he
      obtain ⟨q, hq⟩ := hd.2
      rw [shown_tx hd.1 hq.holds]
      exact micShape_other hd he
    · rintro d d' e hd hd' heq - hP
      obtain ⟨q, hq⟩ := hd.2
      obtain ⟨q', hq'⟩ := hd'.2
      rw [shown_tx hd.1 hq.holds, shown_tx hd'.1 hq'.holds, heq]
      exact ⟨packetsFit_micShape heq hP, micShape_own hd hd' heq e, rfl⟩
  | fb =>
    have hrate : ∀ d e, (step b d e).1.curFeedbackRate = (d.rates.step b e).curFeedbackRate :=
      fun d e => congrArg Rates.curFeedbackRate (rates_step b d e)
    refine unwinding (v := Device.curFeedbackRate) hstep ?_ ?_ hrun hrun rfl hfit
    · intro d e _ he
      rw [hrate, shown_fb]
      cases e with
      | inFbCallback => cases he
      | setSamplingFreq entityId epCh freq =>
        have hsel : selectsOut b entityId epCh = false := he
        simp only [Rates.step, hsel, Bool.false_eq_true, if_false]
        split_ifs <;> exact ⟨rfl, rfl⟩
      | _ => exact ⟨rfl, rfl⟩
    · intro d d' e _ _ heq he hP
      rw [hrate, hrate, shown_fb, shown_fb, heq]
      refine ⟨⟨hP.1, fillFits_other (by decide) d' he⟩, ?_, rfl⟩
      cases e with
      | setSamplingFreq entityId epCh freq =>
        simp only [Rates.step]
        split_ifs <;> first | rfl | exact heq
      | _ => exact heq

/-- The speaker of a loop through both streams, beside the speaker alone. -/
theorem stream_alone_speaker :
    let es : List Event := [.setSamplingFreq 0 audioInpEp 48000, .openIntf 2, .openIntf 1,
      .writePass, .outCallback [13, 14, 15], .inCallback, .readPass, .writePass, .inCallback]
    Along (step .fs) (PacketsFit .fs) (initial .fs) (es.filter (Event.concerns .fs .rx)) ∧
      (outputs (step .fs) (initial .fs) es).flatMap (shown .rx) =
        (outputs (step .fs) (initial .fs) [.openIntf 1, .outCallback [13, 14, 15],
          .readPass]).flatMap (shown .rx) :=
  stream_alone .fs .rx [.setSamplingFreq 0 audioInpEp 48000, .openIntf 2, .openIntf 1, .writePass,
    .outCallback [13, 14, 15], .inCallback, .readPass, .writePass, .inCallback] (by decide)

end AudioCard
