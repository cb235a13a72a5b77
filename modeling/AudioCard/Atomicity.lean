import AudioCard.Ownership

/-! When a routine of the main loop may be taken for one step.

    The events of `Event` run to their end one after the other, while on the device a callback may
    come between any two steps of a routine. A callback that changes nothing the routine has looked
    at so far commutes with the steps behind it, and may be taken before the routine instead
    (`move_irq`). `interleaved_is_atomic` makes a run of passes and callbacks, one at a time, out of
    every run in which all callbacks come like that: what holds of the one holds of the other. -/

namespace AudioCard
open Segment Flags Run Sections

/-- The event opens or closes stream `f`, completes a transfer of it, or changes the size of its
    packets. -/
def Event.touches (b : Build) : EpFlag → Event → Bool
  | .rx, .openIntf intf | .fb, .openIntf intf => intf = 1
  | .tx, .openIntf intf => intf = 2
  | .rx, .closeIntf intf | .fb, .closeIntf intf => intf = 1
  | .tx, .closeIntf intf => intf ≠ 1
  | .rx, .outCallback _ | .tx, .inCallback | .fb, .inFbCallback => true
  | .tx, .setSamplingFreq entityId epCh _ => selectsInp b entityId epCh
  | _, _ => false

/-- The event completes a transfer of stream `f`. -/
def Event.completes : EpFlag → Event → Bool
  | .rx, .outCallback _ | .tx, .inCallback | .fb, .inFbCallback => true
  | _, _ => false

/-- The event closes stream `f`. -/
def Event.closes : EpFlag → Event → Bool
  | .rx, .closeIntf intf | .fb, .closeIntf intf => intf = 1
  | .tx, .closeIntf intf => intf ≠ 1
  | _, _ => false

/-- The event changes nothing that the main loop, being where it is, has looked at in its routine:
    it does not close the stream. It comes before the test of the busy bit, or has nothing to do
    with the stream, or completes a transfer before anything but the busy bit has been looked at.
    Between the load and the store of `ep_busy_flag` it leaves the byte as it is. -/
structure Event.Unseen (b : Build) (e : Event) (s : Cpu) : Prop where
  closes : ∀ f, s.pc.routine = some f → e.closes f = false
  touches : ∀ f, s.pc.routine = some f → s.pc ≠ .test f → e.touches b f = true →
    s.pc = .body f ∧ e.completes f = true
  busy : ∀ f v, s.pc = .store f v → (step b s.dev e).1.epBusyFlag = s.dev.epBusyFlag

/-- A callback comes only where it changes nothing that has been looked at, and packets fit, those
    received and those to send. -/
def Calm (b : Build) (s : Cpu) : CpuEvent → Prop
  | .main => SizesFit b s .main
  | .irq e he => SizesFit b s (.irq e he) ∧ e.Unseen b s

/-! ### What an event leaves alone -/

theorem outRb_store (i : ℕ) (l : List UInt8) (d : Device) (rb : RingBuf) :
    controllerStore i l { d with outRb := rb } = { controllerStore i l d with outRb := rb } := by
  rcases d with ⟨_, _, _, _, _, _, _, _, _, - | t⟩ <;> rfl

/-- No callback looks at the ring. -/
theorem irq_outRb {b : Build} {e : Event} (he : e.isPass = false) (d : Device) (rb : RingBuf) :
    step b { d with outRb := rb } e = ({ (step b d e).1 with outRb := rb }, (step b d e).2) := by
  cases e with
  | openIntf intf =>
    simp only [step, usbdAudioOpen]
    split_ifs <;> rfl
  | closeIntf intf =>
    simp only [step, usbdAudioClose]
    split_ifs <;> rfl
  | outCallback pkt =>
    simp only [step, outRb_store]
    rfl
  | inCallback => rfl
  | inFbCallback =>
    simp only [step]
    split_ifs <;> rfl
  | setSamplingFreq entityId epCh freq =>
    simp only [step, usbdAudioSetSamplingFreq]
    cases b <;> simp only <;> split_ifs <;> rfl
  | dma i v =>
    simp only [step, outRb_store]
    change (if inArmed i d then _ else _, _) = _
    split_ifs <;> rfl
  | _ => cases he

theorem outRb_irq {b : Build} {e : Event} (he : e.isPass = false) (d : Device) :
    (step b d e).1.outRb = d.outRb := by
  have h := irq_outRb (b := b) he d d.outRb
  rw [show ({ d with outRb := d.outRb } : Device) = d from rfl] at h
  rw [h]

/-- What `write_samples` changes before it sets the busy bit. -/
def Device.put (d : Device) (rb : RingBuf) (mem : Bytes) (n : UInt32) : Device :=
  { d with
    outRb := rb
    mem := Function.update d.mem .writeBuffer mem
    writeBf := { d.writeBf with count := n } }

theorem put_store {i : ℕ} {l : List UInt8} {d : Device}
    (h : ∀ t, d.armed = some t → t.buf = .readBuffer) (rb : RingBuf) (mem : Bytes) (n : UInt32) :
    controllerStore i l (d.put rb mem n) = (controllerStore i l d).put rb mem n := by
  rcases d with ⟨_, _, _, _, _, _, _, _, _, - | t⟩
  · rfl
  · have hbuf : t.buf ≠ .writeBuffer := by
      rw [h t rfl]
      decide
    simp only [controllerStore, Device.put, ne_eq, hbuf, not_false_eq_true, Function.update_of_ne]
    rw [Function.update_comm hbuf]

/-- An event that has nothing to do with the microphone stream does not look at what `write_samples`
    changes. -/
theorem irq_put {b : Build} {d : Device} {e : Event} (h : Wired b d) (he : e.isPass = false)
    (ht : e.touches b .tx = false) (rb : RingBuf) (mem : Bytes) (n : UInt32) :
    step b (d.put rb mem n) e = ((step b d e).1.put rb mem n, (step b d e).2) := by
  cases e with
  | openIntf intf =>
    simp only [Event.touches, decide_eq_false_iff_not] at ht
    simp only [step, usbdAudioOpen, ht, if_false]
    split_ifs <;> rfl
  | closeIntf intf =>
    simp only [Event.touches, decide_eq_false_iff_not, not_not] at ht
    simp only [step, usbdAudioClose, ht]
    split_ifs <;> rfl
  | outCallback pkt =>
    simp only [step, put_store h.armed]
    rfl
  | inCallback => cases ht
  | inFbCallback =>
    simp only [step]
    split_ifs
    · simp only [usbdAudioInFbCallback, usbdEpStartWrite, Device.put, ne_eq, reduceCtorEq,
        not_false_eq_true, Function.update_of_ne]
      rw [Function.update_comm (by decide)]
      simp
    · rfl
  | setSamplingFreq entityId epCh freq =>
    simp only [step, usbdAudioSetSamplingFreq]
    cases b <;> simp only <;> split_ifs <;> rfl
  | dma i v =>
    simp only [step, put_store h.armed]
    change (if inArmed i d then _ else _, _) = _
    split_ifs <;> rfl
  | _ => cases he

/-- An event that does not close a stream leaves it open. -/
theorem enters_irq {b : Build} {d : Device} {e : Event} {f : EpFlag} (hc : e.closes f = false)
    (h : d.enters b f) : (step b d e).1.enters b f := by
  refine ⟨h.1, ?_⟩
  have hopen : isSet d.openFlag f.mask = true := h.2
  change isSet (step b d e).1.flags.openFlag f.mask = true
  rw [flags_step]
  cases e with
  | openIntf intf =>
    simp only [FlagBytes.step]
    split_ifs <;> simp [Device.flags, hopen]
  | closeIntf intf =>
    simp only [FlagBytes.step]
    cases f <;> simp only [Event.closes, decide_eq_false_iff_not, not_not] at hc <;>
      split_ifs <;> simp_all [Device.flags]
  | inFbCallback =>
    simp only [FlagBytes.step]
    split_ifs <;> exact hopen
  | feedbackPass =>
    simp only [FlagBytes.step]
    split_ifs
    · rw [pass_openFlag]
      exact hopen
    · exact hopen
  | readPass =>
    rw [FlagBytes.step, pass_openFlag]
    exact hopen
  | writePass =>
    rw [FlagBytes.step, pass_openFlag]
    exact hopen
  | _ => exact hopen

/-- A busy bit that is clear stays clear, if what happens to the stream is only that a transfer of
    it is completed. -/
theorem busy_irq {b : Build} {d : Device} {e : Event} {f : EpFlag} (he : e.isPass = false)
    (ht : e.touches b f = true → e.completes f = true)
    (h : isSet d.epBusyFlag f.mask = false) : isSet (step b d e).1.epBusyFlag f.mask = false := by
  change isSet (step b d e).1.flags.epBusyFlag f.mask = false
  rw [flags_step]
  cases e with
  | openIntf intf =>
    simp only [FlagBytes.step]
    cases f <;> simp only [Event.touches, Event.completes, decide_eq_true_eq] at ht <;>
      split_ifs <;> simp_all [Device.flags]
  | closeIntf intf =>
    simp only [FlagBytes.step]
    split_ifs <;> simp [Device.flags, h]
  | outCallback pkt => simp [FlagBytes.step, Device.flags, h]
  | inCallback => simp [FlagBytes.step, Device.flags, h]
  | inFbCallback =>
    simp only [FlagBytes.step]
    split_ifs <;> simp [Device.flags, h]
  | setSamplingFreq entityId epCh freq => exact h
  | dma i v => exact h
  | _ => cases he

/-- What `read_samples` will still copy lies in the half that `buffer_pos` gives the main loop. -/
def Pc.OnMainHalf (bf : DblBuffer) : Pc → Prop
  | .rsLen data => data = bf.mainHalf.toNat
  | .rsHead data len => data = bf.mainHalf.toNat ∧ len.toNat ≤ bf.halfsize.toNat
  | .rsCopy _ _ src n =>
    bf.mainHalf.toNat ≤ src ∧ src + n ≤ bf.mainHalf.toNat + bf.halfsize.toNat
  | _ => True

/-- What `audio_test` has set up, the controller working on the half that `buffer_pos` says, and the
    main loop copying out of the other one. -/
structure Sound (b : Build) (s : Cpu) : Prop where
  wired : Wired b s.dev
  armed : ∀ t, s.dev.armed = some t →
    t.off = s.dev.readBf.usbHalf.toNat ∧ t.len = s.dev.readBf.halfsize
  count : s.dev.readBf.count.toNat ≤ s.dev.readBf.halfsize.toNat
  copies : s.pc.OnMainHalf s.dev.readBf

/-- An event that has nothing to do with the speaker stream leaves its double buffer alone, and the
    bytes of the main loop's half. -/
theorem rx_irq {b : Build} {d : Device} {e : Event} (hw : Wired b d)
    (harmed : ∀ t, d.armed = some t → t.off = d.readBf.usbHalf.toNat ∧ t.len = d.readBf.halfsize)
    (he : e.isPass = false) (ht : e.touches b .rx = false) :
    (step b d e).1.readBf = d.readBf ∧ ∀ src, d.readBf.mainHalf.toNat ≤ src →
      src < d.readBf.mainHalf.toNat + d.readBf.halfsize.toNat →
      (step b d e).1.mem .readBuffer src = d.mem .readBuffer src := by
  change (step b d e).1.speaker.bf = d.speaker.bf ∧ ∀ src, _ → _ →
    (step b d e).1.speaker.bytes src = d.speaker.bytes src
  rw [(speaker_step hw e).1]
  cases e with
  | openIntf intf =>
    simp only [Event.touches, decide_eq_false_iff_not] at ht
    rw [Speaker.step, if_neg ht]
    exact ⟨rfl, fun _ _ _ => rfl⟩
  | closeIntf intf =>
    simp only [Event.touches, decide_eq_false_iff_not] at ht
    rw [Speaker.step, if_neg ht]
    exact ⟨rfl, fun _ _ _ => rfl⟩
  | outCallback pkt => cases ht
  | dma i v =>
    simp only [Speaker.step]
    split_ifs with hi
    · refine ⟨store_bf _ _ _, fun src hlo hhi => ?_⟩
      rcases hta : d.speaker.armed with - | t
      · rw [Speaker.store, hta]
      · obtain ⟨hoff, hlen⟩ := harmed t hta
        simp only [hta, Option.map_some, Option.getD_some, decide_eq_true_eq, hlen] at hi
        rw [store_bytes hta, hoff]
        have hi1 : i + 1 ≤ d.readBf.halfsize.toNat := hi
        rcases halves_disjoint d.readBf (Nat.le_refl _) hi1 with hlt | hge
        · exact overlay_of_lt (by omega)
        · exact overlay_of_ge (by simpa using Nat.le_trans hge hlo)
    · exact ⟨rfl, fun _ _ _ => rfl⟩
  | inCallback => exact ⟨rfl, fun _ _ _ => rfl⟩
  | inFbCallback => exact ⟨rfl, fun _ _ _ => rfl⟩
  | setSamplingFreq entityId epCh freq => exact ⟨rfl, fun _ _ _ => rfl⟩
  | _ => cases he

/-- An event that has nothing to do with the microphone stream leaves its double buffer alone, and
    the size of its packets. -/
theorem tx_irq {b : Build} {d : Device} {e : Event} (hw : Wired b d) (he : e.isPass = false)
    (ht : e.touches b .tx = false) : (step b d e).1.writeBf = d.writeBf ∧
      (step b d e).1.mem .writeBuffer = d.mem .writeBuffer ∧
      (step b d e).1.curInpFreq = d.curInpFreq := by
  have hne : e ≠ .writePass := by
    rintro rfl
    cases he
  have hmic := mic_step_of_ne hw hne []
  have hrates := congrArg Rates.curInpFreq (rates_step b d e)
  have hsame : d.mic.step [] e = d.mic ∧ (d.rates.step b e).curInpFreq = d.curInpFreq := by
    cases e with
    | openIntf intf =>
      simp only [Event.touches, decide_eq_false_iff_not] at ht
      exact ⟨if_neg ht, rfl⟩
    | closeIntf intf =>
      simp only [Event.touches, decide_eq_false_iff_not, not_not] at ht
      exact ⟨if_pos ht, rfl⟩
    | inCallback => cases ht
    | setSamplingFreq entityId epCh freq =>
      have hsel : selectsInp b entityId epCh = false := ht
      refine ⟨rfl, ?_⟩
      simp only [Rates.step, hsel, Bool.false_eq_true, if_false]
      split_ifs <;> rfl
    | writePass => exact absurd rfl hne
    | _ => exact ⟨rfl, rfl⟩
  rw [hsame.1] at hmic
  exact ⟨congrArg Mic.bf hmic, congrArg Mic.bytes hmic, hrates.trans hsame.2⟩

/-! ### What a routine looks at -/

/-- The stream whose data the next step works on. -/
def Pc.works : Pc → Option EpFlag
  | .rsHalf | .rsLen _ | .rsHead _ _ | .rsCopy _ _ _ _ => some .rx
  | .wsHalf | .wsNeed _ | .wsHead _ _ | .wsCopy _ _ _ _ _ _ | .wsCount _ _ _ | .wsPad _ _
  | .wsZero _ _ _ _ => some .tx
  | _ => none

/-- `read_samples` looks at the ring, its double buffer and the byte it copies, and changes the
    ring. -/
theorem main_rx {b : Build} {d d' : Device} {pc : Pc} (hpc : pc.works = some .rx)
    (hrb : d'.outRb = d.outRb) (hbf : d'.readBf = d.readBf)
    (hbyte : ∀ data end_ src n, pc = .rsCopy data end_ src (n + 1) →
      d'.mem d.readBf.buffer src = d.mem d.readBf.buffer src) :
    ∃ rb pc', mainStep b d pc = ({ d with outRb := rb }, pc') ∧
      mainStep b d' pc = ({ d' with outRb := rb }, pc') := by
  cases pc with
  | rsHalf => exact ⟨d.outRb, _, rfl, by rw [mainStep, ← hbf, ← hrb]⟩
  | rsLen data => exact ⟨d.outRb, _, rfl, by rw [mainStep, ← hbf, ← hrb]⟩
  | rsHead data len =>
    simp only [mainStep, hrb]
    split
    · exact ⟨d.outRb, _, rfl, by rw [← hrb]⟩
    · exact ⟨_, _, rfl, rfl⟩
  | rsCopy data end_ src n =>
    cases n with
    | zero => exact ⟨_, _, rfl, by simp only [mainStep, hrb]⟩
    | succ n =>
      refine ⟨_, _, rfl, ?_⟩
      simp only [mainStep, writeBody, hrb, hbf, hbyte data end_ src n rfl]
  | _ => cases hpc

/-- `write_samples` looks at the ring, its double buffer and the size of the packets, and changes
    the ring, `write_buffer` and the length of the packet. -/
theorem main_tx {b : Build} {d d' : Device} {pc : Pc} (hpc : pc.works = some .tx) (hw : Wired b d)
    (hrb : d'.outRb = d.outRb) (hbf : d'.writeBf = d.writeBf)
    (hmem : d'.mem .writeBuffer = d.mem .writeBuffer) (hfreq : d'.curInpFreq = d.curInpFreq) :
    ∃ rb mem n pc', mainStep b d pc = (d.put rb mem n, pc') ∧
      mainStep b d' pc = (d'.put rb mem n, pc') := by
  -- a change of one of the three, on either side
  have hring : ∀ rb, { d with outRb := rb } = d.put rb (d.mem .writeBuffer) d.writeBf.count := by
    intro rb
    simp only [Device.put, Function.update_eq_self]
  have hring' : ∀ rb, { d' with outRb := rb } = d'.put rb (d.mem .writeBuffer) d.writeBf.count := by
    intro rb
    rw [← hbf, ← hmem]
    simp only [Device.put, Function.update_eq_self]
  have hbytes' : ∀ mem, { d' with
      outRb := d.outRb
      writeBf := d.writeBf
      mem := Function.update d'.mem .writeBuffer mem } = d'.put d.outRb mem d.writeBf.count := by
    intro mem
    rw [← hbf]
    rfl
  have hcount : ∀ n, { d with writeBf := { d.writeBf with count := n } } =
      d.put d.outRb (d.mem .writeBuffer) n := by
    intro n
    simp only [Device.put, Function.update_eq_self]
  have hcount' : ∀ n, { d' with writeBf := { d'.writeBf with count := n } } =
      d'.put d.outRb (d.mem .writeBuffer) n := by
    intro n
    rw [← hrb, ← hmem]
    simp only [Device.put, Function.update_eq_self]
  have hself : d = d.put d.outRb (d.mem .writeBuffer) d.writeBf.count := hring d.outRb
  have hself' : d' = d'.put d.outRb (d.mem .writeBuffer) d.writeBf.count := by
    rw [← hring', ← hrb]
  cases pc with
  | wsHalf =>
    refine ⟨_, _, _, _, congrArg (·, _) hself, ?_⟩
    rw [mainStep, hbf]
    exact congrArg (·, _) hself'
  | wsNeed data =>
    refine ⟨_, _, _, _, congrArg (·, _) hself, ?_⟩
    rw [mainStep, hfreq]
    exact congrArg (·, _) hself'
  | wsHead data needLen =>
    simp only [mainStep, hrb]
    split
    · exact ⟨_, _, _, _, congrArg (·, _) hself, congrArg (·, _) hself'⟩
    · exact ⟨_, _, _, _, congrArg (·, _) (hring _), congrArg (·, _) (hring' _)⟩
  | wsCopy data needLen ret start dst n =>
    cases n with
    | zero =>
      refine ⟨_, _, _, _, congrArg (·, _) (hring _), ?_⟩
      rw [mainStep, hrb]
      exact congrArg (·, _) (hring' _)
    | succ n =>
      simp only [mainStep, hrb, hbf, hmem, hw.writePtr]
      exact ⟨d.outRb, _, d.writeBf.count, _, rfl, congrArg (·, _) (hbytes' _)⟩
  | wsCount data needLen ret =>
    exact ⟨_, _, _, _, congrArg (·, _) (hcount ret), congrArg (·, _) (hcount' ret)⟩
  | wsPad data needLen =>
    refine ⟨_, _, _, _, congrArg (·, _) hself, ?_⟩
    rw [mainStep, hbf]
    exact congrArg (·, _) hself'
  | wsZero data needLen dst n =>
    cases n with
    | zero => exact ⟨_, _, _, _, congrArg (·, _) (hcount _), congrArg (·, _) (hcount' _)⟩
    | succ n =>
      simp only [mainStep, hbf, hmem, hw.writePtr]
      refine ⟨d.outRb, _, d.writeBf.count, _, rfl, ?_⟩
      rw [← hbytes', ← hrb]
  | _ => cases hpc

/-- Where a step on the data of a stream leads to. -/
theorem works_main {b : Build} {d : Device} {pc : Pc} {f : EpFlag} (h : pc.works = some f) :
    pc.routine = some f ∧ (mainStep b d pc).2.routine = some f ∧
      (mainStep b d pc).2 ≠ .test f ∧ (mainStep b d pc).2 ≠ .body f := by
  cases pc with
  | rsHead data len => cases h; simp only [mainStep]; split <;> simp [Pc.routine, Pc.body]
  | rsCopy data end_ src n => cases h; cases n <;> simp [mainStep, Pc.routine, Pc.body]
  | wsHead data needLen => cases h; simp only [mainStep]; split <;> simp [Pc.routine, Pc.body]
  | wsCopy data needLen ret start dst n =>
    cases h; cases n <;> simp [mainStep, Pc.routine, Pc.body]
  | wsPad data needLen => cases h; simp only [mainStep]; split <;> simp [Pc.routine, Pc.body]
  | wsZero data needLen dst n => cases h; cases n <;> simp [mainStep, Pc.routine, Pc.body]
  | rsHalf | rsLen | wsHalf | wsNeed | wsCount => cases h; simp [mainStep, Pc.routine, Pc.body]
  | _ => cases h

/-- The main loop leaves alone what `Sound` is about, and copies on within its half. -/
theorem sound_main {b : Build} {s : Cpu} (h : Sound b s) : Sound b (s.step b .main).1 := by
  obtain ⟨d, pc⟩ := s
  obtain ⟨hw, harmed, hcount, hcopies⟩ := h
  obtain ⟨-, ha, hbf, -⟩ := main_keeps b d pc
  dsimp only at hw harmed hcount hcopies
  simp only [Cpu.step]
  refine ⟨wired_main hw pc, ?_, ?_, ?_⟩
  · rw [ha, hbf]
    exact harmed
  · rw [hbf]
    exact hcount
  · rw [hbf]
    cases pc with
    | rsHalf => rfl
    | rsLen data => exact ⟨hcopies, hcount⟩
    | rsHead data len =>
      obtain ⟨rfl, hlen⟩ := hcopies
      simp only [mainStep]
      split
      · trivial
      · refine ⟨Nat.le_refl _, ?_⟩
        rw [toNat_writeLen]
        omega
    | rsCopy data end_ src n =>
      obtain ⟨hlo, hhi⟩ := hcopies
      cases n with
      | zero => trivial
      | succ n =>
        refine ⟨Nat.le_succ_of_le hlo, ?_⟩
        simp only [writeBody]
        omega
    | top => simp only [mainStep]; split <;> trivial
    | opened f => simp only [mainStep]; split <;> cases f <;> trivial
    | test f => simp only [mainStep]; split <;> cases f <;> trivial
    | wsHead data needLen => simp only [mainStep]; split <;> trivial
    | wsCopy data needLen ret start dst n => cases n <;> trivial
    | wsPad data needLen => simp only [mainStep]; split <;> trivial
    | wsZero data needLen dst n => cases n <;> trivial
    | store f v => cases f <;> trivial
    | _ => trivial

/-- An event that fits keeps what `Sound` says of the card. -/
theorem sound_irq {b : Build} {s : Cpu} {e : Event} (h : Sound b s) (he : e.isPass = false)
    (hfit : e.Fits b) (hout : s.pc.routine = none) : Sound b (s.step b (.irq e he)).1 := by
  obtain ⟨d, pc⟩ := s
  obtain ⟨hw, harmed, hcount, -⟩ := h
  have hw' := wired_step hw e
  have harmed' := usbHalf_armed_step (s := d.speaker) harmed e
  have hle : d.readBf.count ≤ audioOutPacketSz b := by
    rw [UInt32.le_iff_toNat_le, ← hw.readHalf]
    exact hcount
  have hle' := UInt32.le_iff_toNat_le.mp (readCount_irq hw he hfit hle)
  rw [← (speaker_step hw e).1] at harmed'
  rw [← hw'.readHalf] at hle'
  refine ⟨hw', harmed', hle', ?_⟩
  cases pc <;> trivial

/-! ### One callback -/

/-- STEP: an event that changes nothing that has been looked at may be taken before the last step of
    the routine, with the same outcome. -/
theorem move_irq {b : Build} {e : Event} (he : e.isPass = false) {s : Cpu} (hs : Sound b s)
    (hin : (s.step b .main).1.Inside) (hu : e.Unseen b (s.step b .main).1) :
    e.Unseen b s ∧
      ((s.step b (.irq e he)).1.step b .main).1 = ((s.step b .main).1.step b (.irq e he)).1 ∧
      ((s.step b .main).1.step b (.irq e he)).2 = (s.step b (.irq e he)).2 := by
  obtain ⟨d, pc⟩ := s
  obtain ⟨hw, harmed, -, hcopies⟩ := hs
  dsimp only at hw harmed hcopies
  simp only [Cpu.step] at hin hu ⊢
  cases hworks : pc.works with
  | some f =>
    obtain ⟨hr, hr', htest, hbody⟩ := works_main (b := b) (d := d) hworks
    have ht : e.touches b f = false := by
      by_contra hne
      exact hbody (hu.touches f hr' htest (by simpa using hne)).1
    refine ⟨⟨?_, ?_, ?_⟩, ?_⟩
    · intro g hg
      cases hr.symm.trans hg
      exact hu.closes f hr'
    · intro g hg _ hgt
      cases hr.symm.trans hg
      rw [ht] at hgt
      cases hgt
    · rintro g v rfl
      cases hworks
    · cases f with
      | rx =>
        obtain ⟨hbf, hbytes⟩ := rx_irq hw harmed he ht
        obtain ⟨rb, pc', hd, hd'⟩ := main_rx (b := b) hworks (outRb_irq (b := b) he d) hbf (by
          rintro data end_ src n rfl
          rw [hw.readPtr]
          exact hbytes src hcopies.1 (by have := hcopies.2; omega))
        have hcomm := irq_outRb (b := b) he d rb
        have hans := congrArg Prod.snd hcomm
        rw [hd, hd']
        exact ⟨congrArg (fun r => (⟨r.1, pc'⟩ : Cpu)) hcomm.symm, hans⟩
      | tx =>
        obtain ⟨hbf, hmem, hfreq⟩ := tx_irq hw he ht
        obtain ⟨rb, mem, n, pc', hd, hd'⟩ :=
          main_tx (b := b) hworks hw (outRb_irq (b := b) he d) hbf hmem hfreq
        rw [hd, hd', irq_put hw he ht]
        exact ⟨rfl, rfl⟩
      | fb => cases pc <;> cases hworks
  | none =>
    cases pc with
    | opened f =>
      have hd := mainStep_opened b d f
      by_cases hent : d.enters b f
      · rw [if_pos hent] at hd
        rw [hd] at hu ⊢
        have hent' := enters_irq (hu.closes f rfl) hent
        refine ⟨⟨?_, ?_, ?_⟩, ?_, rfl⟩
        · rintro g ⟨⟩
        · rintro g ⟨⟩
        · rintro g v ⟨⟩
        · rw [mainStep_opened, if_pos hent']
      · rw [hd, if_neg hent] at hin
        cases f <;> cases hin
    | test f =>
      rcases Bool.eq_false_or_eq_true (isSet d.epBusyFlag f.mask) with hb | hclear
      · simp only [mainStep, hb, not_true_eq_false, if_false] at hin
        cases f <;> cases hin
      · have hd : mainStep b d (.test f) = (d, .body f) := by simp [mainStep, hclear]
        rw [hd] at hu ⊢
        have hr : (Pc.body f).routine = some f := by cases f <;> rfl
        have htest : Pc.body f ≠ .test f := by cases f <;> simp [Pc.body]
        have hclear' := busy_irq he (fun ht => (hu.touches f hr htest ht).2) hclear
        refine ⟨⟨?_, ?_, ?_⟩, ?_, rfl⟩
        · rintro g ⟨⟩
          exact hu.closes f hr
        · rintro g ⟨⟩ hne
          exact absurd rfl hne
        · rintro g v ⟨⟩
        · simp [mainStep, hclear']
    | load f =>
      have hbusy := hu.busy f d.epBusyFlag rfl
      refine ⟨⟨?_, ?_, ?_⟩, ?_, rfl⟩
      · rintro g ⟨⟩
        exact hu.closes f rfl
      · rintro g ⟨⟩ - ht
        obtain ⟨hpc, -⟩ := hu.touches f rfl (by simp [mainStep]) ht
        cases f <;> cases hpc
      · rintro g v ⟨⟩
      · simp only [mainStep] at hbusy ⊢
        rw [hbusy]
    | top =>
      simp only [mainStep] at hin
      split at hin <;> cases hin
    | store f v => cases f <;> cases hin
    | _ => cases hworks

/-! ### Runs -/

/-- The call starts a transfer. -/
def Io.isTransfer : Io → Bool
  | .startRead _ _ _ _ | .startWrite _ _ _ _ _ => true
  | _ => false

/-- The event from outside the main loop. -/
def CpuEvent.callback : CpuEvent → List Event
  | .main => []
  | .irq e _ => [e]

/-- A pass of the main loop starts no transfer. -/
theorem transfers_pass (b : Build) (d : Device) (f : EpFlag) :
    (step b d f.pass).2.filter Io.isTransfer = [] := by
  cases f with
  | rx =>
    simp only [step, EpFlag.pass, readPass, readSamples]
    split_ifs <;> rfl
  | tx =>
    simp only [step, EpFlag.pass, writePass, writeSamples]
    split_ifs <;> rfl
  | fb =>
    simp only [step, EpFlag.pass, feedbackPass, writeFeedback]
    split_ifs <;> rfl

/-- An event from outside the main loop does nothing but start transfers. -/
theorem transfers_irq {b : Build} {d : Device} {e : Event} (he : e.isPass = false) :
    (step b d e).2.filter Io.isTransfer = (step b d e).2 := by
  cases e with
  | openIntf intf =>
    simp only [step, usbdAudioOpen]
    split_ifs <;> rfl
  | closeIntf intf =>
    simp only [step, usbdAudioClose]
    split_ifs <;> rfl
  | inFbCallback =>
    simp only [step]
    split_ifs <;> rfl
  | readPass => cases he
  | writePass => cases he
  | feedbackPass => cases he
  | _ => rfl

/-- The card `d` is that of a run of passes and callbacks, and the main loop is outside its routines
    or some steps into one. -/
def Lagging (b : Build) (s : Cpu) (d : Device) : Prop :=
  ∃ o : Cpu, o.dev = d ∧ Sound b o ∧
    Since (fun s : Cpu => (s.step b .main).1) Cpu.Inside o s

theorem sound_reaches {b : Build} {s t : Cpu} (h : Sound b s) (hr : Reaches b s t) : Sound b t := by
  induction hr with
  | refl => exact h
  | tail _ hstep ih => exact hstep ▸ sound_main ih

/-- Where the first step of a section has led, if the section ends at `u`. -/
theorem pass_of_within {b : Build} {o u : Cpu} (ho : ¬ o.Inside) (hu : ¬ u.Inside)
    (h : Within (fun s : Cpu => (s.step b .main).1) Cpu.Inside (o.step b .main).1 u) :
    u.dev = o.dev ∨ ∃ f : EpFlag, u.dev = (step b o.dev f.pass).1 := by
  obtain ⟨d, pc⟩ := o
  cases pc with
  | top =>
    have hout : ¬ (Cpu.step b ⟨d, .top⟩ .main).1.Inside := by
      simp only [Cpu.step, mainStep, Cpu.Inside]
      split <;> simp [Pc.routine]
    rw [eq_of_within h hout]
    exact Or.inl rfl
  | opened f =>
    have hd := mainStep_opened b d f
    by_cases hent : d.enters b f
    · rw [if_pos hent] at hd
      have hexit : ¬ Cpu.Inside ⟨(step b d f.pass).1, .after f⟩ := by
        cases f <;> simp [Cpu.Inside, Pc.after, Pc.routine]
      simp only [Cpu.step, hd] at h
      rw [within_exit_unique h (runs_pass hent) hu hexit]
      exact Or.inr ⟨f, rfl⟩
    · rw [if_neg hent] at hd
      have hout : ¬ (Cpu.step b ⟨d, .opened f⟩ .main).1.Inside := by
        simp only [Cpu.step, hd]
        cases f <;> simp [Cpu.Inside, Pc.after, Pc.routine]
      rw [eq_of_within h hout]
      exact Or.inl (congrArg Prod.fst hd)
  | _ => exact absurd rfl ho

/-- STEP: a step of the main loop goes on in its routine, or completes a pass; a calm callback is
    taken before the routine. -/
theorem lagging_step {b : Build} {s : Cpu} {d : Device} {e : CpuEvent} (h : Lagging b s d)
    (hc : Calm b s e) : ∃ as : List Event,
      Lagging b (s.step b e).1 (final (step b) d as) ∧
      as.flatMap (fun e => [e].filter (!·.isPass)) = e.callback ∧
      (outputs (step b) d as).flatMap (·.filter Io.isTransfer) = id (s.step b e).2 := by
  obtain ⟨o, rfl, hsound, hsince⟩ := h
  cases e with
  | main =>
    rcases since_tick hsince with hsince' | ⟨hout, hw⟩
    · exact ⟨[], ⟨o, rfl, hsound, hsince'⟩, rfl, rfl⟩
    · have hsound' := sound_reaches (sound_main hsound) (reaches_of_within hw)
      rcases pass_of_within hsince.1 hout hw with hdev | ⟨f, hdev⟩
      · exact ⟨[], ⟨_, hdev, hsound', since_refl hout⟩, rfl, rfl⟩
      · refine ⟨[f.pass], ⟨_, hdev, hsound', since_refl hout⟩, ?_, ?_⟩
        · cases f <;> rfl
        · simp [transfers_pass, Cpu.step]
  | irq e he =>
    obtain ⟨hfit, hunseen⟩ := hc
    have hout : o.pc.routine = none := by
      simpa [Cpu.Inside] using hsince.1
    obtain ⟨-, hsince', hans⟩ := since_move (fun s : Cpu => s.step b (.irq e he)) (Sound b)
      (e.Unseen b) (fun _ => sound_main) (fun _ => Iff.rfl) (fun _ => move_irq he) hsince hsound
      hunseen
    refine ⟨[e], ⟨_, rfl, sound_irq hsound he hfit hout, hsince'⟩, ?_, ?_⟩
    · simp [he, CpuEvent.callback]
    · simp only [outputs_cons, outputs_nil, List.flatMap_cons, List.flatMap_nil, List.append_nil]
      rw [transfers_irq he]
      exact hans.symm

theorem lagging_start (b : Build) : Lagging b (Cpu.start b) (initial b) := by
  refine ⟨Cpu.start b, rfl, ⟨wired_initial b, ?_, Nat.zero_le _, trivial⟩, since_refl ?_⟩
  · intro t ht
    simp [Cpu.start, initial, audioTestInit, static] at ht
  · simp [Cpu.Inside, Cpu.start, Pc.routine]

/-- RUN: steps of the main loop and calm callbacks, as passes and callbacks one at a time. -/
theorem lagging_run {b : Build} {s : Cpu} {d : Device} {es : List CpuEvent} (h : Lagging b s d)
    (hc : Along (Cpu.step b) (Calm b) s es) : ∃ as : List Event,
      Lagging b (final (Cpu.step b) s es) (final (step b) d as) ∧
      as.filter (!·.isPass) = es.flatMap CpuEvent.callback ∧
      (outputs (step b) d as).flatten.filter Io.isTransfer =
        (outputs (Cpu.step b) s es).flatten := by
  obtain ⟨as, h', hkeys, houts⟩ := stuttering hc h fun _ _ _ => lagging_step
  refine ⟨as, h', ?_, ?_⟩
  · rw [← hkeys, ← List.filter_flatMap]
    simp
  · rw [List.filter_flatten, ← List.flatMap_def, houts]
    simp

theorem Lagging.eq_of_outside {b : Build} {s : Cpu} {d : Device} (h : Lagging b s d)
    (hout : s.pc.routine = none) : s.dev = d := by
  obtain ⟨o, rfl, -, hsince⟩ := h
  exact congrArg Cpu.dev (eq_of_since hsince (by simp [Cpu.Inside, hout]))

/-- REFINEMENT: every run in which packets fit and callbacks come between any two steps of the main
    loop, but change nothing that the routine at work has looked at, is a run of passes and
    callbacks one at a time: the same callbacks in the same order start the same transfers, and
    outside its routines the main loop finds the same card. -/
theorem interleaved_is_atomic (b : Build) (es : List CpuEvent)
    (h : Along (Cpu.step b) (Calm b) (Cpu.start b) es) : ∃ as : List Event,
      as.filter (!·.isPass) = es.flatMap CpuEvent.callback ∧
      (outputs (step b) (initial b) as).flatten.filter Io.isTransfer =
        (outputs (Cpu.step b) (Cpu.start b) es).flatten ∧
      (∃ pc, pc.routine = none ∧
        Reaches b ⟨final (step b) (initial b) as, pc⟩ (final (Cpu.step b) (Cpu.start b) es)) ∧
      ((final (Cpu.step b) (Cpu.start b) es).pc.routine = none →
        (final (Cpu.step b) (Cpu.start b) es).dev = final (step b) (initial b) as) := by
  obtain ⟨as, hlag, hkeys, houts⟩ := lagging_run (lagging_start b) h
  refine ⟨as, hkeys, houts, ?_, hlag.eq_of_outside⟩
  obtain ⟨⟨d, pc⟩, hdev, -, hsince⟩ := hlag
  dsimp only at hdev
  subst hdev
  exact ⟨pc, by simpa [Cpu.Inside] using hsince.1, reaches_of_since hsince⟩

/-- A packet is received; while `read_samples` copies it, one of the microphone has been sent and
    the controller stores the first byte of the next one. -/
theorem interleaved_is_atomic_copying :
    let es : List CpuEvent := [.irq (.openIntf 1) rfl, .irq (.outCallback [1, 2, 3]) rfl, .main,
      .main, .main, .main, .main, .main, .irq .inCallback rfl, .irq (.dma 0 7) rfl]
    ∃ as : List Event, as.filter (!·.isPass) = es.flatMap CpuEvent.callback ∧
      (outputs (step .fs) (initial .fs) as).flatten.filter Io.isTransfer =
        (outputs (Cpu.step .fs) (Cpu.start .fs) es).flatten ∧
      (∃ pc, pc.routine = none ∧ Reaches .fs ⟨final (step .fs) (initial .fs) as, pc⟩
        (final (Cpu.step .fs) (Cpu.start .fs) es)) ∧
      ((final (Cpu.step .fs) (Cpu.start .fs) es).pc.routine = none →
        (final (Cpu.step .fs) (Cpu.start .fs) es).dev = final (step .fs) (initial .fs) as) := by
  have hsize : 3 ≤ (audioOutPacketSz .fs).toNat := by decide
  refine interleaved_is_atomic .fs _ ⟨⟨trivial, nofun, nofun, nofun⟩,
    ⟨hsize, nofun, nofun, nofun⟩, fun _ _ => by decide, fun _ _ => by decide, fun _ _ => by decide,
    fun _ _ => by decide, fun _ _ => by decide, fun _ _ => by decide,
    ⟨trivial, ?_, ?_, nofun⟩, ⟨trivial, ?_, ?_, nofun⟩, trivial⟩
  · rintro f -
    cases f <;> rfl
  · rintro f ⟨⟩ - ⟨⟩
  · rintro f -
    cases f <;> rfl
  · rintro f ⟨⟩ - ⟨⟩

end AudioCard
