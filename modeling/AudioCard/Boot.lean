import AudioCard.MainLoop
import AudioCard.Streams

/-! The start-up of `main.c`: interrupts are live before the buffers are.

    `main` enables the USB stack, waits until the host has configured the device, and only then
    calls `audio_test`, which sets up the ring and the two double buffers, one assignment after the
    other, before it enters its loop. A callback may come between any two of these steps. Until the
    assignment it relies on has been made, it arms a transfer on a null pointer, or of no length. -/

namespace AudioCard
open Run

/-- The assignments at the top of `audio_test`, in order. -/
inductive Setup
  -- ring_buf_init
  | rbBuff | rbSize | rbStart | rbEnd | rbCount | rbRemain
  -- dbl_buffer_init(&write_bf, ...)
  | writeBuffer | writeHalfsize | writeBufferPos | writeCount
  -- dbl_buffer_init(&read_bf, ...)
  | readBuffer | readHalfsize | readBufferPos | readCount
  deriving DecidableEq

/-- Where `main` is, once the USB stack is enabled. -/
inductive BootPc
  /-- `while (!usb_device_is_configured()) {}` -/
  | poll
  /-- before an assignment of `audio_test` -/
  | setup (a : Setup)
  /-- in the loop of `audio_test` -/
  | loop (pc : Pc)

/-- The assignment, and what follows it. -/
def setupStep (b : Build) (d : Device) : Setup → Device × BootPc
  -- the array behind the pointer is static, and nothing has been stored there
  | .rbBuff => ({ d with outRb := { d.outRb with buff := fun _ => 0 } }, .setup .rbSize)
  | .rbSize => ({ d with outRb := { d.outRb with size := outRbSize } }, .setup .rbStart)
  | .rbStart => ({ d with outRb := { d.outRb with start := 0 } }, .setup .rbEnd)
  | .rbEnd => ({ d with outRb := { d.outRb with end_ := 0 } }, .setup .rbCount)
  | .rbCount => ({ d with outRb := { d.outRb with count := 0 } }, .setup .rbRemain)
  | .rbRemain =>
    ({ d with outRb := { d.outRb with remain := d.outRb.size } }, .setup .writeBuffer)
  | .writeBuffer =>
    ({ d with writeBf := { d.writeBf with buffer := .writeBuffer } }, .setup .writeHalfsize)
  | .writeHalfsize =>
    ({ d with writeBf := { d.writeBf with halfsize := audioInpPacketSz b } },
      .setup .writeBufferPos)
  | .writeBufferPos =>
    ({ d with writeBf := { d.writeBf with bufferPos := false } }, .setup .writeCount)
  | .writeCount => ({ d with writeBf := { d.writeBf with count := 0 } }, .setup .readBuffer)
  | .readBuffer =>
    ({ d with readBf := { d.readBf with buffer := .readBuffer } }, .setup .readHalfsize)
  | .readHalfsize =>
    ({ d with readBf := { d.readBf with halfsize := audioOutPacketSz b } }, .setup .readBufferPos)
  | .readBufferPos =>
    ({ d with readBf := { d.readBf with bufferPos := false } }, .setup .readCount)
  | .readCount => ({ d with readBf := { d.readBf with count := 0 } }, .loop .top)

/-- One step of `main`, when `configured` is what `usb_device_is_configured()` returns. -/
def bootStep (b : Build) (configured : Bool) (d : Device) : BootPc → Device × BootPc
  | .poll => (d, if configured then .setup .rbBuff else .poll)
  | .setup a => setupStep b d a
  | .loop pc => ((mainStep b d pc).1, .loop (mainStep b d pc).2)

/-- The card and its main program. -/
structure Boot where
  dev : Device
  configured : Bool
  pc : BootPc

/-- A step of `main`, the host's configuring the device, or an event from outside `main`. -/
inductive BootEvent
  | main
  | configure
  | irq (e : Event) (h : e.isPass = false)

def Boot.step (b : Build) (s : Boot) : BootEvent → Boot × List Io
  | .main =>
    ({ s with
        dev := (bootStep b s.configured s.dev s.pc).1
        pc := (bootStep b s.configured s.dev s.pc).2 }, [])
  | .configure => ({ s with configured := true }, [])
  | .irq e _ => ({ s with dev := (AudioCard.step b s.dev e).1 }, (AudioCard.step b s.dev e).2)

/-- `usbd_initialize()` has returned. -/
def Boot.start (b : Build) : Boot := ⟨static b, false, .poll⟩

/-! ### An undisturbed start -/

/-- Without callbacks `main` reaches the loop of `audio_test` in the state `initial`. -/
theorem boot_undisturbed (b : Build) :
    final (Boot.step b) (Boot.start b) (.configure :: List.replicate 15 .main) =
      ⟨initial b, true, .loop .top⟩ := by
  cases b <;> rfl

/-- An event of the running card, as an event of the whole program. -/
def CpuEvent.toBoot : CpuEvent → BootEvent
  | .main => .main
  | .irq e h => .irq e h

/-- REFINEMENT: once in the loop, the program runs as the card with its main loop does. -/
theorem boot_loop (b : Build) (configured : Bool) (s : Cpu) (es : List CpuEvent) :
    final (Boot.step b) ⟨s.dev, configured, .loop s.pc⟩ (es.map CpuEvent.toBoot) =
        ⟨(final (Cpu.step b) s es).dev, configured, .loop (final (Cpu.step b) s es).pc⟩ ∧
      outputs (Boot.step b) ⟨s.dev, configured, .loop s.pc⟩ (es.map CpuEvent.toBoot) =
        outputs (Cpu.step b) s es := by
  have hstep : ∀ (s : Cpu) (t : Boot) (e : CpuEvent), t = ⟨s.dev, configured, .loop s.pc⟩ → True →
      (t.step b e.toBoot).1 = ⟨(s.step b e).1.dev, configured, .loop (s.step b e).1.pc⟩ ∧
        id (s.step b e).2 = (t.step b e.toBoot).2 := by
    rintro s t (_ | ⟨e, h⟩) rfl -
    · exact ⟨rfl, rfl⟩
    · exact ⟨rfl, rfl⟩
  obtain ⟨hfinal, houts⟩ := simulation
    (R := fun (s : Cpu) (t : Boot) => t = ⟨s.dev, configured, .loop s.pc⟩) hstep rfl
    (along_true (fun _ _ => trivial) s es)
  exact ⟨hfinal, by rw [← houts, List.map_id]⟩

/-! ### The pointers and sizes during the start -/

/-- The assignment has been made. -/
def BootPc.made : BootPc → Setup → Bool
  | .poll, _ => false
  | .setup a', a => decide (a.ctorIdx < a'.ctorIdx)
  | .loop _, _ => true

/-- The pointers and sizes when `main` is at `pc`: as the assignments made so far have set them. -/
def layoutAt (b : Build) (pc : BootPc) : Layout where
  writePtr := if pc.made .writeBuffer then .writeBuffer else .null
  writeHalf := if pc.made .writeHalfsize then audioInpPacketSz b else 0
  readPtr := if pc.made .readBuffer then .readBuffer else .null
  readHalf := if pc.made .readHalfsize then audioOutPacketSz b else 0

/-- A step of the main loop moves no double buffer. -/
theorem layout_main (b : Build) (d : Device) (pc : Pc) : (mainStep b d pc).1.layout = d.layout := by
  obtain ⟨rb, mem, n, busy, hdev⟩ := main_dev b d pc
  rw [hdev]
  rfl

/-- An assignment of `audio_test` sets the field it is about. -/
theorem layout_setupStep {b : Build} {d : Device} {a : Setup}
    (h : d.layout = layoutAt b (.setup a)) :
    (setupStep b d a).1.layout = layoutAt b (setupStep b d a).2 := by
  obtain ⟨h1, h2, h3, h4⟩ := Layout.mk.inj h
  cases a <;> simp only [setupStep, Device.layout, h1, h2, h3, h4] <;> rfl

/-- INVARIANT: the pointers and sizes are those of the place where `main` is. -/
theorem layout_bootStep {b : Build} {s : Boot} (h : s.dev.layout = layoutAt b s.pc)
    (e : BootEvent) : (s.step b e).1.dev.layout = layoutAt b (s.step b e).1.pc := by
  cases e with
  | configure => exact h
  | irq e he => exact (layout_step b s.dev e).trans h
  | main =>
    obtain ⟨d, configured, pc⟩ := s
    simp only [Boot.step]
    cases pc with
    | poll => cases configured <;> exact h
    | loop pc => exact (layout_main b d pc).trans h
    | setup a => exact layout_setupStep h

/-! ### What is armed during the start -/

/-- A transfer of an audio stream is armed on a half of its buffer, a received one for a whole
    packet. -/
def Io.OnBuffer (b : Build) : Io → Prop
  | .startRead ep buf off len =>
    ep = audioOutEp → buf = .readBuffer ∧ (off = 0 ∨ off = (audioOutPacketSz b).toNat) ∧
      len = audioOutPacketSz b
  | .startWrite ep buf off _ _ =>
    ep = audioInpEp → buf = .writeBuffer ∧ (off = 0 ∨ off = (audioInpPacketSz b).toNat)
  | _ => True

/-- The assignment that the callback relies on has been made: the size of `read_bf` where a transfer
    to it is armed, the pointer of `write_bf` where one from it is. -/
def Boot.Ready (s : Boot) : BootEvent → Prop
  | .irq (.openIntf intf) _ => intf = 1 → s.pc.made .readHalfsize
  | .irq (.outCallback _) _ => s.pc.made .readHalfsize
  | .irq .inCallback _ => s.pc.made .writeBuffer
  | _ => True

theorem audioOutPacketSz_ne_zero (b : Build) : audioOutPacketSz b ≠ 0 := by cases b <;> decide

/-- A transfer to `read_bf` is armed properly when its size has been assigned; the pointer has been
    assigned before. -/
theorem startRead_onBuffer_iff {b : Build} {d : Device} {pc : BootPc} {off : ℕ}
    (h : d.layout = layoutAt b pc) (hoff : off = 0 ∨ off = d.readBf.halfsize.toNat) :
    (Io.startRead audioOutEp d.readBf.buffer off d.readBf.halfsize).OnBuffer b ↔
      pc.made .readHalfsize = true := by
  have hptr : d.readBf.buffer = if pc.made .readBuffer then .readBuffer else .null :=
    congrArg Layout.readPtr h
  have hhalf : d.readBf.halfsize = if pc.made .readHalfsize then audioOutPacketSz b else 0 :=
    congrArg Layout.readHalf h
  rw [Io.OnBuffer]
  constructor
  · intro hon
    obtain ⟨-, -, hlen⟩ := hon rfl
    by_contra hno
    rw [hhalf, if_neg hno] at hlen
    exact audioOutPacketSz_ne_zero b hlen.symm
  · intro hmade _
    have hbefore : pc.made .readBuffer = true := by
      cases pc with
      | poll => cases hmade
      | loop pc => rfl
      | setup a => cases a <;> first | rfl | cases hmade
    rw [if_pos hmade] at hhalf
    rw [if_pos hbefore] at hptr
    rw [hhalf] at hoff
    exact ⟨hptr, hoff, hhalf⟩

/-- A transfer from `write_bf` is armed on the buffer when its pointer has been assigned: with the
    size still zero both halves begin where the buffer does. -/
theorem startWrite_onBuffer_iff {b : Build} {d : Device} {pc : BootPc} {off : ℕ} {len : UInt32}
    {data : List UInt8} (h : d.layout = layoutAt b pc)
    (hoff : off = 0 ∨ off = d.writeBf.halfsize.toNat) :
    (Io.startWrite audioInpEp d.writeBf.buffer off len data).OnBuffer b ↔
      pc.made .writeBuffer = true := by
  have hptr : d.writeBf.buffer = if pc.made .writeBuffer then .writeBuffer else .null :=
    congrArg Layout.writePtr h
  have hhalf : d.writeBf.halfsize = if pc.made .writeHalfsize then audioInpPacketSz b else 0 :=
    congrArg Layout.writeHalf h
  rw [Io.OnBuffer, hptr]
  constructor
  · intro hon
    by_contra hno
    have hnull := (hon rfl).1
    rw [if_neg hno] at hnull
    cases hnull
  · intro hmade _
    refine ⟨if_pos hmade, ?_⟩
    rw [hhalf] at hoff
    rcases Bool.eq_false_or_eq_true (pc.made .writeHalfsize) with hset | hunset
    · rw [if_pos hset] at hoff
      exact hoff
    · rw [if_neg (by simp [hunset])] at hoff
      exact Or.inl (hoff.elim id id)

/-- In one state: what a callback arms lies on its buffer exactly when the callback is not early. -/
theorem onBuffer_iff {b : Build} {s : Boot} (h : s.dev.layout = layoutAt b s.pc) (e : BootEvent) :
    (∀ io ∈ (s.step b e).2, io.OnBuffer b) ↔ s.Ready e := by
  cases e with
  | main => simp [Boot.step, Boot.Ready]
  | configure => simp [Boot.step, Boot.Ready]
  | irq e he =>
    cases e with
    | openIntf intf =>
      rcases eq_or_ne intf 1 with rfl | hi
      · have hiff := startRead_onBuffer_iff h (Or.inl (rfl : 0 = 0))
        have hio : (s.step b (.irq (.openIntf 1) he)).2 =
            [.startRead audioOutEp s.dev.readBf.buffer 0 s.dev.readBf.halfsize] := by
          cases b <;> rfl
        rw [hio, List.forall_mem_singleton, hiff, Boot.Ready]
        simp
      · have hio : (s.step b (.irq (.openIntf intf) he)).2 = [] := by
          simp only [Boot.step, step, usbdAudioOpen, hi, if_false]
          split_ifs <;> rfl
        simp [hio, Boot.Ready, hi]
    | outCallback pkt =>
      have hl := (layout_store 0 pkt s.dev).trans h
      let bf : DblBuffer :=
        { (controllerStore 0 pkt s.dev).readBf with count := pkt.length.toUInt32 }
      exact List.forall_mem_singleton.trans
        (startRead_onBuffer_iff hl (usbHalf_cases bf.flip))
    | inCallback =>
      exact List.forall_mem_singleton.trans
        (startWrite_onBuffer_iff h (usbHalf_cases s.dev.writeBf.flip))
    | closeIntf intf =>
      simp only [Boot.step, step, usbdAudioClose, Boot.Ready]
      split_ifs <;> simp
    | inFbCallback =>
      simp only [Boot.step, step, usbdAudioInFbCallback, usbdEpStartWrite, Boot.Ready]
      split_ifs <;> simp [Io.OnBuffer, audioOfbEp, audioInpEp]
    | setSamplingFreq entityId epCh freq => simp [Boot.step, step, Boot.Ready]
    | dma i v => simp [Boot.step, step, Boot.Ready]
    | _ => cases he

/-- EXACT: in every interleaving of the callbacks with the steps of `main` and `audio_test`, from
    the start of the USB stack on, every transfer of an audio stream is armed on a half of its
    buffer if and only if no `open(1)` and no `out_callback` comes before the size of `read_bf` has
    been assigned, and no `in_callback` before the pointer of `write_bf` has. -/
theorem armed_on_buffer_iff (b : Build) (es : List BootEvent) :
    Along (Boot.step b) (fun s e => ∀ io ∈ (s.step b e).2, io.OnBuffer b) (Boot.start b) es ↔
      Along (Boot.step b) Boot.Ready (Boot.start b) es :=
  along_congr (P := fun _ _ => True) (I := fun s => s.dev.layout = layoutAt b s.pc)
    (fun _ e h _ => layout_bootStep h e) (fun _ e h _ => onBuffer_iff h e) rfl
    (along_true (fun _ _ => trivial) (Boot.start b) es)

/-- What the USB stack may deliver: no callback before the host has configured the device, and no
    data callback before the stream is opened. -/
def Delivered (es : List BootEvent) : Prop :=
  ∀ p e h q, es = p ++ .irq e h :: q → .configure ∈ p ∧
    ((∃ pkt, e = .outCallback pkt) → .irq (.openIntf 1) rfl ∈ p) ∧
    (e = .inCallback → .irq (.openIntf 2) rfl ∈ p)

/-- The host configures the device and sets the interface of the speaker before `main` looks again:
    the controller is told to receive to a null pointer. -/
theorem armed_on_null :
    Delivered [.configure, .irq (.openIntf 1) rfl] ∧
    outputs (Boot.step .fs) (Boot.start .fs) [.configure, .irq (.openIntf 1) rfl] =
      [[], [.startRead audioOutEp .null 0 0]] ∧
    ¬ Along (Boot.step .fs) (fun s e => ∀ io ∈ (s.step .fs e).2, io.OnBuffer .fs)
        (Boot.start .fs) [.configure, .irq (.openIntf 1) rfl] := by
  refine ⟨?_, rfl, ?_⟩
  · rintro p e h q heq
    rcases p with _ | ⟨x, _ | ⟨y, p⟩⟩
    · cases heq
    · cases heq
      simp
    · have hlen := congrArg List.length heq
      simp at hlen
  · rintro ⟨-, hon, -⟩
    obtain ⟨hbuf, -⟩ := List.forall_mem_singleton.mp hon rfl
    cases hbuf

end AudioCard
