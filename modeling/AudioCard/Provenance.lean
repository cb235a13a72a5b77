import AudioCard.Accesses

/-! What the microphone can tell the host.

    The microphone endpoint plays back what the host has sent to the speaker. Whatever the callbacks
    do between the accesses of the main loop, and however a packet is cut, overwritten or torn by
    them, no other byte of the device gets into a packet that is sent: `mic_sends_received`. -/

namespace AudioCard
open Segment Run

/-- The bytes that the controller stores with the event. -/
def CpuEvent.bytes : CpuEvent → List UInt8
  | .irq (.outCallback pkt) _ => pkt
  | .irq (.dma _ v) _ => [v]
  | _ => []

/-- A packet handed over for the microphone lies in its buffer, and each of its bytes is zero or one
    of `rcv`. -/
def Io.FromHost (b : Build) (rcv : List UInt8) : Io → Prop
  | .startWrite ep buf off len data => ep = audioInpEp →
    Access.InBounds b ⟨.region buf, off, len.toNat⟩ ∧ ∀ c ∈ data, c = 0 ∨ c ∈ rcv
  | _ => True

/-- Every byte of the ring and of the buffers for sound satisfies `p`. -/
structure Device.Clean (p : UInt8 → Prop) (d : Device) : Prop where
  mem : ∀ r, r ≠ .feedbackBuffer → ∀ i, p (d.mem r i)
  ring : ∀ i, p (d.outRb.buff i)

variable {b : Build} {p : UInt8 → Prop} {d : Device}

theorem clean_initial (h0 : p 0) : (initial b).Clean p where
  mem := fun _ _ _ => h0
  ring := fun _ => h0

/-- A buffer for sound with other bytes in it. -/
theorem Device.Clean.update (h : d.Clean p) {r : Region} {f : Bytes} (hf : ∀ i, p (f i)) :
    { d with mem := Function.update d.mem r f }.Clean p where
  mem := by
    intro r' hr i
    change p (Function.update d.mem r f r' i)
    rcases eq_or_ne r' r with rfl | hne
    · rw [Function.update_self]
      exact hf i
    · rw [Function.update_of_ne hne]
      exact h.mem r' hr i
  ring := h.ring

/-- The main loop copies bytes between the buffers and the ring, and stores zeros. -/
theorem clean_main (h0 : p 0) (hw : Wired b d) (h : d.Clean p) (pc : Pc) :
    (mainStep b d pc).1.Clean p := by
  have hread : d.readBf.buffer ≠ .feedbackBuffer := by
    rw [hw.readPtr]
    decide
  have hwrite : d.writeBf.buffer ≠ .feedbackBuffer := by
    rw [hw.writePtr]
    decide
  cases pc with
  | rsHead data len =>
    simp only [mainStep]
    split
    · exact h
    · exact ⟨h.mem, h.ring⟩
  | rsCopy data end_ src n =>
    cases n with
    | zero => exact ⟨h.mem, h.ring⟩
    | succ n => exact ⟨h.mem, fun i => forall_update h.ring (h.mem _ hread src) _ i⟩
  | wsHead data needLen =>
    simp only [mainStep]
    split
    · exact h
    · exact ⟨h.mem, h.ring⟩
  | wsCopy data needLen ret start dst n =>
    cases n with
    | zero => exact ⟨h.mem, h.ring⟩
    | succ n => exact h.update fun i => forall_update (h.mem _ hwrite) (h.ring start.toNat) dst i
  | wsZero data needLen dst n =>
    cases n with
    | zero => exact ⟨h.mem, h.ring⟩
    | succ n => exact h.update fun i => forall_update (h.mem _ hwrite) h0 dst i
  | _ => exact ⟨h.mem, h.ring⟩

theorem clean_store (hw : Wired b d) (h : d.Clean p) {l : List UInt8} (hl : ∀ c ∈ l, p c) (i : ℕ) :
    (controllerStore i l d).Clean p := by
  unfold controllerStore
  split
  · rename_i t ha
    have hbuf : t.buf ≠ .feedbackBuffer := by
      rw [hw.armed t ha]
      decide
    exact h.update (forall_overlay (h.mem _ hbuf) hl _)
  · exact h

/-- A callback brings no bytes but those that the controller has stored. -/
theorem clean_irq (hw : Wired b d) (h : d.Clean p) {e : Event} (he : e.isPass = false)
    (hp : ∀ c ∈ CpuEvent.bytes (.irq e he), p c) : (step b d e).1.Clean p := by
  cases e with
  | openIntf intf =>
    simp only [step, usbdAudioOpen]
    split_ifs <;> exact ⟨h.mem, h.ring⟩
  | closeIntf intf =>
    simp only [step, usbdAudioClose]
    split_ifs <;> exact ⟨h.mem, h.ring⟩
  | outCallback pkt =>
    have hs := clean_store hw h hp 0
    exact ⟨hs.mem, hs.ring⟩
  | inFbCallback =>
    simp only [step]
    split_ifs
    · refine ⟨fun r hr i => ?_, h.ring⟩
      simp only [usbdAudioInFbCallback, usbdEpStartWrite, Function.update_of_ne hr]
      exact h.mem r hr i
    · exact h
  | setSamplingFreq entityId epCh freq =>
    cases b <;>
    · simp only [step, usbdAudioSetSamplingFreq]
      split_ifs <;> exact ⟨h.mem, h.ring⟩
  | dma i v =>
    simp only [step]
    split_ifs
    · exact clean_store hw h hp i
    · exact h
  | inCallback => exact ⟨h.mem, h.ring⟩
  | _ => cases he

theorem clean_fineStep {a : Bool} (h0 : p 0) (hw : Wired b d) (h : d.Clean p) (pc : FinePc) :
    (fineStep b a d pc).1.Clean p := by
  cases pc with
  | padFirst data needLen => exact h
  | padSecond data needLen v => exact h
  | plain pc =>
    by_cases hpc : ∃ data needLen, pc = .wsPad data needLen
    · obtain ⟨data, needLen, rfl⟩ := hpc
      exact h
    · rw [fineStep_plain fun data needLen heq => hpc ⟨data, needLen, heq⟩]
      exact clean_main h0 hw h pc

/-- STEP: what is handed over for the microphone comes out of its buffer. -/
theorem fromHost_irq {a : Bool} {s : Fine} {rcv : List UInt8} (hs : Safe b a s)
    (hc : s.dev.Clean fun c => c = 0 ∨ c ∈ rcv) {e : Event} (he : e.isPass = false) :
    ∀ io ∈ (step b s.dev e).2, io.FromHost b rcv := by
  intro io hio
  have hin := inBounds_transfer hs.wired hs.writeCount he io hio
  cases io with
  | startWrite ep buf off len data =>
    intro hep
    refine ⟨hin _ (List.mem_singleton.mpr rfl), ?_⟩
    rcases eq_or_ne e .inCallback with rfl | hne
    · rw [step, inCallback_io hs.wired] at hio
      cases List.mem_singleton.mp hio
      exact forall_mem_slice (hc.mem .writeBuffer (by decide)) _ _
    · have hw : e ≠ .writePass := by
        rintro rfl
        cases he
      exact absurd hep (not_ofMic hw hne _ hio)
  | _ => trivial

/-- CORRECT: in every interleaving of the callbacks with the accesses of the main loop, while
    received packets and those asked for fit, each packet handed over for the microphone lies in its
    buffer, and each of its bytes is zero or has been received for the speaker in the same run. -/
theorem mic_sends_received (b : Build) (addrFirst : Bool) (es : List CpuEvent)
    (h : Along (Fine.step b addrFirst) (Bounded b addrFirst) (Fine.start b) es) :
    Along (Fine.step b addrFirst)
      (fun s e => ∀ io ∈ (s.step b addrFirst e).2, io.FromHost b (es.flatMap CpuEvent.bytes))
      (Fine.start b) es := by
  set rcv := es.flatMap CpuEvent.bytes
  have hbytes : ∀ e ∈ es, ∀ c ∈ CpuEvent.bytes e, c = 0 ∨ c ∈ rcv :=
    fun e he c hc => Or.inr (List.mem_flatMap.mpr ⟨e, he, hc⟩)
  refine along_of_invariant
    (I := fun s => Safe b addrFirst s ∧ s.dev.Clean fun c => c = 0 ∨ c ∈ rcv) ?_ ?_
    ⟨safe_start b addrFirst, clean_initial (Or.inl rfl)⟩
    (along_and.mpr ⟨h, along_of_mem hbytes _⟩)
  · rintro s (_ | ⟨e, he⟩) ⟨hs, hc⟩ ⟨hb, hbytes⟩
    · exact ⟨safe_main hs hb, clean_fineStep (Or.inl rfl) hs.wired hc s.pc⟩
    · exact ⟨safe_irq hs he hb, clean_irq hs.wired hc he hbytes⟩
  · rintro s (_ | ⟨e, he⟩) ⟨hs, hc⟩ -
    · intro io hio
      cases hio
    · exact fromHost_irq hs hc he

/-- A packet of two bytes is received and copied into the ring; a packet of three is built, with a
    zero behind the two, and handed over. -/
theorem mic_sends_received_padded :
    let es : List CpuEvent := [.irq (.setSamplingFreq 0 audioInpEp 500) rfl, .irq (.openIntf 1) rfl,
      .irq (.openIntf 2) rfl, .irq (.outCallback [1, 2]) rfl] ++ List.replicate 27 .main ++
      [.irq .inCallback rfl]
    Along (Fine.step .fs true) (fun s e => ∀ io ∈ (s.step .fs true e).2,
      io.FromHost .fs (es.flatMap CpuEvent.bytes)) (Fine.start .fs) es :=
  mic_sends_received .fs true _ (by decide)

end AudioCard
