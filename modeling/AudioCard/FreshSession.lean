import AudioCard.Independence
import AudioCard.Speaker

/-! A session of the speaker knows nothing of the sessions before it.

    What the speaker's side shows is what a small machine shows that has a mailbox for the latest
    packet and one bit for the half (`SpeakerSpec`). An `open(1)` puts this machine into one state,
    wherever it was: so no packet, half or busy bit of an earlier session, however it ended, reaches
    the next one, and no microphone traffic does (`session_fresh`). -/

namespace AudioCard
open Run

/-- The mailbox for the latest packet, and `read_bf.buffer_pos`. -/
structure SpeakerSpec where
  box : Mailbox.State (List UInt8)
  pos : Bool

/-- One event: the mailbox moves, a session starts with the first half, a completion arms the other
    one, and what the mailbox hands out is given to the ring. -/
def SpeakerSpec.step (b : Build) (s : SpeakerSpec) (e : Event) : SpeakerSpec × List Io :=
  let r := Mailbox.step s.box (speakerOp e)
  match e with
  | .openIntf intf =>
    if intf = 1 then
      (⟨r.1, false⟩, [.startRead audioOutEp .readBuffer 0 (audioOutPacketSz b)])
    else (⟨r.1, s.pos⟩, [])
  | .outCallback _ =>
    (⟨r.1, !s.pos⟩, [.startRead audioOutEp .readBuffer
      (if s.pos then 0 else (audioOutPacketSz b).toNat) (audioOutPacketSz b)])
  | _ => (⟨r.1, s.pos⟩, r.2.toList.map fun data => .ringWrite data 0)

/-- The card is where the machine is. -/
structure SpecSim (b : Build) (d : Device) (s : SpeakerSpec) : Prop where
  sim : SpeakerSim b d s.box
  pos : d.readBf.bufferPos = s.pos

/-- Only an `open(1)` and a completion touch `buffer_pos`. -/
theorem bufferPos_step {b : Build} {d : Device} (h : Wired b d) (e : Event) :
    (step b d e).1.readBf.bufferPos = match e with
      | .openIntf intf => if intf = 1 then false else d.readBf.bufferPos
      | .outCallback _ => !d.readBf.bufferPos
      | _ => d.readBf.bufferPos := by
  have hbf : (step b d e).1.readBf = (d.speaker.step e).1.bf := by
    rw [← (speaker_step h e).1]
    rfl
  rw [hbf]
  cases e with
  | openIntf intf =>
    simp only [Speaker.step]
    split_ifs <;> rfl
  | closeIntf intf =>
    simp only [Speaker.step]
    split_ifs <;> rfl
  | outCallback pkt =>
    simp only [Speaker.step, store_bf]
    rfl
  | readPass =>
    simp only [Speaker.step]
    split_ifs <;> rfl
  | dma i v =>
    simp only [Speaker.step]
    split_ifs
    · rw [store_bf]
      rfl
    · rfl
  | _ => rfl

/-- What the mailbox hands out is what the speaker's side gives to the ring. -/
theorem shown_readPass {b : Build} {s : Speaker} {m : Mailbox.State (List UInt8)}
    (h : s.Holds b m) : s.shown .readPass = m.slot.toList.map fun data => .ringWrite data 0 := by
  cases hm : m.slot with
  | none =>
    rw [Speaker.shown, h.empty hm]
    rfl
  | some pkt =>
    rcases h.full pkt hm with ⟨hd, hcount, -, hbytes⟩
    rw [Speaker.shown, if_pos hd, hcount, hbytes]
    rfl

/-- STEP: the speaker's side moves and shows as the machine does. -/
theorem specSim_step {b : Build} {d : Device} {s : SpeakerSpec} (e : Event) (h : SpecSim b d s)
    (he : e.Fits b) :
    SpecSim b (step b d e).1 (s.step b e).1 ∧ shown .rx (step b d e).2 = (s.step b e).2 := by
  rcases h with ⟨⟨hw, hs⟩, hpos⟩
  have hsim := (speakerSim_step d s.box e ⟨hw, hs⟩ he).1
  have hpos' := bufferPos_step hw e
  have hbuf : d.speaker.bf.buffer = .readBuffer := hw.readPtr
  have hhalf : d.speaker.bf.halfsize = audioOutPacketSz b := hs.half
  rw [shown_rx hw]
  cases e with
  | openIntf intf =>
    simp only [SpeakerSpec.step, Speaker.shown]
    rcases eq_or_ne intf 1 with rfl | hi
    · rw [if_pos rfl, if_pos rfl, hbuf, hhalf]
      exact ⟨⟨hsim, hpos'⟩, rfl⟩
    · rw [if_neg hi, if_neg hi]
      simp only [if_neg hi] at hpos'
      exact ⟨⟨hsim, hpos'.trans hpos⟩, rfl⟩
  | outCallback pkt =>
    have hp : d.speaker.bf.bufferPos = s.pos := hpos
    simp only [hpos] at hpos'
    refine ⟨⟨hsim, hpos'⟩, ?_⟩
    simp only [SpeakerSpec.step, Speaker.shown, flip_usbHalf, flip_buffer, flip_halfsize, hbuf,
      hhalf, DblBuffer.mainHalf, hp]
    cases s.pos <;> rfl
  | readPass => exact ⟨⟨hsim, hpos'.trans hpos⟩, shown_readPass hs⟩
  | closeIntf intf =>
    have hnone : (Mailbox.step s.box (speakerOp (.closeIntf intf))).2 = none := by
      simp only [speakerOp]
      split_ifs <;> rfl
    refine ⟨⟨hsim, hpos'.trans hpos⟩, ?_⟩
    simp only [SpeakerSpec.step, hnone]
    rfl
  | _ => exact ⟨⟨hsim, hpos'.trans hpos⟩, rfl⟩

/-- A run of the card shows of the speaker what the machine shows. -/
theorem spec_sim {b : Build} {d : Device} {s : SpeakerSpec} {es : List Event}
    (hfit : ∀ e ∈ es, e.Fits b) (h : SpecSim b d s) :
    (outputs (step b) d es).map (shown .rx) = outputs (SpeakerSpec.step b) s es := by
  have hsim := (simulation (f := id) (P := fun _ e => e.Fits b) (fun d s e h he =>
    specSim_step e h he) h (along_of_mem hfit d)).2
  rwa [List.map_id] at hsim

/-- REFINEMENT: whatever has happened before, from an `open(1)` on everything the speaker's side
    does (the transfers armed and the packets given to the ring) is what the machine with the
    mailbox does from its fresh state, as long as packets fit their halves. -/
theorem session_fresh (b : Build) (pre es : List Event)
    (hfit : Along (step b) (PacketsFit b) (initial b) (pre ++ .openIntf 1 :: es)) :
    (outputs (step b) (final (step b) (initial b) (pre ++ [.openIntf 1])) es).map (shown .rx) =
      outputs (SpeakerSpec.step b) ⟨⟨true, none⟩, false⟩ es := by
  have hfits : ∀ e ∈ pre ++ .openIntf 1 :: es, e.Fits b := fits_of_packetsFit hfit
  have hpre : ∀ e ∈ pre, e.Fits b := fun e he => hfits e (by simp [he])
  rcases (speaker_sim hpre (speakerSim_initial b)).1 with ⟨hw, hs⟩
  refine spec_sim (fun e he => hfits e (by simp [he])) ?_
  rw [final_concat]
  exact (specSim_step (s := ⟨_, (final (step b) (initial b) pre).readBf.bufferPos⟩) (.openIntf 1)
    ⟨⟨hw, hs⟩, rfl⟩ trivial).1

/-- A session with a packet that is never drained while the microphone sends, and the next one. -/
theorem session_fresh_second :
    (outputs (step .fs) (final (step .fs) (initial .fs)
      ([.setSamplingFreq 0 audioInpEp 48000, .openIntf 2, .openIntf 1, .writePass, .inCallback,
        .outCallback [1, 2], .closeIntf 1] ++ [.openIntf 1]))
      [.readPass, .outCallback [3], .writePass, .readPass]).map (shown .rx) =
    outputs (SpeakerSpec.step .fs) ⟨⟨true, none⟩, false⟩
      [.readPass, .outCallback [3], .writePass, .readPass] :=
  session_fresh .fs [.setSamplingFreq 0 audioInpEp 48000, .openIntf 2, .openIntf 1, .writePass,
    .inCallback, .outCallback [1, 2], .closeIntf 1]
    [.readPass, .outCallback [3], .writePass, .readPass] (by decide)

end AudioCard
