import AudioCard.Frames
import AudioCard.Throughput

/-! The ring comes back to whole frames by itself.

    A packet that meets a full ring is cut inside a frame, and nothing in the code looks for frames
    again: from then on the packets for the microphone begin inside one. But an empty ring has no
    frame to be inside of. So whatever has been cut before, once the ring runs empty the packets
    built are whole frames again, until the next one is cut (`frames_realign`). -/

namespace AudioCard
open Run

/-- The packet that an event reports is among those of the run. -/
theorem received_subset {es : List Event} {e : Event} (h : e ∈ es) :
    received [e] ⊆ received es := by
  intro pkt hpkt
  obtain ⟨f, hf, heq⟩ := List.mem_filterMap.mp hpkt
  rw [List.mem_singleton.mp hf] at heq
  exact List.mem_filterMap.mpr ⟨e, h, heq⟩

/-- The packet that waits to be drained, if there is one, is whole frames. -/
def PendingWhole (b : Build) (rcv : List (List UInt8)) (d : Device) : Prop :=
  ∃ m, SpeakerSim b d m ∧ ∀ pkt, m.slot = some pkt → Framed rcv pkt

/-- Whatever is in the ring, the packet that waits is one that the host has sent. -/
theorem pending_step {b : Build} {rcv : List (List UInt8)} {d : Device} (h : PendingWhole b rcv d)
    {e : Event} (he : e.WholePacket b) (hrcv : received [e] ⊆ rcv) :
    PendingWhole b rcv (step b d e).1 := by
  obtain ⟨m, hsim, hslot⟩ := h
  refine ⟨_, (speakerSim_step d m e hsim he.fits).1, fun pkt hpkt => ?_⟩
  rcases slot_step hpkt with rfl | hold
  · exact framed_packet (hrcv (by simp [received])) he.1
  · exact hslot pkt hold

theorem pending_final {b : Build} {rcv : List (List UInt8)} {es : List Event}
    (he : ∀ e ∈ es, e.WholePacket b ∧ received [e] ⊆ rcv) :
    PendingWhole b rcv (final (step b) (initial b) es) := by
  refine invariant_of_forall (I := PendingWhole b rcv) ?_ ?_
  · exact fun e hmem d hd => pending_step hd (he e hmem).1 (he e hmem).2
  · exact ⟨Mailbox.init, speakerSim_initial b, by simp [Mailbox.init]⟩

/-- The ring holds whole frames, and the packet that waits for it is whole frames. -/
def Aligned (b : Build) (rcv : List (List UInt8)) (d : Device) : Prop :=
  PendingWhole b rcv d ∧ ∃ q, d.Queued q ∧ Framed rcv q

/-- What an event must not do to the frames: it brings whole ones, takes whole ones off the ring,
    and has none refused. -/
structure Gentle (b : Build) (rcv : List (List UInt8)) (d : Device) (e : Event) : Prop where
  packet : e.WholePacket b
  known : received [e] ⊆ rcv
  freq : Advertised b d.curInpFreq
  room : RoomFor d e

/-- STEP: a ring of whole frames stays one. -/
theorem aligned_step {b : Build} {rcv : List (List UInt8)} {d : Device} {e : Event}
    (h : Aligned b rcv d) (he : Gentle b rcv d e) : Aligned b rcv (step b d e).1 := by
  obtain ⟨hpending, q, hq, hframed⟩ := h
  refine ⟨pending_step hpending he.packet he.known, ?_⟩
  obtain ⟨m, hsim, hslot⟩ := hpending
  refine ⟨_, queue_step hsim.1 hq e, ?_⟩
  rcases eq_or_ne e .readPass with rfl | hr
  · obtain ⟨hdrain, hroom⟩ := drain_iff hsim hq
    simp only [queueStep, hdrain]
    cases hm : m.slot with
    | none => exact hframed
    | some pkt =>
      have hfit : pkt.length ≤ outRbSize.toNat - q.length := hroom.mp he.room pkt hm
      simp only
      rw [List.take_of_length_le hfit]
      exact hframed.append (hslot pkt hm)
  · rcases eq_or_ne e .writePass with rfl | hw
    · simp only [queueStep]
      split_ifs
      · exact hframed.drop (packetSize_of_advertised he.freq).1
      · exact hframed
    · have hsame : queueStep b d q e = q := by
        cases e with
        | readPass => exact absurd rfl hr
        | writePass => exact absurd rfl hw
        | _ => rfl
      rw [hsame]
      exact hframed

/-- A packet off a ring of whole frames is whole frames. -/
theorem built_framed {b : Build} {rcv : List (List UInt8)} {d : Device} {e : Event}
    (h : Aligned b rcv d) (he : Gentle b rcv d e) {data : List UInt8}
    (hb : built (step b d e).2 = some data) : Framed rcv data := by
  obtain ⟨⟨m, hsim, -⟩, q, hq, hframed⟩ := h
  obtain ⟨-, -, rfl⟩ := built_some hsim.1 hq.holds hb
  exact framed_micPacket hframed (packetSize_of_advertised he.freq).1

/-- CORRECT: from any reachable state with an empty ring, however packets have been cut before,
    fills having fitted their halves, as long as the host sends whole frames, the frequency is an
    advertised one and every packet drained finds room, each packet built for the microphone is
    whole frames of packets received, and so is what the ring still holds at the end. -/
theorem frames_realign (b : Build) (pre es : List Event)
    (hfit : Along (step b) (FillFits b) (initial b) pre)
    (hempty : ringBufEmpty (final (step b) (initial b) pre).outRb = true)
    (he : ∀ e ∈ pre ++ es, e.WholePacket b)
    (hf : Along (step b) (fun d _ => Advertised b d.curInpFreq) (final (step b) (initial b) pre) es)
    (hroom : Along (step b) RoomFor (final (step b) (initial b) pre) es) :
    let s := final (step b) (initial b) pre
    Along (step b) (fun d e => ∀ data, built (step b d e).2 = some data →
      Framed (received (pre ++ es)) data) s es ∧
    ∃ q, (final (step b) s es).Queued q ∧ Framed (received (pre ++ es)) q := by
  intro s
  set rcv := received (pre ++ es)
  have hknown : ∀ e ∈ pre ++ es, e.WholePacket b ∧ received [e] ⊆ rcv :=
    fun e hmem => ⟨he e hmem, received_subset hmem⟩
  have hevents := along_and.mpr ⟨along_of_mem (fun e hmem => hknown e (by simp [hmem])) s,
    along_and.mpr ⟨hf, hroom⟩⟩
  have hs : Aligned b rcv s := by
    refine ⟨pending_final fun e hmem => hknown e (List.mem_append_left _ hmem), [], ?_, .nil⟩
    exact queued_nil_of_empty (countFits_final (countFits_initial b) hfit).1 hempty
  have hstep : ∀ d e, Aligned b rcv d → (e.WholePacket b ∧ received [e] ⊆ rcv) ∧
      Advertised b d.curInpFreq ∧ RoomFor d e → Aligned b rcv (step b d e).1 :=
    fun d e hd ⟨⟨hp, hk⟩, hfreq, hr⟩ => aligned_step hd ⟨hp, hk, hfreq, hr⟩
  refine ⟨along_of_invariant hstep ?_ hs hevents, (invariant_of_along hstep hs hevents).2⟩
  rintro d e hd ⟨⟨hp, hk⟩, hfreq, hr⟩ data
  exact built_framed hd ⟨hp, hk, hfreq, hr⟩

/-- A frame is played, the microphone takes all the ring has and silence, and a second frame
    follows. -/
theorem frames_realign_second :
    let pre : List Event := [.openIntf 1, .openIntf 2, .outCallback [1, 2, 3, 4, 5, 6], .readPass,
      .writePass]
    let es : List Event := [.outCallback [7, 8, 9, 10, 11, 12], .readPass, .inCallback, .writePass]
    let s := final (step .fs) (initial .fs) pre
    Along (step .fs) (fun d e => ∀ data, built (step .fs d e).2 = some data →
      Framed (received (pre ++ es)) data) s es ∧
    ∃ q, (final (step .fs) s es).Queued q ∧ Framed (received (pre ++ es)) q := by
  refine frames_realign .fs [.openIntf 1, .openIntf 2, .outCallback [1, 2, 3, 4, 5, 6], .readPass,
    .writePass] _ (by decide) rfl (by decide) ?_ ?_
  · exact ⟨Or.inr rfl, Or.inr rfl, Or.inr rfl, Or.inr rfl, trivial⟩
  · refine ⟨?_, fun _ _ => by decide, ?_, ?_, trivial⟩ <;> rintro ⟨⟩

end AudioCard
