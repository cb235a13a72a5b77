import AudioCard.Speaker
import AudioCard.MicBounds
import AudioCard.MicHandover
import AudioCard.Lib.Groups

/-! Whole audio frames, from the packets of the host and back to it.

    A frame is three bytes for each of two channels. Everything on the way keeps frames whole, the
    ring too, as long as it takes the packets whole. Its size is no multiple of six, and
    `read_samples` does not look at what `ring_buf_write` refused: a packet that meets a full ring
    is cut inside a frame. -/

namespace AudioCard
open Segment Run Groups

/-- One complete frame of a packet in `rcv`, at a multiple of six, or six zero bytes. -/
def IsFrame (rcv : List (List UInt8)) (g : List UInt8) : Prop :=
  g = List.replicate 6 0 ∨
    ∃ pkt ∈ rcv, ∃ k, 6 * k + 6 ≤ pkt.length ∧ g = (pkt.drop (6 * k)).take 6

/-- The bytes split at multiples of six into frames. -/
def Framed (rcv : List (List UInt8)) (l : List UInt8) : Prop := Grouped 6 (IsFrame rcv) l

theorem Framed.mono {rcv rcv' : List (List UInt8)} (h : rcv ⊆ rcv') {l : List UInt8}
    (hl : Framed rcv l) : Framed rcv' l := by
  refine Grouped.mono ?_ hl
  rintro g (hz | ⟨pkt, hpkt, k, hk, hg⟩)
  · exact Or.inl hz
  · exact Or.inr ⟨pkt, h hpkt, k, hk, hg⟩

theorem framed_zeros (rcv : List (List UInt8)) {n : ℕ} (h : 6 ∣ n) :
    Framed rcv (List.replicate n 0) := grouped_replicate (Or.inl rfl) h

/-- A packet of the host, if its length is a multiple of six. -/
theorem framed_packet {rcv : List (List UInt8)} {pkt : List UInt8} (h : pkt ∈ rcv)
    (hlen : 6 ∣ pkt.length) : Framed rcv pkt := by
  obtain ⟨n, hn⟩ := hlen
  refine grouped_of_pieces n hn fun i hi => Or.inr ⟨pkt, h, i, by omega, rfl⟩

/-- A packet for the host: frames off the queue, then silence. -/
theorem framed_micPacket {rcv : List (List UInt8)} {q : List UInt8} (hq : Framed rcv q) {n : ℕ}
    (hn : 6 ∣ n) : Framed rcv (micPacket q n) := by
  have hlen := hq.dvd_length
  exact (hq.take hn).append (framed_zeros rcv (by omega))

/-- A frequency of the card's descriptors: one of two at full speed, a range with a step at high
    speed. -/
def Advertised (b : Build) (f : UInt32) : Prop :=
  match b with
  | .fs => f = audioInpFreq0 ∨ f = audioInpFreq1
  | .hs => audioInpFreqMin ≤ f ∧ f ≤ audioInpFreqMax ∧ (f - audioInpFreqMin) % audioInpFreqStep = 0

/-- At an advertised frequency the packets are whole frames and fit a half. -/
theorem packetSize_of_advertised {b : Build} {f : UInt32} (h : Advertised b f) :
    6 ∣ (getInpPacketSize b f).toNat ∧
      (getInpPacketSize b f).toNat ≤ (audioInpPacketSz b).toNat := by
  cases b with
  | fs => rcases h with rfl | rfl <;> decide
  | hs =>
    obtain ⟨hmin, hmax, hstep⟩ := h
    have hf : f = 48000 ∨ f = 96000 ∨ f = 144000 ∨ f = 192000 := by
      rw [UInt32.le_iff_toNat_le] at hmin hmax
      rw [← UInt32.toNat_inj, UInt32.toNat_mod,
        UInt32.toNat_sub_of_le _ _ (UInt32.le_iff_toNat_le.mpr hmin)] at hstep
      simp only [← UInt32.toNat_inj]
      simp only [audioInpFreqMin, audioInpFreqMax, audioInpFreqStep, UInt32.reduceToNat] at *
      omega
    rcases hf with rfl | rfl | rfl | rfl <;> decide

/-! ### The microphone's halves -/

/-- Both halves of `write_buffer` are whole frames, and so is what `in_callback` would send. -/
structure MicFrames (rcv : List (List UInt8)) (half : ℕ) (m : Mic) : Prop where
  size : m.bf.halfsize.toNat = half
  halves : ∀ off, off = 0 ∨ off = half → Framed rcv (slice m.bytes off half)
  dvd : 6 ∣ m.bf.count.toNat
  le : m.bf.count.toNat ≤ half

theorem MicFrames.mainHalf {rcv : List (List UInt8)} {half : ℕ} {m : Mic}
    (h : MicFrames rcv half m) : m.bf.mainHalf.toNat = 0 ∨ m.bf.mainHalf.toNat = half := by
  rw [← h.size]
  exact mainHalf_cases m.bf

/-- What `in_callback` would send. -/
theorem MicFrames.handed {rcv : List (List UInt8)} {half : ℕ} {m : Mic}
    (h : MicFrames rcv half m) :
    Framed rcv (slice m.bytes m.bf.mainHalf.toNat m.bf.count.toNat) := by
  rw [← take_slice m.bytes _ h.le]
  exact (h.halves _ h.mainHalf).take h.dvd

theorem micFrames_step {rcv : List (List UInt8)} {half : ℕ} {m : Mic} (h : MicFrames rcv half m)
    {packet : List UInt8} (hp : Framed rcv packet) (hle : packet.length ≤ half) (e : Event) :
    MicFrames rcv half (m.step packet e) := by
  cases e with
  | openIntf intf =>
    rw [Mic.step]
    split
    · exact ⟨h.size, h.halves, ⟨0, rfl⟩, Nat.zero_le _⟩
    · exact h
  | closeIntf intf =>
    rw [Mic.step]
    split
    · exact h
    · exact ⟨h.size, h.halves, h.dvd, h.le⟩
  | inCallback => exact ⟨h.size, h.halves, h.dvd, h.le⟩
  | writePass =>
    rw [Mic.step]
    split
    · have hlt := m.bf.halfsize.toNat_lt
      have hcount : packet.length.toUInt32.toNat = packet.length := by
        have := h.size
        exact Nat.mod_eq_of_lt (by omega)
      refine ⟨h.size, ?_, ?_, ?_⟩
      · intro off hoff
        -- the half that was filled, then the other one
        by_cases hmain : off = m.bf.mainHalf.toNat
        · obtain ⟨k, hk⟩ := Nat.exists_eq_add_of_le hle
          have hold := h.halves off hoff
          subst hmain
          rw [hk] at hold ⊢
          simp only [slice_overlay_add, ← drop_slice]
          exact hp.append (hold.drop hp.dvd_length)
        · simp only
          rw [slice_overlay_disjoint]
          · exact h.halves off hoff
          · rcases hoff with rfl | rfl <;> rcases h.mainHalf with hm | hm <;> omega
      · simp only [hcount]
        exact hp.dvd_length
      · simp only [hcount]
        exact hle
    · exact h
  | _ => exact h

/-! ### Runs -/

/-- All that the card holds is whole frames of the packets `rcv`: the packet waiting to be drained,
    the ring, and both halves of `write_buffer`. -/
structure Whole (b : Build) (rcv : List (List UInt8)) (d : Device) : Prop where
  packet : ∃ m, SpeakerSim b d m ∧ ∀ pkt, m.slot = some pkt → Framed rcv pkt
  queue : ∃ q, d.Queued q ∧ Framed rcv q
  mic : MicFrames rcv (audioInpPacketSz b).toNat d.mic

theorem whole_initial (b : Build) : Whole b [] (initial b) where
  packet := ⟨Mailbox.init, speakerSim_initial b, by simp [Mailbox.init]⟩
  queue := ⟨[], queued_initial b, .nil⟩
  mic := by
    have hzero : ∀ n off, slice (fun _ => (0 : UInt8)) off n = List.replicate n 0 := by
      intro n
      induction n with
      | zero => intro off; rfl
      | succ n ih => intro off; rw [slice_succ, ih, List.replicate_succ]
    refine ⟨rfl, fun off _ => ?_, ⟨0, rfl⟩, Nat.zero_le _⟩
    change Framed [] (slice (fun _ => (0 : UInt8)) off _)
    rw [hzero]
    exact framed_zeros [] (by cases b <;> decide)

/-- A pass that drains a packet finds room for all of it in the ring. -/
def RoomFor (d : Device) (e : Event) : Prop :=
  e = .readPass → d.speaker.draining = true → ringBufHasspace d.outRb d.readBf.count = true

/-- The host sends whole frames, and no more than fit. -/
def Event.WholePacket (b : Build) : Event → Prop
  | .outCallback pkt => 6 ∣ pkt.length ∧ pkt.length ≤ (audioOutPacketSz b).toNat
  | _ => True

instance (b : Build) : (e : Event) → Decidable (e.WholePacket b)
  | .outCallback pkt =>
    inferInstanceAs (Decidable (6 ∣ pkt.length ∧ pkt.length ≤ (audioOutPacketSz b).toNat))
  | .openIntf _ | .closeIntf _ | .inCallback | .inFbCallback | .setSamplingFreq _ _ _ | .readPass
  | .writePass | .feedbackPass | .dma _ _ => inferInstanceAs (Decidable True)

theorem Event.WholePacket.fits {b : Build} {e : Event} (h : e.WholePacket b) : e.Fits b := by
  cases e with
  | outCallback pkt => exact h.2
  | _ => trivial

/-- A packet in the mailbox has just been received or was there before. -/
theorem slot_step {m : Mailbox.State (List UInt8)} {e : Event} {pkt : List UInt8}
    (h : (Mailbox.step m (speakerOp e)).1.slot = some pkt) :
    e = .outCallback pkt ∨ m.slot = some pkt := by
  cases ho : speakerOp e with
  | openBox => rw [ho] at h; cases h
  | closeBox => rw [ho] at h; cases h
  | take => rw [ho] at h; cases h
  | idle => rw [ho] at h; exact Or.inr h
  | put a =>
    left
    rw [ho] at h
    simp only [Mailbox.step, Option.ite_none_right_eq_some, Option.some.injEq] at h
    rw [← h.2]
    exact speakerOp_eq_put ho

/-- A pass that drains, seen from the mailbox: the packet, its length, and whether there is room. -/
theorem drain_iff {b : Build} {d : Device} {m : Mailbox.State (List UInt8)} {q : List UInt8}
    (h : SpeakerSim b d m) (hq : d.Queued q) :
    (d.speaker.step .readPass).2 = m.slot ∧ (RoomFor d .readPass ↔
      ∀ pkt, m.slot = some pkt → pkt.length ≤ outRbSize.toNat - q.length) := by
  refine ⟨(speaker_sim_step h.2 .readPass trivial).2, ?_⟩
  have hspace := ringBufHasspace_iff hq.holds d.readBf.count
  rw [hq.size] at hspace
  cases hm : m.slot with
  | none => simp [RoomFor, h.2.empty hm]
  | some pkt =>
    obtain ⟨hd, hcount, -⟩ := h.2.full pkt hm
    change d.readBf.count.toNat = pkt.length at hcount
    rw [hcount] at hspace
    simp [RoomFor, hd, hspace]

/-- One event keeps the frames whole, as long as the ring has room. -/
theorem whole_step {b : Build} {rcv : List (List UInt8)} {d : Device} (h : Whole b rcv d)
    {e : Event} (hf : Advertised b d.curInpFreq) (he : e.WholePacket b) (hroom : RoomFor d e) :
    Whole b (rcv ++ received [e]) (step b d e).1 := by
  obtain ⟨⟨m, hsim, hslot⟩, ⟨q, hq, hqf⟩, hmic⟩ := h
  have hsub : rcv ⊆ rcv ++ received [e] := fun pkt hpkt => List.mem_append_left _ hpkt
  obtain ⟨hsix, hfit⟩ := packetSize_of_advertised hf
  obtain ⟨hsim', -⟩ := speakerSim_step d m e hsim he.fits
  refine ⟨⟨_, hsim', fun pkt hpkt => ?_⟩, ⟨_, queue_step hsim.1 hq e, ?_⟩, ?_⟩
  · rcases slot_step hpkt with rfl | hold
    · exact framed_packet (by simp [received]) he.1
    · exact (hslot pkt hold).mono hsub
  · refine Framed.mono hsub ?_
    cases e with
    | readPass =>
      obtain ⟨hdrain, hiff⟩ := drain_iff hsim hq
      simp only [queueStep, hdrain]
      cases hm : m.slot with
      | none => exact hqf
      | some pkt =>
        change Framed rcv (q ++ pkt.take _)
        rw [List.take_of_length_le (hiff.mp hroom pkt hm)]
        exact hqf.append (hslot pkt hm)
    | writePass =>
      simp only [queueStep]
      split
      · exact hqf.drop hsix
      · exact hqf
    | _ => exact hqf
  · rw [mic_step hsim.1 hq.holds]
    have hpacket := framed_micPacket hqf hsix
    refine micFrames_step ?_ (hpacket.mono hsub) ?_ e
    · exact ⟨hmic.size, fun off hoff => (hmic.halves off hoff).mono hsub, hmic.dvd, hmic.le⟩
    · rw [length_micPacket]
      exact hfit

theorem whole_final {b : Build} {es : List Event} (he : ∀ e ∈ es, e.WholePacket b)
    (hf : Along (step b) (fun d _ => Advertised b d.curInpFreq) (initial b) es)
    (hroom : Along (step b) RoomFor (initial b) es) :
    Whole b (received es) (final (step b) (initial b) es) := by
  induction es using List.reverseRecOn with
  | nil => exact whole_initial b
  | append_singleton es e ih =>
    rw [along_concat] at hf hroom
    have h := ih (fun g hg => he g (by simp [hg])) hf.1 hroom.1
    have hrcv : received (es ++ [e]) = received es ++ received [e] := List.filterMap_append
    rw [hrcv, final_concat]
    exact whole_step h hf.2 (he e (by simp)) hroom.2

/-- Along the run `es` the ring holds whole frames in every state, and every packet handed over is
    whole frames of the packets received so far. -/
structure FramesKept (b : Build) (es : List Event) : Prop where
  ring : ∀ pre post, es = pre ++ post →
    ∃ q, (final (step b) (initial b) pre).Queued q ∧ Framed (received pre) q
  packets : ∀ pre post data, es = pre ++ .inCallback :: post →
    handed (step b (final (step b) (initial b) pre) .inCallback).2 = some data →
    Framed (received pre) data

/-- A packet without room fills the ring to its last byte, which no whole frame ends with. -/
theorem roomFor_of_ring {b : Build} {d : Device} (h : ∃ m, SpeakerSim b d m)
    {rcv : List (List UInt8)} (hring : ∃ q, d.Queued q)
    (hnext : ∃ q, (step b d .readPass).1.Queued q ∧ Framed rcv q) : RoomFor d .readPass := by
  obtain ⟨m, hsim⟩ := h
  obtain ⟨q, hq⟩ := hring
  obtain ⟨q', hq', hf⟩ := hnext
  obtain ⟨hdrain, hiff⟩ := drain_iff hsim hq
  rw [hiff]
  intro pkt hm
  by_contra hlt
  have hstep := queue_step hsim.1 hq .readPass
  rw [queueStep, hdrain, hm] at hstep
  have hlen : q'.length = outRbSize.toNat := by
    have h1 := hstep.holds.count
    have h2 := hq'.holds.count
    have h3 := hq.holds.length_le
    rw [hq.size] at h3
    rw [List.length_append, List.length_take] at h1
    omega
  have hdvd := hf.dvd_length
  rw [hlen] at hdvd
  exact absurd hdvd (by decide)

theorem frames_kept_of_room {b : Build} {es : List Event} (he : ∀ e ∈ es, e.WholePacket b)
    (hf : Along (step b) (fun d _ => Advertised b d.curInpFreq) (initial b) es)
    (hroom : Along (step b) RoomFor (initial b) es) : FramesKept b es := by
  constructor
  · rintro pre post rfl
    rw [along_append] at hf hroom
    exact (whole_final (fun g hg => he g (by simp [hg])) hf.1 hroom.1).queue
  · rintro pre post data rfl hh
    rw [along_append] at hf hroom
    obtain ⟨⟨m, hsim, -⟩, -, hmic⟩ :=
      whole_final (fun g hg => he g (by simp [hg])) hf.1 hroom.1
    rw [handed_inCallback hsim.1, Option.some.injEq] at hh
    rw [← hh]
    exact hmic.handed

/-- EXACT: with whole frames coming in and advertised frequencies, a run keeps all frames whole if
    and only if every packet that is drained finds room in the ring. -/
theorem frames_kept_iff (b : Build) (es : List Event) (he : ∀ e ∈ es, e.WholePacket b)
    (hf : Along (step b) (fun d _ => Advertised b d.curInpFreq) (initial b) es) :
    FramesKept b es ↔ Along (step b) RoomFor (initial b) es := by
  refine ⟨fun h => ?_, frames_kept_of_room he hf⟩
  rw [along_iff_forall_split]
  rintro pre e post rfl rfl
  obtain ⟨hsim, -⟩ := speaker_sim (fun f (hf : f ∈ pre) => (he f (by simp [hf])).fits)
    (speakerSim_initial b)
  obtain ⟨q, hq, -⟩ := h.ring pre _ rfl
  have hnext := h.ring (pre ++ [.readPass]) post (by simp)
  rw [final_concat] at hnext
  exact roomFor_of_ring ⟨_, hsim⟩ ⟨q, hq⟩ hnext rfl

/-- A frame is received and drained; the packet built with it is handed over. -/
theorem frames_kept_iff_one :
    FramesKept .fs [.openIntf 1, .openIntf 2, .outCallback [1, 2, 3, 4, 5, 6], .readPass,
      .writePass, .inCallback] :=
  (frames_kept_iff .fs [.openIntf 1, .openIntf 2, .outCallback [1, 2, 3, 4, 5, 6], .readPass,
    .writePass, .inCallback] (by decide)
    (by simp only [along_cons, along_nil, Advertised]; decide)).mpr
    ⟨nofun, nofun, nofun, fun _ _ => by decide, nofun, nofun, trivial⟩

/-- With the microphone closed the fourth packet of a full-speed stream finds 320 bytes of room and
    is cut inside a frame. -/
theorem ring_cuts_frame :
    let pkt := (List.replicate 96 [1, 2, 3, 4, 5, 6]).flatten
    ¬ FramesKept .fs [.openIntf 1, .outCallback pkt, .readPass, .outCallback pkt, .readPass,
      .outCallback pkt, .readPass, .outCallback pkt, .readPass] := by
  intro pkt h
  obtain ⟨q, hq, hf⟩ := h.ring _ [] (List.append_nil _).symm
  have hcount := hq.holds.count
  have hdvd := hf.dvd_length
  rw [← hcount] at hdvd
  exact absurd hdvd (by decide +kernel)

end AudioCard
