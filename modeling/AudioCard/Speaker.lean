import AudioCard.Streams
import AudioCard.Lib.Mailbox

/-! The speaker stream delivers packets as a mailbox with one slot does.

    `out_callback` puts a packet into the half of `read_buffer` that it takes away from the
    controller, `read_samples` takes it out, and `open(1)` and `close(1)` throw it away. The
    simulation `speaker_sim` carries the laws of the mailbox over to the card, in any order of
    events, with the controller storing into the armed half all the while. -/

namespace AudioCard
open Segment

/-- The mailbox operation that an event is for the speaker stream. -/
def speakerOp : Event → Mailbox.Op (List UInt8)
  | .openIntf intf => if intf = 1 then .openBox else .idle
  | .closeIntf intf => if intf = 1 then .closeBox else .idle
  | .outCallback pkt => .put pkt
  | .readPass => .take
  | _ => .idle

/-- The packet of an `out_callback` fits the half it was received in. -/
def Event.Fits (b : Build) : Event → Prop
  | .outCallback pkt => pkt.length ≤ (audioOutPacketSz b).toNat
  | _ => True

instance (b : Build) : (e : Event) → Decidable (e.Fits b)
  | .outCallback pkt => inferInstanceAs (Decidable (pkt.length ≤ (audioOutPacketSz b).toNat))
  | .openIntf _ | .closeIntf _ | .inCallback | .inFbCallback | .setSamplingFreq _ _ _ | .readPass
  | .writePass | .feedbackPass | .dma _ _ => inferInstanceAs (Decidable True)

/-- The two halves do not overlap. -/
theorem halves_disjoint (bf : DblBuffer) {n i k : ℕ} (hn : n ≤ bf.halfsize.toNat)
    (hk : i + k ≤ bf.halfsize.toNat) :
    bf.mainHalf.toNat + n ≤ bf.usbHalf.toNat + i ∨
      bf.usbHalf.toNat + i + k ≤ bf.mainHalf.toNat := by
  cases h : bf.bufferPos with
  | true => left; simp only [DblBuffer.mainHalf, DblBuffer.usbHalf, h]; simp; omega
  | false => right; simp only [DblBuffer.mainHalf, DblBuffer.usbHalf, h]; simp; omega

@[simp] theorem store_opened (s : Speaker) (i : ℕ) (l : List UInt8) :
    (s.store i l).opened = s.opened := by unfold Speaker.store; split <;> rfl

@[simp] theorem store_busy (s : Speaker) (i : ℕ) (l : List UInt8) :
    (s.store i l).busy = s.busy := by unfold Speaker.store; split <;> rfl

@[simp] theorem store_bf (s : Speaker) (i : ℕ) (l : List UInt8) :
    (s.store i l).bf = s.bf := by unfold Speaker.store; split <;> rfl

@[simp] theorem store_armed (s : Speaker) (i : ℕ) (l : List UInt8) :
    (s.store i l).armed = s.armed := by unfold Speaker.store; split <;> rfl

theorem store_bytes {s : Speaker} {t : Transfer} (h : s.armed = some t) (i : ℕ) (l : List UInt8) :
    (s.store i l).bytes = overlay s.bytes (t.off + i) l := by
  simp only [Speaker.store, h]

/-- What is armed stays the controller's half: `open(1)` and each completion arm it anew. -/
theorem usbHalf_armed_step {s : Speaker}
    (harmed : ∀ t, s.armed = some t → t.off = s.bf.usbHalf.toNat ∧ t.len = s.bf.halfsize)
    (e : Event) : ∀ t, (s.step e).1.armed = some t →
      t.off = (s.step e).1.bf.usbHalf.toNat ∧ t.len = (s.step e).1.bf.halfsize := by
  cases e with
  | openIntf intf =>
    simp only [Speaker.step]
    split_ifs
    · rintro t ⟨⟩
      exact ⟨rfl, rfl⟩
    · exact harmed
  | outCallback pkt =>
    simp only [Speaker.step, store_bf]
    rintro t ⟨⟩
    exact ⟨rfl, rfl⟩
  | closeIntf | readPass =>
    simp only [Speaker.step]
    split_ifs <;> exact harmed
  | dma i v =>
    simp only [Speaker.step]
    split_ifs
    · rw [store_armed, store_bf]
      exact harmed
    · exact harmed
  | _ => exact harmed

/-- The controller's stores to the armed half leave the main loop's half alone. -/
theorem slice_store_dma {s : Speaker} {i n : ℕ}
    (harmed : ∀ t, s.armed = some t → t.off = s.bf.usbHalf.toNat ∧ t.len = s.bf.halfsize)
    (hn : n ≤ s.bf.halfsize.toNat)
    (hi : (s.armed.map fun t => decide (i < t.len.toNat)).getD false = true) (v : UInt8) :
    slice (s.store i [v]).bytes s.bf.mainHalf.toNat n = slice s.bytes s.bf.mainHalf.toNat n := by
  cases ht : s.armed with
  | none => simp [ht] at hi
  | some t =>
    obtain ⟨hoff, hlen⟩ := harmed t ht
    simp only [ht, Option.map_some, Option.getD_some, decide_eq_true_eq, hlen] at hi
    rw [store_bytes ht, hoff, slice_overlay_disjoint]
    exact halves_disjoint s.bf hn hi

/-- The speaker stream holds what the mailbox holds: a full slot is a packet in the main loop's
    half, an empty one means that a pass finds nothing to drain. -/
structure Speaker.Holds (b : Build) (s : Speaker) (m : Mailbox.State (List UInt8)) : Prop where
  half : s.bf.halfsize = audioOutPacketSz b
  opened : s.opened = m.isOpen
  armed : ∀ t, s.armed = some t → t.off = s.bf.usbHalf.toNat ∧ t.len = s.bf.halfsize
  isArmed : s.opened = true → s.armed.isSome = true
  empty : m.slot = none → s.draining = false
  full : ∀ pkt, m.slot = some pkt → s.draining = true ∧ s.bf.count.toNat = pkt.length ∧
    pkt.length ≤ s.bf.halfsize.toNat ∧ slice s.bytes s.bf.mainHalf.toNat pkt.length = pkt

theorem speaker_holds_initial (b : Build) : (initial b).speaker.Holds b Mailbox.init where
  half := rfl
  opened := by simp [Device.speaker, initial, audioTestInit, static, Mailbox.init]
  armed := by intro t ht; simp [Device.speaker, initial, audioTestInit, static] at ht
  isArmed := by intro h; simp [Device.speaker, initial, audioTestInit, static] at h
  empty := fun _ => by simp [Device.speaker, Speaker.draining, initial, audioTestInit, static]
  full := by intro pkt h; simp [Mailbox.init] at h

/-- One event: the speaker stream moves as the mailbox does and hands out the same packet. -/
theorem speaker_sim_step {b : Build} {s : Speaker} {m : Mailbox.State (List UInt8)}
    (h : s.Holds b m) (e : Event) (he : e.Fits b) :
    (s.step e).1.Holds b (Mailbox.step m (speakerOp e)).1 ∧
      (s.step e).2 = (Mailbox.step m (speakerOp e)).2 := by
  cases e with
  | openIntf intf =>
    rcases eq_or_ne intf 1 with rfl | hi
    · simp only [Speaker.step, speakerOp, if_true, Mailbox.step]
      refine ⟨⟨h.half, rfl, ?_, fun _ => rfl, fun _ => rfl, by simp⟩, trivial⟩
      rintro t ⟨⟩
      exact ⟨rfl, rfl⟩
    · simp only [Speaker.step, speakerOp, hi, if_false, Mailbox.step]
      exact ⟨h, trivial⟩
  | closeIntf intf =>
    rcases eq_or_ne intf 1 with rfl | hi
    · simp only [Speaker.step, speakerOp, if_true, Mailbox.step]
      exact ⟨⟨h.half, rfl, h.armed, by simp, fun _ => rfl, by simp⟩, trivial⟩
    · simp only [Speaker.step, speakerOp, hi, if_false, Mailbox.step]
      exact ⟨h, trivial⟩
  | outCallback pkt =>
    simp only [Speaker.step, speakerOp, Mailbox.step, store_bf, store_opened]
    refine ⟨⟨h.half, h.opened, ?_, fun _ => rfl, ?_, ?_⟩, trivial⟩
    · rintro t ⟨⟩
      exact ⟨rfl, rfl⟩
    · intro hm
      have hclosed : m.isOpen = false := by
        cases ho : m.isOpen with
        | false => rfl
        | true => simp [ho] at hm
      simp [Speaker.draining, h.opened, hclosed]
    · intro pkt' hm
      simp only [Option.ite_none_right_eq_some, Option.some.injEq] at hm
      obtain ⟨hopen, rfl⟩ := hm
      have hs : s.opened = true := h.opened.trans hopen
      have hsize := s.bf.halfsize.toNat_lt
      have hlen : pkt.length ≤ s.bf.halfsize.toNat := by rw [h.half]; exact he
      obtain ⟨t, ht⟩ := Option.isSome_iff_exists.mp (h.isArmed hs)
      refine ⟨by simp [Speaker.draining, hs], ?_, hlen, ?_⟩
      · simp only [Nat.toUInt32_eq]
        exact Nat.mod_eq_of_lt (by omega)
      · rw [flip_mainHalf, store_bytes ht, (h.armed t ht).1]
        exact slice_overlay _ _ _
  | readPass =>
    simp only [Speaker.step, speakerOp, Mailbox.step]
    cases hm : m.slot with
    | none =>
      rw [h.empty hm]
      exact ⟨⟨h.half, h.opened, h.armed, h.isArmed, fun _ => h.empty hm, by simp⟩, rfl⟩
    | some pkt =>
      obtain ⟨hd, hcount, -, hbytes⟩ := h.full pkt hm
      rw [hd, hcount, hbytes]
      exact ⟨⟨h.half, h.opened, h.armed, h.isArmed, fun _ => by simp [Speaker.draining], by simp⟩,
        rfl⟩
  | dma i v =>
    simp only [Speaker.step, speakerOp, Mailbox.step]
    refine ⟨?_, trivial⟩
    split_ifs with hi
    · refine ⟨by simpa using h.half, by simpa using h.opened, by simpa using h.armed,
        by simpa using h.isArmed, by simpa [Speaker.draining] using h.empty, ?_⟩
      intro pkt hm
      obtain ⟨hd, hcount, hlen, hbytes⟩ := h.full pkt hm
      refine ⟨by simpa [Speaker.draining] using hd, by simpa using hcount, by simpa using hlen, ?_⟩
      rw [store_bf, slice_store_dma h.armed hlen hi, hbytes]
    · exact h
  | inCallback => exact ⟨h, rfl⟩
  | inFbCallback => exact ⟨h, rfl⟩
  | setSamplingFreq entityId epCh freq => exact ⟨h, rfl⟩
  | writePass => exact ⟨h, rfl⟩
  | feedbackPass => exact ⟨h, rfl⟩

/-- The relation of the simulation. -/
def SpeakerSim (b : Build) (d : Device) (m : Mailbox.State (List UInt8)) : Prop :=
  Wired b d ∧ d.speaker.Holds b m

theorem speakerSim_initial (b : Build) : SpeakerSim b (initial b) Mailbox.init :=
  ⟨wired_initial b, speaker_holds_initial b⟩

theorem speakerSim_step {b : Build} (d : Device) (m : Mailbox.State (List UInt8)) (e : Event)
    (h : SpeakerSim b d m) (he : e.Fits b) :
    SpeakerSim b (step b d e).1 (Mailbox.step m (speakerOp e)).1 ∧
      drained (step b d e).2 = (Mailbox.step m (speakerOp e)).2 := by
  obtain ⟨hw, hs⟩ := h
  obtain ⟨hstate, hout⟩ := speaker_step hw e
  obtain ⟨hholds, hmout⟩ := speaker_sim_step hs e he
  refine ⟨⟨wired_step hw e, ?_⟩, hout.trans hmout⟩
  rw [hstate]
  exact hholds

/-- A run of the card drains what the mailbox hands out. -/
theorem speaker_sim {b : Build} {es : List Event} (hfit : ∀ e ∈ es, e.Fits b) {d : Device}
    {m : Mailbox.State (List UInt8)} (h : SpeakerSim b d m) :
    SpeakerSim b (Run.final (step b) d es) (Run.final Mailbox.step m (es.map speakerOp)) ∧
      (Run.outputs (step b) d es).map drained =
        Run.outputs Mailbox.step m (es.map speakerOp) := by
  refine Run.simulation (P := fun _ e => e.Fits b) speakerSim_step h ?_
  refine (Run.along_iff_forall_split d es).mpr ?_
  rintro pre e post rfl
  exact hfit e (by simp)

/-! ### The packets received -/

/-- The event is a completion of the OUT endpoint. -/
def Event.isOut : Event → Bool
  | .outCallback _ => true
  | _ => false

/-- The packets received, in order. -/
def received (es : List Event) : List (List UInt8) :=
  es.filterMap fun
    | .outCallback pkt => some pkt
    | _ => none

theorem puts_map_speakerOp (es : List Event) :
    Mailbox.puts (es.map speakerOp) = received es := by
  rw [Mailbox.puts, List.filterMap_map, received]
  congr 1
  funext e
  cases e with
  | openIntf intf => rcases eq_or_ne intf 1 with rfl | hi <;> simp [speakerOp, *]
  | closeIntf intf => rcases eq_or_ne intf 1 with rfl | hi <;> simp [speakerOp, *]
  | _ => rfl

theorem speakerOp_eq_put {e : Event} {pkt : List UInt8} (h : speakerOp e = .put pkt) :
    e = .outCallback pkt := by
  cases e with
  | openIntf intf => simp only [speakerOp] at h; split at h <;> cases h
  | closeIntf intf => simp only [speakerOp] at h; split at h <;> cases h
  | outCallback pkt' => cases h; rfl
  | _ => cases h

theorem speakerOp_eq_openBox {e : Event} (h : speakerOp e = .openBox) : e = .openIntf 1 := by
  cases e with
  | openIntf intf => simp only [speakerOp] at h; split at h <;> simp_all
  | closeIntf intf => simp only [speakerOp] at h; split at h <;> cases h
  | _ => cases h

theorem speakerOp_take_or_idle {e : Event} (h : e.isOut = false) (ho : e ≠ .openIntf 1)
    (hc : e ≠ .closeIntf 1) : speakerOp e = .take ∨ speakerOp e = .idle := by
  cases e with
  | openIntf intf => exact Or.inr (if_neg fun hi => ho (by rw [hi]))
  | closeIntf intf => exact Or.inr (if_neg fun hi => hc (by rw [hi]))
  | outCallback pkt => cases h
  | readPass => exact Or.inl rfl
  | _ => exact Or.inr rfl

/-- A packet in the mailbox was completed in the running session, and nothing has happened to the
    mailbox since. -/
theorem exists_outCallback_of_slot {es : List Event} {pkt : List UInt8}
    (h : (Run.final Mailbox.step Mailbox.init (es.map speakerOp)).slot = some pkt) :
    ∃ p q, es = p ++ .outCallback pkt :: q ∧
      (∃ p₁ p₂, p = p₁ ++ .openIntf 1 :: p₂ ∧ .closeIntf 1 ∉ p₂) ∧
      ∀ e ∈ q, speakerOp e = .idle := by
  obtain ⟨p', q', hsplit, hopen, hidle⟩ := Mailbox.exists_put_of_slot _ h
  obtain ⟨p, r, rfl, rfl, hr⟩ := List.map_eq_append_iff.mp hsplit
  obtain ⟨e, q, rfl, he, rfl⟩ := List.map_eq_cons_iff.mp hr
  cases speakerOp_eq_put he
  refine ⟨p, q, rfl, ?_, fun f hf => hidle _ (List.mem_map_of_mem hf)⟩
  obtain ⟨p₁', r', hs, hclose⟩ := Mailbox.exists_open_of_isOpen _ hopen
  obtain ⟨p₁, r, rfl, rfl, hr⟩ := List.map_eq_append_iff.mp hs
  obtain ⟨g, p₂, rfl, hg, rfl⟩ := List.map_eq_cons_iff.mp hr
  cases speakerOp_eq_openBox hg
  exact ⟨p₁, p₂, rfl, fun hmem => hclose (List.mem_map.mpr ⟨_, hmem, rfl⟩)⟩

/-- CORRECT: in every run, whatever the order of events,
    * each `ring_buf_write` of `read_samples` is given exactly the bytes of a packet that was
      completed in the running session, after which no other packet was completed, the interface was
      not opened again, and no `ring_buf_write` was issued: so it is the latest packet, and it has
      not been given before;
    * the packets given are a sublist of those received;
    * a packet completed while the interface is open is given by the time a pass of the main loop
      has run, unless another completion, `open(1)` or `close(1)` came first. -/
theorem speaker_packets_delivered (b : Build) (es : List Event) (hfit : ∀ e ∈ es, e.Fits b) :
    (∀ pre e post data, es = pre ++ e :: post →
      drained (step b (Run.final (step b) (initial b) pre) e).2 = some data →
      ∃ p q, pre = p ++ .outCallback data :: q ∧
        (∃ p₁ p₂, p = p₁ ++ .openIntf 1 :: p₂ ∧ .closeIntf 1 ∉ p₂) ∧
        (∀ f ∈ q, f.isOut = false ∧ f ≠ .openIntf 1) ∧
        ∀ io ∈ Run.outputs (step b) (Run.final (step b) (initial b) (p ++ [.outCallback data])) q,
          drained io = none) ∧
    ((Run.outputs (step b) (initial b) es).map drained).reduceOption.Sublist (received es) ∧
    (∀ p pkt q post, es = p ++ .outCallback pkt :: q ++ .readPass :: post →
      (Run.final (step b) (initial b) p).speaker.opened = true →
      (∀ f ∈ q, f.isOut = false ∧ f ≠ .openIntf 1 ∧ f ≠ .closeIntf 1) →
      some pkt ∈ (Run.outputs (step b)
        (Run.final (step b) (initial b) (p ++ [.outCallback pkt])) (q ++ [.readPass])).map
          drained) := by
  refine ⟨?_, ?_, ?_⟩
  · rintro pre e post data rfl hd
    have hpre : ∀ f ∈ pre, f.Fits b := fun f hf => hfit f (by simp [hf])
    obtain ⟨hsim, -⟩ := speaker_sim hpre (speakerSim_initial b)
    obtain ⟨-, hout⟩ := speakerSim_step _ _ e hsim (hfit e (by simp))
    rw [hout] at hd
    have hslot : (Run.final Mailbox.step Mailbox.init (pre.map speakerOp)).slot = some data := by
      cases ho : speakerOp e <;> rw [ho] at hd <;> first | exact hd | cases hd
    obtain ⟨p, q, rfl, hopen, hidle⟩ := exists_outCallback_of_slot hslot
    refine ⟨p, q, rfl, hopen, ?_, ?_⟩
    · intro g hg
      have := hidle g hg
      cases g <;> simp_all [speakerOp, Event.isOut]
    · intro io hio
      have hfitp : ∀ f ∈ p ++ [.outCallback data], f.Fits b :=
        fun f hf => hpre f (by simp at hf ⊢; tauto)
      obtain ⟨hsimp, -⟩ := speaker_sim hfitp (speakerSim_initial b)
      obtain ⟨-, hq⟩ := speaker_sim (fun f (hf : f ∈ q) => hpre f (by simp [hf])) hsimp
      have hmem := List.mem_map_of_mem (f := drained) hio
      rw [hq] at hmem
      refine Mailbox.outputs_idle _ _ (fun o ho => ?_) _ hmem
      obtain ⟨g, hg, rfl⟩ := List.mem_map.mp ho
      exact hidle g hg
  · have hsub := Mailbox.outputs_sublist (es.map speakerOp) Mailbox.init
    rw [← (speaker_sim hfit (speakerSim_initial b)).2, puts_map_speakerOp] at hsub
    simpa [Mailbox.init] using hsub
  · rintro p pkt q post rfl hopened hq
    have hfitp : ∀ f ∈ p, f.Fits b := fun f hf => hfit f (by simp [hf])
    obtain ⟨⟨hw, hs⟩, -⟩ := speaker_sim hfitp (speakerSim_initial b)
    obtain ⟨hsim, -⟩ := speakerSim_step _ _ (.outCallback pkt) ⟨hw, hs⟩ (hfit _ (by simp))
    rw [Run.final_concat]
    have hfitq : ∀ f ∈ q ++ [.readPass], f.Fits b := fun f hf => hfit f (by simp at hf ⊢; tauto)
    rw [(speaker_sim hfitq hsim).2, List.map_append]
    refine Mailbox.mem_outputs_of_slot (q.map speakerOp) ?_ ?_
    · rw [hs.opened] at hopened
      simp only [speakerOp, Mailbox.step, hopened, if_true]
    · intro o ho
      obtain ⟨f, hf, rfl⟩ := List.mem_map.mp ho
      obtain ⟨hout, hopen, hclose⟩ := hq f hf
      exact speakerOp_take_or_idle hout hopen hclose

/-- The first of three packets is superseded; the other two are given to the ring. -/
theorem speaker_packets_delivered_three :
    let pre : List Event := [.openIntf 1, .outCallback [1, 2], .outCallback [3, 4]]
    let es : List Event := pre ++ [.readPass, .outCallback [5], .readPass]
    (∃ p q, pre = p ++ .outCallback [3, 4] :: q ∧ ∀ f ∈ q, f.isOut = false ∧ f ≠ .openIntf 1) ∧
    [[3, 4], [5]].Sublist (received es) ∧
    some [3, 4] ∈ (Run.outputs (step .fs) (Run.final (step .fs) (initial .fs) pre)
      [.readPass]).map drained := by
  intro pre es
  obtain ⟨hgiven, hsub, hdelivered⟩ := speaker_packets_delivered .fs es (by decide)
  refine ⟨?_, hsub, hdelivered [.openIntf 1, .outCallback [1, 2]] [3, 4] [] _ rfl (by decide)
    (by simp)⟩
  obtain ⟨p, q, heq, -, hq, -⟩ := hgiven pre .readPass _ [3, 4] rfl (by decide)
  exact ⟨p, q, heq, hq⟩

end AudioCard
