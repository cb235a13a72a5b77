import AudioCard.Speaker
import AudioCard.MicHandover

/-! The loopback as a pipe: what the speaker stream receives is what the microphone stream has
    handed over, and what is still on the way.

    On the way are, from the oldest byte to the newest, the ring bytes of a filled half, the bytes
    queued in the ring, and a packet that waits to be drained. -/

namespace AudioCard
open Segment Run

/-- An account of the microphone's packets, kept from the calls that are seen outside: how many ring
    bytes the half at an offset was filled with, and the ring bytes handed over so far. -/
structure Ledger where
  carried : ℕ → ℕ
  handed : List UInt8

def Ledger.post (l : Ledger) : Io → Ledger
  | .fill off carried _ _ => { l with carried := Function.update l.carried off carried }
  | .startWrite ep _ off _ data =>
    if ep = audioInpEp then { l with handed := l.handed ++ data.take (l.carried off) } else l
  | _ => l

/-- The account of the run `es`. -/
def ledger (b : Build) (es : List Event) : Ledger :=
  (outputs (step b) (initial b) es).flatten.foldl Ledger.post ⟨fun _ => 0, []⟩

theorem ledger_concat (b : Build) (es : List Event) (e : Event) : ledger b (es ++ [e]) =
    (step b (final (step b) (initial b) es) e).2.foldl Ledger.post (ledger b es) := by
  rw [ledger, outputs_concat, List.flatten_append, List.flatten_singleton, List.foldl_append,
    ← ledger]

/-- The ring bytes of the half that has been filled and not been handed over. -/
def Device.waitingIn (d : Device) (l : Ledger) : List UInt8 :=
  if d.mic.busy then
    (slice d.mic.bytes d.mic.bf.mainHalf.toNat d.mic.bf.count.toNat).take
      (l.carried d.mic.bf.mainHalf.toNat)
  else []

/-- The received packet that has not been drained. -/
def Device.waitingOut (d : Device) : List UInt8 :=
  if d.speaker.draining then
    slice d.speaker.bytes d.speaker.bf.mainHalf.toNat d.speaker.bf.count.toNat
  else []

/-- The event `e` may follow the events `p`: each interface is opened once and never closed, a
    callback of a stream comes after its open, and between two of them the main loop has drained, or
    filled. -/
def Event.Allowed (b : Build) (p : List Event) : Event → Prop
  | .openIntf intf => .openIntf intf ∉ p
  | .closeIntf _ => False
  | .outCallback pkt => pkt.length ≤ (audioOutPacketSz b).toNat ∧ .openIntf 1 ∈ p ∧
      ∀ p₁ x p₂, p = p₁ ++ .outCallback x :: p₂ → .readPass ∈ p₂
  | .inCallback => .openIntf 2 ∈ p ∧ ∀ p₁ p₂, p = p₁ ++ .inCallback :: p₂ → .writePass ∈ p₂
  | _ => True

/-- Every event of the run is allowed after those before it. -/
def Legal (b : Build) (es : List Event) : Prop :=
  ∀ p e q, es = p ++ e :: q → e.Allowed b p

/-- The call is not a `ring_buf_write` that refused bytes. -/
def Io.Accepted : Io → Prop
  | .ringWrite _ ret => ret = 0
  | _ => True

instance : (io : Io) → Decidable io.Accepted
  | .ringWrite _ ret => inferInstanceAs (Decidable (ret = 0))
  | .startRead .. | .startWrite .. | .fill .. => inferInstanceAs (Decidable True)

theorem legal_nil (b : Build) : Legal b [] := by
  intro p e q h
  simp at h

theorem legal_concat {b : Build} {es : List Event} {e : Event} :
    Legal b (es ++ [e]) ↔ Legal b es ∧ e.Allowed b es := forall_split_concat

theorem Legal.of_append {b : Build} {pre post : List Event} (h : Legal b (pre ++ post)) :
    Legal b pre := fun p e q heq => h p e (q ++ post) (by simp [heq])

/-- One packet through both streams. -/
theorem legal_loop {b : Build} {pkt : List UInt8} (h : pkt.length ≤ (audioOutPacketSz b).toNat)
    (freq : UInt32) :
    Legal b [.setSamplingFreq 0 audioInpEp freq, .openIntf 1, .openIntf 2, .outCallback pkt,
      .readPass, .writePass, .inCallback] := by
  have hopen : Legal b ([] ++ [.setSamplingFreq 0 audioInpEp freq] ++ [.openIntf 1] ++
      [.openIntf 2]) := by
    refine legal_concat.mpr ⟨legal_concat.mpr ⟨legal_concat.mpr ⟨legal_nil b, trivial⟩, ?_⟩, ?_⟩
    · simp [Event.Allowed]
    · simp [Event.Allowed]
  have hbuilt : Legal b ([] ++ [.setSamplingFreq 0 audioInpEp freq] ++ [.openIntf 1] ++
      [.openIntf 2] ++ [.outCallback pkt] ++ [.readPass] ++ [.writePass]) := by
    refine legal_concat.mpr ⟨legal_concat.mpr ⟨legal_concat.mpr ⟨hopen, ?_⟩, trivial⟩, trivial⟩
    refine ⟨h, by simp, fun p₁ x p₂ heq => ?_⟩
    have hmem := congrArg (Event.outCallback x ∈ ·) heq
    simp at hmem
  refine (legal_concat (e := .inCallback)).mpr ⟨hbuilt, by simp, fun p₁ p₂ heq => ?_⟩
  have hmem := congrArg (Event.inCallback ∈ ·) heq
  simp at hmem

/-! ### The speaker's side -/

theorem Legal.not_close {b : Build} {es : List Event} (h : Legal b es) (intf : UInt8) :
    .closeIntf intf ∉ es := by
  intro hmem
  obtain ⟨p, q, rfl⟩ := List.append_of_mem hmem
  exact h p _ q rfl

theorem Legal.fits {b : Build} {es : List Event} (h : Legal b es) : ∀ e ∈ es, e.Fits b := by
  intro e he
  obtain ⟨p, q, rfl⟩ := List.append_of_mem he
  have hallowed := h p e q rfl
  cases e with
  | outCallback pkt => exact hallowed.1
  | _ => trivial

/-- The mailbox after the events `es`. -/
def mailbox (es : List Event) : Mailbox.State (List UInt8) :=
  final Mailbox.step Mailbox.init (es.map speakerOp)

theorem mailbox_concat (es : List Event) (e : Event) :
    mailbox (es ++ [e]) = (Mailbox.step (mailbox es) (speakerOp e)).1 := by
  rw [mailbox, List.map_append, List.map_singleton, final_concat, ← mailbox]

theorem Legal.sim {b : Build} {es : List Event} (h : Legal b es) :
    SpeakerSim b (final (step b) (initial b) es) (mailbox es) :=
  (speaker_sim h.fits (speakerSim_initial b)).1

theorem waitingOut_eq {b : Build} {d : Device} {m : Mailbox.State (List UInt8)}
    (h : SpeakerSim b d m) : d.waitingOut = m.slot.getD [] := by
  rw [Device.waitingOut]
  cases hm : m.slot with
  | none =>
    rw [h.2.empty hm]
    rfl
  | some pkt =>
    obtain ⟨hd, hcount, -, hbytes⟩ := h.2.full pkt hm
    rw [if_pos hd, hcount, hbytes]
    rfl

/-- In a legal run a completion finds the mailbox open and empty, and the open finds it empty. -/
theorem slot_none_of_allowed {b : Build} {es : List Event} {e : Event} (he : e.Allowed b es)
    (hop : (∃ pkt, e = .outCallback pkt) ∨ e = .openIntf 1) : (mailbox es).slot = none := by
  cases hm : (mailbox es).slot with
  | none => rfl
  | some x =>
    obtain ⟨p, q, rfl, ⟨p₁, p₂, rfl, -⟩, hidle⟩ := exists_outCallback_of_slot hm
    rcases hop with ⟨pkt, rfl⟩ | rfl
    · cases hidle _ (he.2.2 _ x q rfl)
    · exact absurd (by simp) he

theorem isOpen_of_allowed {b : Build} {es : List Event} (h : Legal b es) {pkt : List UInt8}
    (he : (Event.outCallback pkt).Allowed b es) : (mailbox es).isOpen = true := by
  refine Mailbox.isOpen_of_mem (List.mem_map.mpr ⟨_, he.2.1, rfl⟩) fun hmem => ?_
  obtain ⟨f, hf, hop⟩ := List.mem_map.mp hmem
  cases f with
  | closeIntf intf => exact h.not_close intf hf
  | openIntf intf => simp only [speakerOp] at hop; split at hop <;> cases hop
  | _ => cases hop

/-- What waits to be drained after one more event, when `w` waited before. -/
def waitingNext (w : List UInt8) : Event → List UInt8
  | .outCallback pkt => pkt
  | .readPass => []
  | _ => w

theorem waitingOut_step {b : Build} {es : List Event} {e : Event} (h : Legal b (es ++ [e])) :
    (final (step b) (initial b) (es ++ [e])).waitingOut =
      waitingNext (final (step b) (initial b) es).waitingOut e := by
  obtain ⟨hes, he⟩ := legal_concat.mp h
  rw [waitingOut_eq h.sim, waitingOut_eq hes.sim, mailbox_concat]
  cases e with
  | openIntf intf =>
    rcases eq_or_ne intf 1 with rfl | hi
    · simp [speakerOp, Mailbox.step, waitingNext, slot_none_of_allowed he (Or.inr rfl)]
    · simp [speakerOp, Mailbox.step, waitingNext, hi]
  | closeIntf intf => cases he
  | outCallback pkt => simp [speakerOp, Mailbox.step, waitingNext, isOpen_of_allowed hes he]
  | _ => rfl

/-! ### The microphone's side -/

/-- What the events so far say about the microphone stream: it is open from its open on, before that
    it is at rest, and while its busy bit is clear the next callback has nothing to send or must
    wait for a pass. -/
structure MicHistory (es : List Event) (m : Mic) : Prop where
  opened : .openIntf 2 ∈ es ↔ m.opened = true
  closed : m.opened = false → m.busy = false ∧ m.bf.count = 0
  idle : m.busy = false →
    m.bf.count = 0 ∨ ∃ p q, es = p ++ .inCallback :: q ∧ .writePass ∉ q

/-- One more event that neither opens the microphone nor fills. -/
theorem MicHistory.other {es : List Event} {m : Mic} (h : MicHistory es m) {e : Event}
    (ho : e ≠ .openIntf 2) (hw : e ≠ .writePass) : MicHistory (es ++ [e]) m where
  opened := by
    rw [List.mem_append, List.mem_singleton, h.opened]
    exact or_iff_left fun heq => ho heq.symm
  closed := h.closed
  idle := by
    intro hb
    rcases h.idle hb with hzero | ⟨p, q, rfl, hq⟩
    · exact Or.inl hzero
    · refine Or.inr ⟨p, q ++ [e], by simp, ?_⟩
      rw [List.mem_append, List.mem_singleton, not_or]
      exact ⟨hq, fun heq => hw heq.symm⟩

theorem micHistory_step {b : Build} {es : List Event} {m : Mic} (h : MicHistory es m) {e : Event}
    (he : e.Allowed b es) (packet : List UInt8) : MicHistory (es ++ [e]) (m.step packet e) := by
  cases e with
  | openIntf intf =>
    rw [Mic.step]
    split_ifs with hi
    · subst hi
      exact ⟨by simp, fun hc => Bool.noConfusion hc, fun _ => Or.inl rfl⟩
    · exact h.other (fun heq => hi (Event.openIntf.inj heq)) (by simp)
  | closeIntf intf => cases he
  | inCallback =>
    obtain ⟨ho, -, -⟩ := h.other (e := .inCallback) (by simp) (by simp)
    have hopened : m.opened = true := h.opened.mp he.1
    refine ⟨ho, fun hc => ?_, fun _ => Or.inr ⟨es, [], rfl, by simp⟩⟩
    rw [Mic.step, hopened] at hc
    cases hc
  | writePass =>
    have hmem : Event.openIntf 2 ∈ es ++ [.writePass] ↔ m.opened = true := by
      rw [← h.opened]
      simp
    rw [Mic.step]
    split_ifs with hf
    · simp only [Mic.filling, Bool.and_eq_true] at hf
      refine ⟨hmem, fun hc => ?_, fun hc => Bool.noConfusion hc⟩
      rw [hf.1] at hc
      cases hc
    · refine ⟨hmem, h.closed, fun hb => Or.inl ?_⟩
      have hc : m.opened = false := by simpa [Mic.filling, hb] using hf
      exact (h.closed hc).2
  | _ => exact h.other (by simp) (by simp)

theorem micHistory {b : Build} {es : List Event} (h : Legal b es) :
    MicHistory es (final (step b) (initial b) es).mic := by
  induction es using List.reverseRecOn with
  | nil =>
    refine ⟨?_, fun _ => ⟨?_, rfl⟩, fun _ => Or.inl rfl⟩
    · simp [Device.mic, initial, audioTestInit, static]
    · simp [Device.mic, initial, audioTestInit, static]
  | append_singleton es e ih =>
    obtain ⟨hes, he⟩ := legal_concat.mp h
    obtain ⟨hw, q, hq⟩ := running_final (running_initial b) es
    rw [final_concat, mic_step hw hq.holds]
    exact micHistory_step (ih hes) he _

/-! ### The balance -/

/-- After the events `es` every byte received has been handed over, or is on the way. -/
def Balanced (b : Build) (es : List Event) : Prop :=
  let d := final (step b) (initial b) es
  ∃ q, d.Queued q ∧ (received es).flatten =
    (ledger b es).handed ++ d.waitingIn (ledger b es) ++ q ++ d.waitingOut

/-- Calls that do not belong to the microphone leave the account as it is. -/
theorem post_of_not_ofMic (l : Ledger) (io : Io) (h : ¬ io.OfMic) : l.post io = l := by
  cases io with
  | fill off carried data stores => exact absurd trivial h
  | startWrite ep buf off len data => exact if_neg h
  | _ => rfl

/-- An event that fills no half and hands none over: the account stays, and so does what waits in
    the half. -/
theorem mic_balance {b : Build} {es : List Event} {e : Event} (h : Legal b (es ++ [e]))
    (hw : e ≠ .writePass) (hc : e ≠ .inCallback) :
    ledger b (es ++ [e]) = ledger b es ∧
      (final (step b) (initial b) (es ++ [e])).waitingIn (ledger b es) =
        (final (step b) (initial b) es).waitingIn (ledger b es) := by
  obtain ⟨hes, he⟩ := legal_concat.mp h
  obtain ⟨hwired, q, hq⟩ := running_final (running_initial b) es
  refine ⟨?_, ?_⟩
  · rw [ledger_concat, foldl_of_not_ofMic post_of_not_ofMic (not_ofMic hw hc)]
  · rw [Device.waitingIn, Device.waitingIn, final_concat, mic_step hwired hq.holds]
    cases e with
    | openIntf intf =>
      rcases eq_or_ne intf 2 with rfl | hi
      · have hmic := micHistory hes
        have hno : (final (step b) (initial b) es).mic.opened = false := by
          rw [Bool.eq_false_iff, Ne, ← hmic.opened]
          exact he
        simp [Mic.step, (hmic.closed hno).1]
      · simp [Mic.step, hi]
    | closeIntf intf => cases he
    | inCallback => exact absurd rfl hc
    | writePass => exact absurd rfl hw
    | _ => rfl

/-- The ring bytes of a packet. -/
theorem take_micPacket (q : List UInt8) (n : ℕ) :
    (micPacket q n).take (min n q.length) = q.take n := by
  rw [micPacket, List.take_append_of_le_length (Nat.le_of_eq List.length_take.symm)]
  rw [List.take_take]
  rcases Nat.le_total n q.length with hle | hle
  · rw [Nat.min_eq_left hle, Nat.min_self]
  · rw [Nat.min_eq_right hle, Nat.min_eq_left hle, List.take_length, List.take_of_length_le hle]

/-- A pass of the main loop over the microphone: the bytes it takes off the ring wait in the
    half. -/
theorem writePass_balance {b : Build} {es : List Event} {q : List UInt8}
    (hq : (final (step b) (initial b) es).Queued q) :
    let d := final (step b) (initial b) es
    let d' := final (step b) (initial b) (es ++ [.writePass])
    (ledger b (es ++ [.writePass])).handed ++ d'.waitingIn (ledger b (es ++ [.writePass])) ++
        queueStep b d q .writePass =
      (ledger b es).handed ++ d.waitingIn (ledger b es) ++ q := by
  intro d d'
  obtain ⟨hw, -⟩ : Running b d := running_final (running_initial b) es
  have hd' : d'.mic = d.mic.step (micPacket q (d.needLen b)) .writePass := by
    simp only [d', final_concat]
    exact mic_step hw hq.holds .writePass
  have hl := ledger_concat b es .writePass
  rw [step, writePass_io hw hq.holds] at hl
  by_cases hf : d.mic.filling = true
  · rw [if_pos hf] at hl
    simp only [List.foldl_cons, List.foldl_nil, Ledger.post] at hl
    have hbusy : d.mic.busy = false := by
      simp only [Mic.filling, Bool.and_eq_true, Bool.not_eq_true'] at hf
      exact hf.2
    have hbuilt : built (step b d .writePass).2 = some (micPacket q (d.needLen b)) := by
      rw [step, writePass_io hw hq.holds, if_pos hf]
      rfl
    have hready := ready_of_built ⟨hw, q, hq⟩ hbuilt
    -- the half is marked with the ring bytes that the packet begins with
    have hslice : slice d'.mic.bytes d'.mic.bf.mainHalf.toNat d'.mic.bf.count.toNat =
        micPacket q (d.needLen b) := by
      simp only [d', final_concat]
      exact hready.2
    have hset : d'.mic.busy = true := by
      simp only [d', final_concat]
      exact hready.1
    have hmain : d'.mic.bf.mainHalf = d.mic.bf.mainHalf := by
      rw [hd', Mic.step, if_pos hf]
      rfl
    have hin : d'.waitingIn (ledger b (es ++ [.writePass])) = q.take (d.needLen b) := by
      rw [Device.waitingIn, if_pos hset, hslice, hmain, hl]
      simp only [Function.update_self, take_micPacket]
    rw [hin, hl, Device.waitingIn, if_neg (by simp [hbusy]), queueStep, if_pos hf,
      List.append_assoc, List.take_append_drop, List.append_nil]
  · rw [if_neg hf] at hl
    rw [List.foldl_nil] at hl
    rw [hl, Device.waitingIn, hd', Mic.step, if_neg hf, queueStep, if_neg hf]
    rfl

/-- An `in_callback`: what waited in the half is handed over, or there was nothing. -/
theorem inCallback_balance {b : Build} {es : List Event} (h : Legal b (es ++ [.inCallback])) :
    let d' := final (step b) (initial b) (es ++ [.inCallback])
    (ledger b (es ++ [.inCallback])).handed ++ d'.waitingIn (ledger b (es ++ [.inCallback])) =
      (ledger b es).handed ++ (final (step b) (initial b) es).waitingIn (ledger b es) := by
  intro d'
  obtain ⟨hes, he⟩ := legal_concat.mp h
  obtain ⟨hw, q, hq⟩ := running_final (running_initial b) es
  have hidle : d'.mic.busy = false := by
    simp only [d', final_concat, mic_step hw hq.holds]
    rfl
  have hl := ledger_concat b es .inCallback
  rw [step, inCallback_io hw] at hl
  simp only [List.foldl_cons, List.foldl_nil, Ledger.post, if_true] at hl
  rw [hl, Device.waitingIn, if_neg (by simp [hidle]), List.append_nil, Device.waitingIn]
  split_ifs with hb
  · rfl
  · rw [Bool.not_eq_true] at hb
    rcases (micHistory hes).idle hb with hzero | ⟨p, r, rfl, hno⟩
    · simp [hzero]
    · exact absurd (he.2 p r rfl) hno

/-- One more event of a legal run keeps the balance, if its `ring_buf_write` refuses nothing. -/
theorem balanced_concat {b : Build} {es : List Event} {e : Event} (h : Legal b (es ++ [e]))
    (hbal : Balanced b es)
    (hret : ∀ io ∈ (step b (final (step b) (initial b) es) e).2, io.Accepted) :
    Balanced b (es ++ [e]) := by
  obtain ⟨q, hq, heq⟩ := hbal
  obtain ⟨hes, he⟩ := legal_concat.mp h
  obtain ⟨hw, -⟩ := running_final (running_initial b) es
  have hrcv : (received (es ++ [e])).flatten = (received es).flatten ++ (received [e]).flatten := by
    rw [received, List.filterMap_append, List.flatten_append, ← received, ← received]
  have hout := waitingOut_step h
  refine ⟨_, by rw [final_concat]; exact queue_step hw hq e, ?_⟩
  rw [hrcv, heq]
  cases e with
  | writePass =>
    rw [hout, writePass_balance hq]
    exact List.append_nil _
  | inCallback =>
    rw [hout, inCallback_balance h]
    exact List.append_nil _
  | readPass =>
    obtain ⟨hl, hin⟩ := mic_balance h (by simp) (by simp)
    have hdrain := (speaker_sim_step hes.sim.2 .readPass trivial).2
    rw [hout, hl, hin, waitingOut_eq hes.sim]
    cases hm : (mailbox es).slot with
    | none =>
      have hnone := hdrain.trans hm
      simp [queueStep, hnone, received, waitingNext]
    | some pkt =>
      have hsome := hdrain.trans hm
      obtain ⟨-, ret, hio, hleft⟩ := readPass_drains hw hq hsome
      have hzero : ret = 0 := hret (.ringWrite pkt ret) (by rw [step, hio]; simp)
      rw [hzero, UInt32.toNat_zero] at hleft
      have htake : pkt.take (outRbSize.toNat - q.length) = pkt :=
        List.take_of_length_le (by omega)
      simp [queueStep, hsome, htake, received, waitingNext]
  | outCallback pkt =>
    obtain ⟨hl, hin⟩ := mic_balance h (by simp) (by simp)
    have hnone := slot_none_of_allowed he (Or.inl ⟨pkt, rfl⟩)
    rw [hout, hl, hin, waitingOut_eq hes.sim, hnone]
    simp [received, queueStep, waitingNext]
  | closeIntf intf => cases he
  | _ =>
    obtain ⟨hl, hin⟩ := mic_balance h (by simp) (by simp)
    rw [hout, hl, hin]
    exact List.append_nil _

theorem balanced_of_legal {b : Build} {es : List Event} (h : Legal b es)
    (hret : Along (step b) (fun d e => ∀ io ∈ (step b d e).2, io.Accepted) (initial b) es) :
    Balanced b es := by
  induction es using List.reverseRecOn with
  | nil => exact ⟨[], queued_initial b, by cases b <;> rfl⟩
  | append_singleton es e ih =>
    rw [along_concat] at hret
    exact balanced_concat h (ih (legal_concat.mp h).1 hret.1) hret.2

/-- CORRECT: in a run that opens each interface once, closes none, drains between two completions,
    fills between two `in_callback`s with packets that fit a half, and has no byte refused by the
    ring, the received packets, joined, are in every state the ring bytes handed over, those of the
    half filled last, those queued in the ring, and the packet that waits; and no more than a half
    is ever handed over. -/
theorem loopback_conserved (b : Build) (es : List Event) (h : Legal b es)
    (hfit : Along (step b) (FillFits b) (initial b) es)
    (hret : Along (step b) (fun d e => ∀ io ∈ (step b d e).2, io.Accepted) (initial b) es) :
    ∀ pre post, es = pre ++ post →
      Balanced b pre ∧ (final (step b) (initial b) pre).writeBf.count ≤ audioInpPacketSz b := by
  rintro pre post rfl
  rw [along_append] at hret hfit
  exact ⟨balanced_of_legal h.of_append hret.1, (countFits_final (countFits_initial b) hfit.1).2⟩

/-- A packet of three bytes, of which two have been sent back. -/
theorem loopback_conserved_one :
    let es : List Event := [.setSamplingFreq 0 audioInpEp 334, .openIntf 1, .openIntf 2,
      .outCallback [1, 2, 3], .readPass, .writePass, .inCallback]
    Balanced .fs es ∧ (final (step .fs) (initial .fs) es).writeBf.count ≤ audioInpPacketSz .fs :=
  loopback_conserved .fs _ (legal_loop (by decide) 334) (by decide) (by decide) _ [] rfl

end AudioCard
