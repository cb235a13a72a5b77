import AudioCard.Loopback
import AudioCard.Throughput

/-! The loopback packet by packet, from the host and back to it.

    A packet is received, drained into the ring, taken off it and handed over again. Each of the
    three stages keeps the packets whole and in order: `drained_of_legal` and `handed_of_legal` are
    the two ends, `built_isPrefix` is the ring between them, and `loopback_packets` puts them
    together. -/

namespace AudioCard
open Run

/-- The packets handed over for the microphone in the run `es`, in order, but for empty ones. -/
def handedPackets (b : Build) : Device → List Event → List (List UInt8) :=
  collect (step b) fun d e => (handed (step b d e).2).toList.filter (· ≠ [])

/-! ### From the host to the ring -/

/-- In a legal run what has been received has been drained, but for a packet that waits. -/
theorem drained_of_legal {b : Build} {es : List Event} (h : Legal b es) :
    received es = drainedPackets b (initial b) es ++ (mailbox es).slot.toList := by
  induction es using List.reverseRecOn with
  | nil => rfl
  | append_singleton es e ih =>
    obtain ⟨hes, he⟩ := legal_concat.mp h
    have hfit : e.Fits b := h.fits e (by simp)
    have hout := (speakerSim_step _ _ e hes.sim hfit).2
    rw [drainedPackets, collect_concat, ← drainedPackets, hout, mailbox_concat, received,
      List.filterMap_append, ← received, ih hes]
    cases e with
    | openIntf intf =>
      rcases eq_or_ne intf 1 with rfl | hi
      · simp [speakerOp, Mailbox.step, slot_none_of_allowed he (Or.inr rfl)]
      · simp [speakerOp, Mailbox.step, hi]
    | closeIntf intf => cases he
    | outCallback pkt =>
      simp [speakerOp, Mailbox.step, isOpen_of_allowed hes he,
        slot_none_of_allowed he (Or.inl ⟨pkt, rfl⟩)]
    | readPass => simp [speakerOp, Mailbox.step]
    | _ => simp [speakerOp, Mailbox.step]

/-! ### From the ring to the host -/

/-- The packets built and not yet handed over: none, or the one that is ready. -/
def Mic.Waiting (m : Mic) (rest : List (List UInt8)) : Prop :=
  m.busy = false ∧ rest = [] ∨ ∃ data, data ≠ [] ∧ m.Ready data ∧ rest = [data]

/-- Only `in_callback` hands a packet over. -/
theorem handed_eq_none {b : Build} {d : Device} (h : Running b d) {e : Event}
    (he : e ≠ .inCallback) : handed (step b d e).2 = none := by
  obtain ⟨hw, q, hq⟩ := h
  rcases eq_or_ne e .writePass with rfl | hne
  · rw [step, writePass_io hw hq.holds]
    split_ifs <;> rfl
  · refine List.findSome?_eq_none_iff.mpr fun io hio => ?_
    have hno := not_ofMic hne he io hio
    cases io with
    | startWrite ep buf off len data => exact if_neg hno
    | _ => rfl

/-- In a legal run the microphone has nothing ready before it is opened. -/
theorem not_ready_of_allowed {b : Build} {es : List Event} (h : Legal b es)
    (he : (Event.openIntf 2).Allowed b es) :
    (final (step b) (initial b) es).mic.busy = false := by
  have hmic := micHistory h
  refine (hmic.closed ?_).1
  rw [Bool.eq_false_iff, Ne, ← hmic.opened]
  exact he

/-- An event that neither builds a packet nor hands one over leaves things as they are. -/
theorem waiting_other {b : Build} {es : List Event} {e : Event} (h : Legal b es)
    (he : e.Allowed b es) (hc : e ≠ .inCallback)
    (hb : built (step b (final (step b) (initial b) es) e).2 = none) {rest : List (List UInt8)}
    (hwait : (final (step b) (initial b) es).mic.Waiting rest) :
    (step b (final (step b) (initial b) es) e).1.mic.Waiting rest := by
  have hrun := running_final (running_initial b) es
  rcases eq_or_ne e (.openIntf 2) with rfl | ho
  · have hidle := not_ready_of_allowed h he
    obtain ⟨hw, q, hq⟩ := hrun
    rcases hwait with ⟨-, rfl⟩ | ⟨data, -, hready, -⟩
    · refine Or.inl ⟨?_, rfl⟩
      rw [mic_step hw hq.holds]
      exact hidle
    · rw [hready.1] at hidle
      cases hidle
  · have hk : e.KeepsMic := by
      refine ⟨ho, ?_⟩
      rintro intf rfl
      exact he
    rcases hwait with ⟨hidle, rfl⟩ | ⟨data, hdata, hready, rfl⟩
    · refine Or.inl ⟨?_, rfl⟩
      by_contra hbusy
      rw [Bool.not_eq_false] at hbusy
      rw [busy_of_built_none hrun hk hb hbusy] at hidle
      cases hidle
    · exact Or.inr ⟨data, hdata, (ready_step hrun hready hk hc).1, rfl⟩

/-- STEP: what is ready is handed over by the next `in_callback`, which sends nothing else. -/
theorem waiting_inCallback {b : Build} {es : List Event} (h : Legal b es)
    (he : Event.inCallback.Allowed b es) {rest : List (List UInt8)}
    (hwait : (final (step b) (initial b) es).mic.Waiting rest) :
    (handed (step b (final (step b) (initial b) es) .inCallback).2).toList.filter (· ≠ []) = rest ∧
      (step b (final (step b) (initial b) es) .inCallback).1.mic.Waiting [] := by
  obtain ⟨hw, q, hq⟩ := running_final (running_initial b) es
  refine ⟨?_, Or.inl ⟨by rw [mic_step hw hq.holds]; rfl, rfl⟩⟩
  rw [handed_inCallback hw]
  rcases hwait with ⟨hidle, rfl⟩ | ⟨data, hdata, hready, rfl⟩
  · rcases (micHistory h).idle hidle with hzero | ⟨p, r, rfl, hno⟩
    · simp [hzero]
    · exact absurd (he.2 p r rfl) hno
  · rw [hready.2]
    simp [hdata]

/-- In a legal run what has been built has been handed over, but for the last packet. -/
theorem handed_of_legal {b : Build} {n : ℕ} {es : List Event} (hn : 0 < n) (h : Legal b es)
    (hneed : Along (step b) (Asks b n) (initial b) es) :
    ∃ rest, builtPackets b (initial b) es = handedPackets b (initial b) es ++ rest ∧
      (final (step b) (initial b) es).mic.Waiting rest := by
  induction es using List.reverseRecOn with
  | nil => exact ⟨[], rfl, Or.inl ⟨by cases b <;> rfl, rfl⟩⟩
  | append_singleton es e ih =>
    obtain ⟨hes, he⟩ := legal_concat.mp h
    rw [along_concat] at hneed
    obtain ⟨rest, heq, hwait⟩ := ih hes hneed.1
    have hrun := running_final (running_initial b) es
    rw [builtPackets, handedPackets, collect_concat, collect_concat, final_concat, ← builtPackets,
      ← handedPackets, heq]
    rcases eq_or_ne e .inCallback with rfl | hc
    · obtain ⟨hhand, hwait'⟩ := waiting_inCallback hes he hwait
      refine ⟨[], ?_, hwait'⟩
      rw [hhand, built_eq_none hrun (by simp)]
      simp
    · rw [handed_eq_none hrun hc]
      cases hb : built (step b (final (step b) (initial b) es) e).2 with
      | none =>
        refine ⟨rest, by simp, waiting_other hes he hc hb hwait⟩
      | some data =>
        have hready := ready_of_built hrun hb
        have hidle : (final (step b) (initial b) es).mic.busy = false := by
          obtain ⟨hw, q, hq⟩ := hrun
          obtain ⟨-, hf, -⟩ := built_some hw hq.holds hb
          simp only [Mic.filling, Bool.and_eq_true, Bool.not_eq_true'] at hf
          exact hf.2
        have hdata : data ≠ [] := by
          obtain ⟨hw, q, hq⟩ := hrun
          have hlen := length_of_built ⟨hw, hq⟩ hneed.2 hb
          exact List.ne_nil_of_length_pos (by omega)
        rcases hwait with ⟨-, rfl⟩ | ⟨old, -, hold, -⟩
        · exact ⟨[data], by simp, Or.inr ⟨data, hdata, hready, rfl⟩⟩
        · rw [hold.1] at hidle
          cases hidle

/-! ### From the host to the host -/

/-- CORRECT: in a run that opens each interface once, closes none, drains between two completions
    and fills between two `in_callback`s, with all packets of one size and the passes in step, the
    packets handed over to the host are the packets received from it, one for one and in order, and
    no more than the ring and the two halves have room for are missing. -/
theorem loopback_packets (b : Build) (es : List Event) (n : ℕ) (hn : 0 < n) (hlegal : Legal b es)
    (hneed : Along (step b) (Asks b n) (initial b) es)
    (hsize : ∀ pkt ∈ received es, pkt.length = n) (hstep : InStep b (initial b) n es) :
    handedPackets b (initial b) es <+: received es ∧
      (received es).length ≤ (handedPackets b (initial b) es).length + 2048 / n + 2 := by
  have hin := drained_of_legal hlegal
  obtain ⟨rest, hout, hwait⟩ := handed_of_legal hn hlegal hneed
  have hring := built_isPrefix hn ⟨wired_initial b, queued_initial b⟩ hneed
    (fun x hx => hsize x (by rw [hin]; exact List.mem_append_left _ hx)) hstep
  constructor
  · have hfirst : handedPackets b (initial b) es <+: builtPackets b (initial b) es :=
      ⟨rest, hout.symm⟩
    have hlast : drainedPackets b (initial b) es <+: received es := ⟨_, hin.symm⟩
    exact (hfirst.trans hring).trans hlast
  · have hrest : rest.length ≤ 1 := by
      rcases hwait with ⟨-, rfl⟩ | ⟨data, -, -, rfl⟩
      · exact Nat.zero_le _
      · exact Nat.le_refl _
    have hslot : (mailbox es).slot.toList.length ≤ 1 := by cases (mailbox es).slot <;> simp
    have hlag := (hstep es [] (by simp)).2
    have hlenIn := congrArg List.length hin
    have hlenOut := congrArg List.length hout
    rw [List.length_append] at hlenIn hlenOut
    omega

/-- A packet of two bytes, from its completion to the `in_callback` that sends it back. -/
theorem loopback_packets_one :
    let es : List Event := [.setSamplingFreq 0 audioInpEp 334, .openIntf 1, .openIntf 2,
      .outCallback [1, 2], .readPass, .writePass, .inCallback]
    handedPackets .fs (initial .fs) es <+: received es ∧
      (received es).length ≤ (handedPackets .fs (initial .fs) es).length + 2048 / 2 + 2 := by
  intro es
  exact loopback_packets .fs es 2 (by decide) (legal_loop (by decide) 334) (by decide) (by decide)
    (by decide)

end AudioCard
