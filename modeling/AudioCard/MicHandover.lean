import AudioCard.MicBounds

/-! Which packets of the microphone path reach the host.

    `write_samples` builds a packet only when the busy bit is clear, and the next `in_callback`
    hands it over whole. An `in_callback` that comes when nothing has been built since the last one
    toggles all the same and hands over the other half with the old `count`: a packet that was sent
    two callbacks ago. -/

namespace AudioCard
open Segment Run

/-- The packet that `write_samples` builds among the calls `io`. -/
def built (io : List Io) : Option (List UInt8) :=
  io.findSome? fun
    | .fill _ _ data _ => some data
    | _ => none

/-- The bytes that `usbd_audio_in_callback` hands over among the calls `io`. -/
def handed (io : List Io) : Option (List UInt8) :=
  io.findSome? fun
    | .startWrite ep _ _ _ data => if ep = audioInpEp then some data else none
    | _ => none

/-- A packet is ready: the busy bit is set, and the half that the next `in_callback` hands over
    holds `data`. -/
def Mic.Ready (m : Mic) (data : List UInt8) : Prop :=
  m.busy = true ∧ slice m.bytes m.bf.mainHalf.toNat m.bf.count.toNat = data

/-- Nothing but a pass that fills builds a packet. -/
theorem built_some {b : Build} {d : Device} {q : List UInt8} (h : Wired b d)
    (hq : d.outRb.Holds q) {e : Event} {data : List UInt8}
    (hb : built (step b d e).2 = some data) :
    e = .writePass ∧ d.mic.filling = true ∧ data = micPacket q (d.needLen b) := by
  obtain ⟨io, hio, hdata⟩ := List.exists_of_findSome?_eq_some hb
  rcases eq_or_ne e .writePass with rfl | hw
  · rw [step, writePass_io h hq] at hb
    split_ifs at hb with hf
    · exact ⟨rfl, hf, (Option.some.inj hb).symm⟩
    · cases hb
  · rcases eq_or_ne e .inCallback with rfl | hi
    · cases hb
    · have hno := not_ofMic hw hi io hio
      cases io with
      | fill off carried data' stores => exact absurd trivial hno
      | _ => cases hdata

theorem handed_inCallback {b : Build} {d : Device} (h : Wired b d) :
    handed (step b d .inCallback).2 =
      some (slice d.mic.bytes d.mic.bf.mainHalf.toNat d.mic.bf.count.toNat) := by
  rw [step, inCallback_io h]
  rfl

/-- The event neither opens the microphone interface nor closes an interface. -/
def Event.KeepsMic (e : Event) : Prop := e ≠ .openIntf 2 ∧ ∀ intf, e ≠ .closeIntf intf

/-- A packet that has been built is ready. -/
theorem ready_of_built {b : Build} {d : Device} (h : Running b d) {e : Event} {data : List UInt8}
    (hb : built (step b d e).2 = some data) : (step b d e).1.mic.Ready data := by
  obtain ⟨hw, q, hq⟩ := h
  obtain ⟨rfl, hf, rfl⟩ := built_some hw hq.holds hb
  have hlen : ((micPacket q (d.needLen b)).length.toUInt32).toNat =
      (micPacket q (d.needLen b)).length := by
    rw [length_micPacket]
    simp [Device.needLen]
  rw [mic_step hw hq.holds, Mic.step, if_pos hf]
  refine ⟨rfl, ?_⟩
  simp only [hlen]
  exact slice_overlay _ _ _

/-- It stays ready, and no other packet is built, until the next `in_callback`. -/
theorem ready_step {b : Build} {d : Device} (h : Running b d) {data : List UInt8}
    (hr : d.mic.Ready data) {e : Event} (hk : e.KeepsMic) (he : e ≠ .inCallback) :
    (step b d e).1.mic.Ready data ∧ built (step b d e).2 = none := by
  obtain ⟨hw, q, hq⟩ := h
  have hf : d.mic.filling = false := by simp [Mic.filling, hr.1]
  constructor
  · rw [mic_step hw hq.holds]
    cases e with
    | openIntf intf =>
      have hi : intf ≠ 2 := fun hi => hk.1 (by rw [hi])
      rw [Mic.step, if_neg hi]
      exact hr
    | closeIntf intf => exact absurd rfl (hk.2 intf)
    | inCallback => exact absurd rfl he
    | writePass =>
      rw [Mic.step, hf]
      exact hr
    | _ => exact hr
  · cases hb : built (step b d e).2 with
    | none => rfl
    | some data' =>
      obtain ⟨-, hf', -⟩ := built_some hw hq.holds hb
      rw [hf] at hf'
      cases hf'

/-- Only a pass that builds a packet sets the busy bit. -/
theorem busy_of_built_none {b : Build} {d : Device} (h : Running b d) {e : Event}
    (hk : e.KeepsMic) (hb : built (step b d e).2 = none) (hbusy : (step b d e).1.mic.busy = true) :
    d.mic.busy = true := by
  obtain ⟨hw, q, hq⟩ := h
  rw [mic_step hw hq.holds] at hbusy
  cases e with
  | writePass =>
    rw [step, writePass_io hw hq.holds] at hb
    by_cases hf : d.mic.filling = true
    · rw [if_pos hf] at hb
      cases hb
    · simpa [Mic.step, hf] using hbusy
  | openIntf intf =>
    have hi : intf ≠ 2 := fun hi => hk.1 (by rw [hi])
    simpa [Mic.step, hi] using hbusy
  | closeIntf intf => exact absurd rfl (hk.2 intf)
  | inCallback => cases hbusy
  | _ => exact hbusy

/-- In a run that starts with the busy bit clear, a set busy bit means that a packet has been built
    since the last `in_callback`, and is ready. -/
theorem exists_built_of_busy {b : Build} {s : Device} (hs : Running b s)
    (hbusy : s.mic.busy = false) (es : List Event) (hk : ∀ e ∈ es, e.KeepsMic) :
    (final (step b) s es).mic.busy = true →
    ∃ p e q data, es = p ++ e :: q ∧ .inCallback ∉ q ∧
      built (step b (final (step b) s p) e).2 = some data ∧
      (final (step b) s es).mic.Ready data := by
  induction es using List.reverseRecOn with
  | nil => intro h; rw [final_nil, hbusy] at h; cases h
  | append_singleton es f ih =>
    intro h
    have hrun : Running b (final (step b) s es) := running_final hs es
    rw [final_concat] at h ⊢
    cases hb : built (step b (final (step b) s es) f).2 with
    | some data => exact ⟨es, f, [], data, rfl, by simp, hb, ready_of_built hrun hb⟩
    | none =>
      have hkf : f.KeepsMic := hk f (by simp)
      have hne : f ≠ .inCallback := by
        rintro rfl
        obtain ⟨hw, q, hq⟩ := hrun
        rw [mic_step hw hq.holds] at h
        cases h
      have hold := busy_of_built_none hrun hkf hb h
      obtain ⟨p, e, q, data, rfl, hq, hbuilt, hready⟩ := ih (fun e he => hk e (by simp [he])) hold
      refine ⟨p, e, q ++ [f], data, by simp, ?_, hbuilt, (ready_step hrun hready hkf hne).1⟩
      simp only [List.mem_append, List.mem_singleton, not_or]
      exact ⟨hq, fun h => hne h.symm⟩

/-- A packet that has been built is still ready as long as no `in_callback` has come. -/
theorem ready_final {b : Build} {data : List UInt8} {es : List Event} {d : Device}
    (hd : Running b d) (hr : d.mic.Ready data) (hk : ∀ e ∈ es, e.KeepsMic)
    (hno : .inCallback ∉ es) : (final (step b) d es).mic.Ready data := by
  refine (invariant_of_forall (I := fun d => Running b d ∧ d.mic.Ready data) ?_ ⟨hd, hr⟩).2
  rintro e hmem d ⟨hrun, hready⟩
  have hne : e ≠ .inCallback := fun heq => hno (heq ▸ hmem)
  exact ⟨running_step d e hrun, (ready_step hrun hready (hk e hmem) hne).1⟩

/-! ### Every packet once -/

/-- Along the run `es` from `s` every packet that is built reaches the host once. -/
structure HandedOver (b : Build) (s : Device) (es : List Event) : Prop where
  /-- From a packet to the next `in_callback` no other packet is built, and that `in_callback`
      hands over exactly this one. -/
  next : ∀ p e q data, es = p ++ e :: q →
    built (step b (final (step b) s p) e).2 = some data →
    ∀ mid f rest, q = mid ++ f :: rest → .inCallback ∉ mid →
      let d := final (step b) s (p ++ e :: mid)
      built (step b d f).2 = none ∧ (f = .inCallback → handed (step b d f).2 = some data)
  /-- What an `in_callback` hands over is empty or was built since the last one: nothing is sent a
      second time. -/
  fresh : ∀ p q data, es = p ++ .inCallback :: q →
    handed (step b (final (step b) s p) .inCallback).2 = some data →
    data = [] ∨ ∃ p₁ e p₂, p = p₁ ++ e :: p₂ ∧ .inCallback ∉ p₂ ∧
      built (step b (final (step b) s p₁) e).2 = some data

/-- The first half holds of every run. -/
theorem next_of_running {b : Build} {s : Device} (hs : Running b s) {es : List Event}
    (hk : ∀ e ∈ es, e.KeepsMic) {p : List Event} {e : Event} {q : List Event} {data : List UInt8}
    (hes : es = p ++ e :: q) (hb : built (step b (final (step b) s p) e).2 = some data)
    {mid : List Event} {f : Event} {rest : List Event} (hq : q = mid ++ f :: rest)
    (hno : .inCallback ∉ mid) :
    let d := final (step b) s (p ++ e :: mid)
    built (step b d f).2 = none ∧ (f = .inCallback → handed (step b d f).2 = some data) := by
  subst hes hq
  intro d
  have hrun : Running b d := running_final hs _
  have hready : d.mic.Ready data := by
    have hd : d = final (step b) (step b (final (step b) s p) e).1 mid := by
      simp only [d, final_append, final_cons]
    rw [hd]
    refine ready_final (running_step _ _ (running_final hs p))
      (ready_of_built (running_final hs p) hb) (fun g hg => hk g ?_) hno
    simp [hg]
  rcases eq_or_ne f .inCallback with rfl | hf
  · refine ⟨rfl, fun _ => ?_⟩
    rw [handed_inCallback hrun.1, hready.2]
  · exact ⟨(ready_step hrun hready (hk f (by simp)) hf).2, fun h => absurd h hf⟩

/-- An `in_callback` finds a packet built since the last one, or nothing at all to send. -/
def Fed (d : Device) (e : Event) : Prop :=
  e = .inCallback → d.mic.busy = true ∨ d.mic.bf.count = 0

theorem handedOver_iff {b : Build} {s : Device} (hs : Running b s) (hbusy : s.mic.busy = false)
    {es : List Event} (hk : ∀ e ∈ es, e.KeepsMic) :
    HandedOver b s es ↔ Along (step b) Fed s es := by
  rw [along_iff_forall_split]
  constructor
  · rintro ⟨-, hfresh⟩ p e q rfl rfl
    have hrun : Running b (final (step b) s p) := running_final hs p
    by_cases hcount : (final (step b) s p).mic.bf.count = 0
    · exact Or.inr hcount
    · left
      rcases hfresh p q _ rfl (handed_inCallback hrun.1) with hnil | ⟨p₁, e, p₂, rfl, hno, hb⟩
      · have hlen := congrArg List.length hnil
        rw [length_slice, List.length_nil] at hlen
        exact absurd (UInt32.toNat_inj.mp hlen) hcount
      · rw [final_append, final_cons]
        refine (ready_final (running_step _ _ (running_final hs p₁))
          (ready_of_built (running_final hs p₁) hb) (fun g hg => hk g ?_) hno).1
        simp [hg]
  · intro hfed
    refine ⟨fun p e q data hes hb mid f rest hq hno => next_of_running hs hk hes hb hq hno, ?_⟩
    rintro p q data rfl hh
    have hrun : Running b (final (step b) s p) := running_final hs p
    rw [handed_inCallback hrun.1, Option.some.injEq] at hh
    rcases hfed p _ q rfl rfl with hset | hzero
    · right
      obtain ⟨p₁, e, p₂, data', rfl, hno, hb, hready⟩ :=
        exists_built_of_busy hs hbusy p (fun g hg => hk g (by simp [hg])) hset
      rw [hready.2] at hh
      exact ⟨p₁, e, p₂, rfl, hno, hh ▸ hb⟩
    · left
      rw [← hh, hzero]
      rfl

/-! ### From the start -/

/-- Before the microphone interface is opened its busy bit is clear and no packet is built. -/
theorem silent_final {b : Build} {es : List Event}
    (hpre : ∀ e ∈ es, e ≠ .openIntf 2 ∧ e ≠ .inCallback) :
    (final (step b) (initial b) es).mic.opened = false ∧
      (final (step b) (initial b) es).mic.busy = false := by
  induction es using List.reverseRecOn with
  | nil => exact ⟨by cases b <;> decide, by cases b <;> decide⟩
  | append_singleton es e ih =>
    obtain ⟨ho, hb⟩ := ih fun f hf => hpre f (by simp [hf])
    obtain ⟨hopen, -⟩ := hpre e (by simp)
    obtain ⟨hw, q, hq⟩ := running_final (running_initial b) es
    rw [final_concat, mic_step hw hq.holds]
    cases e with
    | openIntf intf =>
      have hi : intf ≠ 2 := fun hi => hopen (by rw [hi])
      simp [Mic.step, hi, ho, hb]
    | closeIntf intf =>
      simp only [Mic.step]
      split_ifs
      · exact ⟨ho, hb⟩
      · exact ⟨rfl, rfl⟩
    | inCallback => exact ⟨ho, rfl⟩
    | writePass => simp [Mic.step, Mic.filling, ho, hb]
    | _ => exact ⟨ho, hb⟩

/-- Nothing reaches the host before the microphone interface is opened. -/
theorem silent_along {b : Build} {es : List Event}
    (hpre : ∀ e ∈ es, e ≠ .openIntf 2 ∧ e ≠ .inCallback) :
    Along (step b) (fun d e => built (step b d e).2 = none) (initial b) es := by
  rw [along_iff_forall_split]
  rintro p e q rfl
  obtain ⟨ho, -⟩ := silent_final (b := b) fun f (hf : f ∈ p) => hpre f (by simp [hf])
  obtain ⟨hw, r, hr⟩ := running_final (running_initial b) p
  cases hb : built (step b (final (step b) (initial b) p) e).2 with
  | none => rfl
  | some data =>
    obtain ⟨-, hf, -⟩ := built_some hw hr.holds hb
    simp [Mic.filling, ho] at hf

/-- EXACT: in a run that opens the microphone interface once and then leaves both interfaces open,
    every packet that `write_samples` builds is handed over once and in order, and nothing else is,
    if and only if no `in_callback` comes while there is nothing new to send. -/
theorem mic_packets_once_iff (b : Build) (pre post : List Event)
    (hpre : ∀ e ∈ pre, e ≠ .openIntf 2 ∧ e ≠ .inCallback) (hpost : ∀ e ∈ post, e.KeepsMic) :
    let s := final (step b) (initial b) (pre ++ [.openIntf 2])
    Along (step b) (fun d e => built (step b d e).2 = none) (initial b) pre ∧
      (HandedOver b s post ↔ Along (step b) Fed s post) := by
  intro s
  refine ⟨silent_along hpre, handedOver_iff (running_final (running_initial b) _) ?_ hpost⟩
  obtain ⟨-, hbusy⟩ := silent_final (b := b) hpre
  obtain ⟨hw, q, hq⟩ := running_final (running_initial b) pre
  simp only [final_concat, mic_step hw hq.holds, Mic.step, if_true]
  exact hbusy

theorem mic_packets_once_iff_alternating :
    HandedOver .fs (final (step .fs) (initial .fs) ([] ++ [.openIntf 2]))
      [.writePass, .inCallback] :=
  (mic_packets_once_iff .fs [] [.writePass, .inCallback] (by simp) (by simp [Event.KeepsMic])).2.mpr
    ⟨by simp [Fed], fun _ => Or.inl (by decide), trivial⟩

/-- Two `in_callback`s in a row put everything back but the busy bit: the third hands over what the
    first did. -/
theorem handed_third {b : Build} {d : Device} (h : Running b d) :
    handed (step b (final (step b) d [.inCallback, .inCallback]) .inCallback).2 =
      handed (step b d .inCallback).2 := by
  have h2 := running_final h [.inCallback, .inCallback]
  obtain ⟨hw, q, hq⟩ := h
  obtain ⟨hw', q', hq'⟩ := running_step d .inCallback ⟨hw, q, hq⟩
  rw [handed_inCallback hw, handed_inCallback h2.1]
  simp only [final_cons, final_nil, mic_step hw' hq'.holds, mic_step hw hq.holds, Mic.step]
  simp [DblBuffer.mainHalf, DblBuffer.flip]

/-- A second `in_callback` right after one that had something to send has nothing new. -/
theorem not_fed_second {b : Build} {d : Device} (h : Running b d) {data : List UInt8}
    (hr : d.mic.Ready data) (hdata : data ≠ []) :
    ¬ Fed (step b d .inCallback).1 .inCallback := by
  obtain ⟨hw, q, hq⟩ := h
  intro hfed
  rcases hfed rfl with hset | hzero
  · rw [mic_step hw hq.holds] at hset
    cases hset
  · rw [mic_step hw hq.holds] at hzero
    have hcount : d.mic.bf.count = 0 := hzero
    rw [Mic.Ready, hcount] at hr
    exact hdata hr.2.symm

/-- One packet is built and three `in_callback`s follow: the second finds nothing new to send, and
    the third sends the packet of the first again. -/
theorem mic_packet_sent_twice :
    let s := final (step .fs) (initial .fs)
      [.openIntf 1, .outCallback [1, 2, 3, 4, 5, 6], .readPass, .openIntf 2]
    let data := micPacket [1, 2, 3, 4, 5, 6] 576
    built (step .fs s .writePass).2 = some data ∧
      handed (step .fs (final (step .fs) s [.writePass]) .inCallback).2 = some data ∧
      handed (step .fs (final (step .fs) s [.writePass, .inCallback, .inCallback])
        .inCallback).2 = some data ∧
      ¬ HandedOver .fs s [.writePass, .inCallback, .inCallback, .inCallback] := by
  intro s data
  have hs : Running .fs s := running_final (running_initial .fs) _
  have hq : s.Queued [1, 2, 3, 4, 5, 6] := by
    have h0 := queue_step (wired_initial .fs) (queued_initial .fs) (.openIntf 1)
    have h1 := queue_step (wired_step (wired_initial .fs) _) h0 (.outCallback [1, 2, 3, 4, 5, 6])
    have h2 := queue_step (wired_step (wired_step (wired_initial .fs) _) _) h1 .readPass
    exact queue_step (wired_step (wired_step (wired_step (wired_initial .fs) _) _) _) h2
      (.openIntf 2)
  have hbuilt : built (step .fs s .writePass).2 = some data := by
    have hneed : s.needLen .fs = 576 := by decide
    rw [step, writePass_io hs.1 hq.holds, if_pos (by decide), hneed]
    rfl
  have hready := ready_of_built hs hbuilt
  have hs' : Running .fs (final (step .fs) s [.writePass]) := running_final hs _
  have hfirst : handed (step .fs (final (step .fs) s [.writePass]) .inCallback).2 = some data := by
    rw [handed_inCallback hs'.1]
    exact congrArg some hready.2
  refine ⟨hbuilt, hfirst, ?_, ?_⟩
  · have h3 := handed_third hs'
    rw [hfirst] at h3
    exact h3
  · rw [handedOver_iff hs (by decide) (by simp [Event.KeepsMic])]
    rintro ⟨-, -, hfed, -⟩
    exact not_fed_second hs' hready (List.ne_nil_of_length_pos (by simp [data])) hfed

end AudioCard
