import AudioCard.MicHandover

/-! What is sent first after the microphone interface is opened.

    `open(2)` resets the double buffer, but neither sets nor clears the busy bit. When the bit is
    clear the next pass fills the fresh buffer. When it is still set, because the interface is
    opened again over a packet that nobody has fetched, no pass fills, and the next `in_callback`
    sends the length that the reset has left: zero. -/

namespace AudioCard
open Segment Flags Run

/-- The event is no open, no close, no change of a frequency, and no `in_callback`. -/
def Event.Quiet : Event → Prop
  | .openIntf _ | .closeIntf _ | .setSamplingFreq _ _ _ | .inCallback => False
  | _ => True

theorem Event.Quiet.keepsMic {e : Event} (h : e.Quiet) : e.KeepsMic := by
  constructor
  · rintro rfl
    exact h
  · rintro intf rfl
    exact h

theorem not_mem_inCallback {es : List Event} (h : ∀ e ∈ es, e.Quiet) : .inCallback ∉ es :=
  fun hmem => h .inCallback hmem

/-- The microphone is opened in state `s`, the events `mid` follow, and then an `in_callback`: it
    hands over a packet of `get_inp_packet_size()` bytes that a pass in `mid` has built from the
    ring as it was then. -/
def StartsClean (b : Build) (s : Device) (mid : List Event) : Prop :=
  let d := final (step b) s (.openIntf 2 :: mid)
  ∃ m₁ m₂ q, mid = m₁ ++ .writePass :: m₂ ∧
    let f := final (step b) s (.openIntf 2 :: m₁)
    f.Queued q ∧ built (step b f .writePass).2 = some (micPacket q (s.needLen b)) ∧
      handed (step b d .inCallback).2 = some (micPacket q (s.needLen b))

/-- The microphone stream right after `open(2)`. -/
theorem mic_open {b : Build} {s : Device} (h : Wired b s) : (step b s (.openIntf 2)).1.mic =
    { s.mic with opened := true, bf := dblBufferReset s.mic.bf } :=
  mic_step_of_ne h (by simp) []

/-! ### The busy bit is clear -/

/-- Until the first pass over it nothing happens to the stream. -/
theorem mic_quiet {b : Build} {es : List Event} {d : Device} (h : Running b d)
    (hquiet : ∀ e ∈ es, e.Quiet) (hno : .writePass ∉ es) : (final (step b) d es).mic = d.mic := by
  refine (invariant_of_forall (I := fun d' => Running b d' ∧ d'.mic = d.mic) ?_ ⟨h, rfl⟩).2
  rintro e hmem d' ⟨hrun, hsame⟩
  have he := hquiet e hmem
  have hne : e ≠ .writePass := fun heq => hno (heq ▸ hmem)
  refine ⟨running_step d' e hrun, ?_⟩
  rw [mic_step_of_ne hrun.1 hne [], ← hsame]
  cases e with
  | openIntf intf => cases he
  | closeIntf intf => cases he
  | inCallback => cases he
  | writePass => exact absurd rfl hne
  | _ => rfl

theorem needLen_congr {b : Build} {d d' : Device} (h : d'.rates = d.rates) :
    d'.needLen b = d.needLen b := by
  have hfreq : d'.curInpFreq = d.curInpFreq := congrArg Rates.curInpFreq h
  rw [Device.needLen, Device.needLen, hfreq]

theorem needLen_quiet {b : Build} {es : List Event} {d : Device}
    (hquiet : ∀ e ∈ es, e.Quiet) : (final (step b) d es).needLen b = d.needLen b := by
  refine invariant_of_forall (I := fun d' : Device => d'.needLen b = d.needLen b) ?_ rfl
  intro e hmem d' hsame
  have he := hquiet e hmem
  have hkeep : d'.rates.step b e = d'.rates := by
    cases e with
    | setSamplingFreq entityId epCh freq => cases he
    | _ => rfl
  exact (needLen_congr ((rates_step b d' e).trans hkeep)).trans hsame

/-- With the busy bit clear the first pass fills, and its packet waits for the `in_callback`. -/
theorem starts_clean_of_clear {b : Build} {s : Device} {mid : List Event} (hs : Running b s)
    (hmid : ∀ e ∈ mid, e.Quiet) (hpass : .writePass ∈ mid) (hclear : s.mic.busy = false) :
    StartsClean b s mid := by
  obtain ⟨m₁, m₂, rfl, hfirst⟩ := List.eq_append_cons_of_mem hpass
  have hopen : Running b (step b s (.openIntf 2)).1 := running_step s (.openIntf 2) hs
  have hf : Running b (final (step b) s (.openIntf 2 :: m₁)) := running_final hs _
  have hmic : (final (step b) s (.openIntf 2 :: m₁)).mic =
      { s.mic with opened := true, bf := dblBufferReset s.mic.bf } := by
    rw [final_cons, mic_quiet hopen (fun e he => hmid e (by simp [he])) hfirst, mic_open hs.1]
  have hneed : (final (step b) s (.openIntf 2 :: m₁)).needLen b = s.needLen b := by
    rw [final_cons, needLen_quiet fun e he => hmid e (by simp [he])]
    exact needLen_congr (rates_step b s (.openIntf 2))
  obtain ⟨q, hq⟩ := hf.2
  have hbuilt : built (step b (final (step b) s (.openIntf 2 :: m₁)) .writePass).2 =
      some (micPacket q (s.needLen b)) := by
    rw [step, writePass_io hf.1 hq.holds, if_pos (by rw [hmic]; simp [Mic.filling, hclear]), hneed]
    rfl
  refine ⟨m₁, m₂, q, rfl, hq, hbuilt, ?_⟩
  -- what has been built stays ready
  have hquiet : ∀ e ∈ m₂, e.Quiet := fun e he => hmid e (by simp [he])
  have hready := ready_final (running_step _ .writePass hf) (ready_of_built hf hbuilt)
    (fun e he => (hquiet e he).keepsMic) (not_mem_inCallback hquiet)
  have hrun : final (step b) s (.openIntf 2 :: (m₁ ++ .writePass :: m₂)) =
      final (step b) (step b (final (step b) s (.openIntf 2 :: m₁)) .writePass).1 m₂ := by
    rw [← List.cons_append, final_append, final_cons]
  rw [hrun, handed_inCallback (running_final (running_step _ .writePass hf) m₂).1, hready.2]

/-! ### The busy bit is set -/

/-- With the busy bit set the reset leaves an empty packet, which counts as ready. -/
theorem ready_open {b : Build} {s : Device} (hs : Running b s) (hbusy : s.mic.busy = true) :
    (step b s (.openIntf 2)).1.mic.Ready [] := by
  rw [mic_open hs.1]
  exact ⟨hbusy, rfl⟩

/-- No pass fills, and the `in_callback` sends nothing. -/
theorem reopen_sends_nothing {b : Build} {s : Device} {mid : List Event} (hs : Running b s)
    (hmid : ∀ e ∈ mid, e.Quiet) (hbusy : s.mic.busy = true) :
    (∀ m₁ e m₂, mid = m₁ ++ e :: m₂ →
        built (step b (final (step b) s (.openIntf 2 :: m₁)) e).2 = none) ∧
      handed (step b (final (step b) s (.openIntf 2 :: mid)) .inCallback).2 = some [] := by
  have hready : ∀ es, (∀ e ∈ es, e.Quiet) →
      (final (step b) s (.openIntf 2 :: es)).mic.Ready [] := by
    intro es hes
    rw [final_cons]
    exact ready_final (running_step s (.openIntf 2) hs) (ready_open hs hbusy)
      (fun e he => (hes e he).keepsMic) (not_mem_inCallback hes)
  constructor
  · rintro m₁ e m₂ rfl
    have he : e.Quiet := hmid e (by simp)
    have hne : e ≠ .inCallback := by
      rintro rfl
      exact he
    exact (ready_step (running_final hs _) (hready m₁ fun f hf => hmid f (by simp [hf]))
      he.keepsMic hne).2
  · rw [handed_inCallback (running_final hs _).1, (hready mid hmid).2]

/-- EXACT: from every reachable state, when `open(2)` is followed by at least one pass and then an
    `in_callback`, with no other open or close and no change of a frequency in between, the
    `in_callback` hands over a fresh packet if and only if the busy bit of the microphone was clear
    when the open came. -/
theorem mic_starts_clean_iff (b : Build) (pre mid : List Event) (hmid : ∀ e ∈ mid, e.Quiet)
    (hpass : .writePass ∈ mid) :
    let s := final (step b) (initial b) pre
    StartsClean b s mid ↔ isSet s.epBusyFlag EpFlag.tx.mask = false := by
  intro s
  have hs : Running b s := running_final (running_initial b) pre
  constructor
  · rintro ⟨m₁, m₂, q, hsplit, -, hbuilt, -⟩
    rw [Bool.eq_false_iff]
    intro hbusy
    have hnone := (reopen_sends_nothing hs hmid hbusy).1 m₁ .writePass m₂ hsplit
    cases hnone.symm.trans hbuilt
  · exact starts_clean_of_clear hs hmid hpass

theorem mic_starts_clean_iff_first :
    StartsClean .fs (final (step .fs) (initial .fs) []) [.writePass] :=
  (mic_starts_clean_iff .fs [] [.writePass] (by simp [Event.Quiet]) (by simp)).mpr rfl

/-- The host opens the interface a second time without closing it, after a packet has been built:
    the `in_callback` that follows sends no byte, where a packet has 576. -/
theorem mic_reopen_sends_nothing :
    let s := final (step .fs) (initial .fs) [.openIntf 2, .writePass]
    s.needLen .fs = 576 ∧ 576 ≤ s.writeBf.halfsize.toNat ∧
      handed (step .fs (final (step .fs) s [.openIntf 2, .writePass]) .inCallback).2 = some [] ∧
      ¬ StartsClean .fs s [.writePass] := by
  intro s
  have hs : Running .fs s := running_final (running_initial .fs) _
  have hquiet : ∀ e ∈ [Event.writePass], e.Quiet := by simp [Event.Quiet]
  have hbusy : s.mic.busy = true := by decide
  obtain ⟨hnone, hsent⟩ := reopen_sends_nothing hs hquiet hbusy
  refine ⟨by decide, by decide, hsent, ?_⟩
  rintro ⟨m₁, m₂, q, hsplit, -, hbuilt, -⟩
  cases (hnone m₁ .writePass m₂ hsplit).symm.trans hbuilt

end AudioCard
