import AudioCard.Boot
import AudioCard.Atomicity

/-! The whole program, from the start of the USB stack on, as the card with its main loop.

    `Boot` has the start-up that `Cpu` leaves out. When no stream is opened and no transfer is
    completed before `audio_test` is in its loop, what happens earlier leaves no trace but the
    frequencies that the host sets: `program_is_card` makes a run of `Cpu` out of every such run,
    and so carries over what is proved of the card with its main loop. -/

namespace AudioCard
open Run

/-- The event opens the interface of a stream, or completes a transfer. -/
def Event.isStream : Event → Bool
  | .openIntf intf => intf = 1 || intf = 2
  | .outCallback _ | .inCallback | .inFbCallback => true
  | _ => false

/-- A stream has no events before `audio_test` is in its loop. -/
def Boot.Late (s : Boot) : BootEvent → Prop
  | .irq e _ => e.isStream = true → ∃ pc, s.pc = .loop pc
  | _ => True

/-- What comes in the loop is calm there: the callbacks come where they change nothing that has been
    looked at, and packets fit, those received and, where their size is looked up, those to send. -/
def Boot.Calm (b : Build) (s : Boot) : BootEvent → Prop
  | .main => ∀ pc, s.pc = .loop pc → AudioCard.Calm b ⟨s.dev, pc⟩ .main
  | .irq e he => ∀ pc, s.pc = .loop pc → AudioCard.Calm b ⟨s.dev, pc⟩ (.irq e he)
  | .configure => True

/-- The event from outside `main`. -/
def BootEvent.callback : BootEvent → List Event
  | .irq e _ => [e]
  | _ => []

/-- The globals when `main` is at `pc`, if nothing has happened but its own steps. -/
def devAt (b : Build) : BootPc → Device
  | .poll => static b
  | .setup a =>
    (final (Boot.step b) ⟨static b, true, .setup .rbBuff⟩ (List.replicate a.ctorIdx .main)).dev
  | .loop _ => initial b

/-- The globals with other frequencies. -/
def Device.withRates (d : Device) (r : Rates) : Device :=
  { d with
    curOutFreq := r.curOutFreq
    curInpFreq := r.curInpFreq
    curFeedbackRate := r.curFeedbackRate }

/-- `main` has come to `pc`, and only frequencies have been set; the card has them from the
    start. -/
def Starting (b : Build) (s : Boot) (t : Cpu) : Prop :=
  match s.pc with
  | .loop pc => t = ⟨s.dev, pc⟩
  | pc => ∃ r : Rates, s.dev = (devAt b pc).withRates r ∧ t = ⟨(initial b).withRates r, .top⟩

/-! ### Before the loop -/

/-- An assignment of `audio_test` is made whatever the frequencies are. -/
theorem setupStep_withRates (b : Build) (r : Rates) (a : Setup) :
    (setupStep b ((devAt b (.setup a)).withRates r) a).1 =
      (devAt b (setupStep b ((devAt b (.setup a)).withRates r) a).2).withRates r := by
  cases a <;> cases b <;> rfl

/-- Nothing is open, busy or armed. -/
structure Device.Quiet (d : Device) : Prop where
  openFlag : d.openFlag = 0
  epBusyFlag : d.epBusyFlag = 0
  armed : d.armed = none

theorem quiet_devAt (b : Build) (pc : BootPc) (r : Rates) : ((devAt b pc).withRates r).Quiet := by
  cases pc with
  | setup a => cases a <;> exact ⟨rfl, rfl, rfl⟩
  | _ => exact ⟨rfl, rfl, rfl⟩

/-- An event that is not a stream's sets a frequency, if it does anything. -/
theorem step_quiet {b : Build} {d : Device} {e : Event} (h : d.Quiet) (he : e.isPass = false)
    (hs : e.isStream = false) : step b d e = (d.withRates (d.rates.step b e), []) := by
  obtain ⟨hopen, hbusy, harmed⟩ := h
  cases e with
  | openIntf intf =>
    simp only [Event.isStream, Bool.or_eq_false_iff, decide_eq_false_iff_not] at hs
    simp only [step, usbdAudioOpen, if_neg hs.1, if_neg hs.2]
    rfl
  | closeIntf intf =>
    obtain ⟨_, _, _, _, _, _, _, _, _, _⟩ := d
    cases hopen
    cases hbusy
    simp only [step, usbdAudioClose]
    split_ifs <;> rfl
  | setSamplingFreq entityId epCh freq =>
    refine Prod.ext ?_ rfl
    cases b <;>
    · simp only [step, usbdAudioSetSamplingFreq, Rates.step, selectsOut, selectsInp,
        decide_eq_true_eq]
      split_ifs <;> rfl
  | dma i v =>
    have hnot : ¬ inArmed i d = true := by simp [inArmed, harmed]
    simp only [step, if_neg hnot]
    rfl
  | readPass | writePass | feedbackPass => cases he
  | outCallback | inCallback | inFbCallback => cases hs

theorem starting_main {b : Build} {s : Boot} {t : Cpu} (h : Starting b s t) :
    ∃ cs, Starting b (s.step b .main).1 (final (Cpu.step b) t cs) ∧
      cs.flatMap CpuEvent.callback = [] ∧ (outputs (Cpu.step b) t cs).flatMap id = [] ∧
      (s.Calm b .main → Along (Cpu.step b) (Calm b) t cs) := by
  obtain ⟨d, configured, pc⟩ := s
  cases pc with
  | poll =>
    refine ⟨[], ?_, rfl, rfl, fun _ => trivial⟩
    cases configured <;> exact h
  | setup a =>
    obtain ⟨r, hd, rfl⟩ := h
    change d = (devAt b (.setup a)).withRates r at hd
    subst hd
    refine ⟨[], ?_, rfl, rfl, fun _ => trivial⟩
    have hstep := setupStep_withRates b r a
    cases a with
    | readCount => exact congrArg (Cpu.mk · .top) hstep.symm
    | _ => exact ⟨r, hstep, rfl⟩
  | loop pc =>
    obtain rfl : t = ⟨d, pc⟩ := h
    exact ⟨[.main], rfl, rfl, rfl, fun hc => ⟨hc pc rfl, trivial⟩⟩

theorem starting_irq {b : Build} {s : Boot} {t : Cpu} (h : Starting b s t) {e : Event}
    (he : e.isPass = false) (hl : s.Late (.irq e he)) :
    Starting b (s.step b (.irq e he)).1 (t.step b (.irq e he)).1 ∧
      (t.step b (.irq e he)).2 = (s.step b (.irq e he)).2 := by
  obtain ⟨d, configured, pc⟩ := s
  rcases Bool.eq_false_or_eq_true e.isStream with hs | hs
  · obtain ⟨pc', rfl⟩ : ∃ pc', pc = .loop pc' := hl hs
    obtain rfl : t = ⟨d, pc'⟩ := h
    exact ⟨rfl, rfl⟩
  · have hpre : (∃ r : Rates, d = (devAt b pc).withRates r ∧ t = ⟨(initial b).withRates r, .top⟩) →
        (∃ r : Rates, (step b d e).1 = (devAt b pc).withRates r ∧
          (t.step b (.irq e he)).1 = ⟨(initial b).withRates r, .top⟩) ∧
        (t.step b (.irq e he)).2 = (step b d e).2 := by
      rintro ⟨r, rfl, rfl⟩
      have hd := step_quiet (b := b) (quiet_devAt b pc r) he hs
      have ht := step_quiet (b := b) (quiet_devAt b (.loop .top) r) he hs
      refine ⟨⟨r.step b e, by rw [hd]; rfl, ?_⟩, ?_⟩
      · exact congrArg (Cpu.mk · .top) (congrArg Prod.fst ht)
      · rw [hd]
        exact congrArg Prod.snd ht
    cases pc with
    | loop pc =>
      obtain rfl : t = ⟨d, pc⟩ := h
      exact ⟨rfl, rfl⟩
    | poll => exact hpre h
    | setup a => exact hpre h

/-- The callback is calm for the card too: what is early finds its main loop at the top. -/
theorem starting_calm {b : Build} {s : Boot} {t : Cpu} (h : Starting b s t) {e : Event}
    (he : e.isPass = false) (hl : s.Late (.irq e he)) (hc : s.Calm b (.irq e he)) :
    Calm b t (.irq e he) := by
  obtain ⟨d, configured, pc⟩ := s
  by_cases hloop : ∃ pc', pc = .loop pc'
  · obtain ⟨pc', rfl⟩ := hloop
    obtain rfl : t = ⟨d, pc'⟩ := h
    exact hc pc' rfl
  · have htop : t.pc = .top := by
      cases pc with
      | loop pc => exact absurd ⟨pc, rfl⟩ hloop
      | poll =>
        obtain ⟨r, -, rfl⟩ := h
        rfl
      | setup a =>
        obtain ⟨r, -, rfl⟩ := h
        rfl
    have hs : ¬ e.isStream = true := fun hs => hloop (hl hs)
    refine ⟨?_, ?_, ?_, ?_⟩
    · cases e with
      | outCallback pkt => exact absurd rfl hs
      | _ => trivial
    · rw [htop]
      rintro f ⟨⟩
    · rw [htop]
      rintro f ⟨⟩
    · rw [htop]
      rintro f v ⟨⟩

/-- STEP: a step of the start-up is none of the card's, one in the loop is one of its main loop; a
    callback that is not early is the same callback, as calm as it was. -/
theorem starting_step {b : Build} {s : Boot} {t : Cpu} {e : BootEvent} (h : Starting b s t)
    (hl : s.Late e) : ∃ cs : List CpuEvent, Starting b (s.step b e).1 (final (Cpu.step b) t cs) ∧
      cs.flatMap CpuEvent.callback = e.callback ∧
      (outputs (Cpu.step b) t cs).flatMap id = id (s.step b e).2 ∧
      (s.Calm b e → Along (Cpu.step b) (Calm b) t cs) := by
  cases e with
  | main => exact starting_main h
  | configure => exact ⟨[], h, rfl, rfl, fun _ => trivial⟩
  | irq e he =>
    obtain ⟨h', hout⟩ := starting_irq h he hl
    exact ⟨[.irq e he], h', rfl, by simpa using hout, fun hc => ⟨starting_calm h he hl hc, trivial⟩⟩

/-! ### Runs of the program -/

theorem starting_start (b : Build) : Starting b (Boot.start b) (Cpu.start b) :=
  ⟨(static b).rates, rfl, rfl⟩

/-- REFINEMENT: every run of the program from the start of the USB stack on, with the callbacks
    coming between any two of its steps, in which no stream has an event before `audio_test` is in
    its loop, is a run of the card with its main loop: the same callbacks in the same order start
    the same transfers, and in the loop the state is the same. -/
theorem program_is_card (b : Build) (es : List BootEvent)
    (h : Along (Boot.step b) Boot.Late (Boot.start b) es) : ∃ cs : List CpuEvent,
      cs.flatMap CpuEvent.callback = es.flatMap BootEvent.callback ∧
      (outputs (Cpu.step b) (Cpu.start b) cs).flatten =
        (outputs (Boot.step b) (Boot.start b) es).flatten ∧
      ∀ pc, (final (Boot.step b) (Boot.start b) es).pc = .loop pc →
        final (Cpu.step b) (Cpu.start b) cs =
          ⟨(final (Boot.step b) (Boot.start b) es).dev, pc⟩ := by
  obtain ⟨cs, hR, hkeys, houts⟩ := stuttering h (starting_start b) fun _ _ _ hR hl =>
    (starting_step hR hl).imp fun _ hcs => ⟨hcs.1, hcs.2.1, hcs.2.2.1⟩
  refine ⟨cs, hkeys, by simpa using houts, fun pc hpc => ?_⟩
  rw [Starting, hpc] at hR
  exact hR

/-- A frequency is set while `main` waits, and the microphone is opened once it is in the loop. -/
theorem program_is_card_opened :
    let es : List BootEvent := [.irq (.setSamplingFreq 0 audioInpEp 48000) rfl, .configure, .main,
      .main, .main, .main, .main, .main, .main, .main, .main, .main, .main, .main, .main, .main,
      .main, .irq (.openIntf 2) rfl, .main]
    ∃ cs : List CpuEvent, cs.flatMap CpuEvent.callback = es.flatMap BootEvent.callback ∧
      (outputs (Cpu.step .fs) (Cpu.start .fs) cs).flatten =
        (outputs (Boot.step .fs) (Boot.start .fs) es).flatten ∧
      ∀ pc, (final (Boot.step .fs) (Boot.start .fs) es).pc = .loop pc →
        final (Cpu.step .fs) (Cpu.start .fs) cs =
          ⟨(final (Boot.step .fs) (Boot.start .fs) es).dev, pc⟩ := by
  intro es
  refine program_is_card .fs es ⟨?_, trivial, trivial, trivial, trivial, trivial, trivial, trivial,
    trivial, trivial, trivial, trivial, trivial, trivial, trivial, trivial, trivial,
    fun _ => ⟨.top, rfl⟩, trivial, trivial⟩
  rintro ⟨⟩

/-! ### Down to passes and callbacks -/

/-- The program is where a run of the card is, and the card is some steps ahead of a run of passes
    and callbacks one at a time. -/
def Layered (b : Build) (s : Boot) (d : Device) : Prop := ∃ t, Starting b s t ∧ Lagging b t d

/-- STEP: the steps of the card that a step of the program is, as passes and callbacks. -/
theorem layered_step {b : Build} {s : Boot} {d : Device} {e : BootEvent} (h : Layered b s d)
    (he : s.Late e ∧ s.Calm b e) : ∃ as : List Event,
      Layered b (s.step b e).1 (final (step b) d as) ∧
      as.flatMap (fun e => [e].filter (!·.isPass)) = e.callback ∧
      (outputs (step b) d as).flatMap (·.filter Io.isTransfer) = id (s.step b e).2 := by
  obtain ⟨t, hstart, hlag⟩ := h
  obtain ⟨cs, hstart', hkey, hout, hcalm⟩ := starting_step hstart he.1
  obtain ⟨as, hlag', hkeys, houts⟩ := lagging_run hlag (hcalm he.2)
  refine ⟨as, ⟨_, hstart', hlag'⟩, ?_, ?_⟩
  · rw [← hkey, ← hkeys, ← List.filter_flatMap]
    simp
  · rw [← hout, List.flatMap_id, ← houts, List.filter_flatten, List.flatMap_def]

/-- REFINEMENT: every run of the program from the start of the USB stack on, with the callbacks
    coming between any two of its steps, in which no stream has an event before `audio_test` is in
    its loop, and there packets fit and the callbacks are calm, is a run of passes and callbacks one
    at a time from the state that `audio_test` sets up: the same callbacks in the same order start
    the same transfers, and outside its routines the main loop finds the same card. -/
theorem program_is_atomic (b : Build) (es : List BootEvent)
    (h : Along (Boot.step b) (fun s e => s.Late e ∧ s.Calm b e) (Boot.start b) es) :
    ∃ as : List Event, as.filter (!·.isPass) = es.flatMap BootEvent.callback ∧
      (outputs (step b) (initial b) as).flatten.filter Io.isTransfer =
        (outputs (Boot.step b) (Boot.start b) es).flatten ∧
      ∀ pc, (final (Boot.step b) (Boot.start b) es).pc = .loop pc → pc.routine = none →
        (final (Boot.step b) (Boot.start b) es).dev = final (step b) (initial b) as := by
  have hlayered : Layered b (Boot.start b) (initial b) :=
    ⟨_, starting_start b, lagging_start b⟩
  obtain ⟨as, ⟨t, hstart, hlag⟩, hkeys, houts⟩ :=
    stuttering h hlayered fun _ _ _ => layered_step
  refine ⟨as, ?_, ?_, fun pc hpc hout => ?_⟩
  · rw [← hkeys, ← List.filter_flatMap]
    simp
  · rw [List.filter_flatten, ← List.flatMap_def, houts]
    simp
  · rw [Starting, hpc] at hstart
    subst hstart
    exact hlag.eq_of_outside hout

/-- Neither the start-up nor the loop sets a frequency. -/
theorem curInpFreq_boot (b : Build) (s : Boot) :
    (s.step b .main).1.dev.curInpFreq = s.dev.curInpFreq := by
  obtain ⟨d, configured, pc⟩ := s
  cases pc with
  | poll => rfl
  | setup a => cases a <;> rfl
  | loop pc => exact curInpFreq_main b d pc

/-- Both streams are opened in the loop, a packet is received, and the main loop copies it into the
    ring and begins to copy it out again, to the packet to send. -/
theorem program_is_atomic_received :
    let es : List BootEvent := .configure :: List.replicate 15 .main ++
      [.irq (.openIntf 1) rfl, .irq (.openIntf 2) rfl, .irq (.outCallback [1, 2]) rfl] ++
      List.replicate 17 .main
    ∃ as : List Event, as.filter (!·.isPass) = es.flatMap BootEvent.callback ∧
      (outputs (step .fs) (initial .fs) as).flatten.filter Io.isTransfer =
        (outputs (Boot.step .fs) (Boot.start .fs) es).flatten ∧
      ∀ pc, (final (Boot.step .fs) (Boot.start .fs) es).pc = .loop pc → pc.routine = none →
        (final (Boot.step .fs) (Boot.start .fs) es).dev = final (step .fs) (initial .fs) as := by
  intro es
  -- the program's own steps set no frequency
  have hown : ∀ (s : Boot) (fs : List BootEvent), (∀ e ∈ fs, e.callback = []) →
      FreqFits .fs s.dev.curInpFreq →
      Along (Boot.step .fs) (fun s e => s.Late e ∧ s.Calm .fs e) s fs := by
    intro s fs hfs hfit
    refine along_of_invariant (I := fun s => FreqFits .fs s.dev.curInpFreq)
      (P := fun _ e => e.callback = []) ?_ ?_ hfit (along_of_mem hfs s)
    · rintro s (_ | _ | ⟨e, he⟩) hfit hnone
      · exact (curInpFreq_boot .fs s).symm ▸ hfit
      · exact hfit
      · cases hnone
    · rintro s (_ | _ | ⟨e, he⟩) hfit hnone
      · exact ⟨trivial, fun pc _ data _ => hfit⟩
      · exact ⟨trivial, trivial⟩
      · cases hnone
  refine program_is_atomic .fs es ((along_append _ _ _).mpr ⟨(along_append _ _ _).mpr
    ⟨hown _ _ (by decide) (by decide), ⟨?_, ?_⟩, ⟨?_, ?_⟩, ⟨?_, ?_⟩, trivial⟩,
      hown _ _ (by decide) (by decide)⟩)
  · exact fun _ => ⟨.top, rfl⟩
  · rintro pc ⟨⟩
    refine ⟨trivial, ?_, ?_, ?_⟩
    · rintro f ⟨⟩
    · rintro f ⟨⟩
    · rintro f v ⟨⟩
  · exact fun _ => ⟨.top, rfl⟩
  · rintro pc ⟨⟩
    refine ⟨trivial, ?_, ?_, ?_⟩
    · rintro f ⟨⟩
    · rintro f ⟨⟩
    · rintro f v ⟨⟩
  · exact fun _ => ⟨.top, rfl⟩
  · rintro pc ⟨⟩
    refine ⟨show 2 ≤ (audioOutPacketSz .fs).toNat by decide, ?_, ?_, ?_⟩
    · rintro f ⟨⟩
    · rintro f ⟨⟩
    · rintro f v ⟨⟩

end AudioCard
