import AudioCard.Places

/-! Who works on which half of a double buffer, under preemption.

    The main loop chooses its half from `buffer_pos` once and then works on it byte by byte; a
    callback toggles `buffer_pos` and hands the other half to the controller, whatever the main loop
    is doing. So a callback that comes after the choice hands over the very half that the main loop
    works on. `Watched` counts the callbacks, and `halves_owned_iff` says that this is the only way
    in which the two meet at a byte. -/

namespace AudioCard
open Flags Run

/-- Place `a` lies in the half that begins at `off`. -/
def DblBuffer.HalfHas (bf : DblBuffer) (off a : ℕ) : Prop :=
  off ≤ a ∧ a < off + bf.halfsize.toNat

/-- The card under observation: the half given to the latest `usbd_ep_start_write` of the
    microphone, how often each of the two callbacks has come in this iteration of the main loop,
    and how often since the main loop chose its half. -/
structure Watched where
  cpu : Cpu
  sending : Option ℕ
  outs : ℕ
  ins : ℕ
  outsSince : ℕ
  insSince : ℕ

/-- The half given to the controller by the call, if it is a `usbd_ep_start_write` of the
    microphone. -/
def sendingAfter (old : Option ℕ) : Io → Option ℕ
  | .startWrite ep _ off _ _ => if ep = audioInpEp then some off else old
  | _ => old

def Watched.step (b : Build) (w : Watched) (e : CpuEvent) : Watched × List Io :=
  let r := w.cpu.step b e
  let w' := { w with cpu := r.1, sending := r.2.foldl sendingAfter w.sending }
  match e with
  | .main =>
    -- an iteration ends where the next one begins
    ({ w' with
        outs := if r.1.pc = .top then 0 else w.outs
        ins := if r.1.pc = .top then 0 else w.ins
        outsSince := if w.cpu.pc = .rsHalf then 0 else w.outsSince
        insSince := if w.cpu.pc = .wsHalf then 0 else w.insSince }, r.2)
  | .irq (.outCallback _) _ =>
    ({ w' with outs := w.outs + 1, outsSince := w.outsSince + 1 }, r.2)
  | .irq .inCallback _ => ({ w' with ins := w.ins + 1, insSince := w.insSince + 1 }, r.2)
  | .irq _ _ => (w', r.2)

def Watched.start (b : Build) : Watched := ⟨Cpu.start b, none, 0, 0, 0, 0⟩

/-- The event belongs to a run in which each interface is opened once and stays open, the callbacks
    of a stream come while it is open, and at most one of each comes in an iteration. -/
def Orderly (w : Watched) : CpuEvent → Prop
  | .irq (.openIntf intf) _ => (intf = 1 → isSet w.cpu.dev.openFlag EpFlag.rx.mask = false) ∧
      (intf = 2 → isSet w.cpu.dev.openFlag EpFlag.tx.mask = false)
  | .irq (.closeIntf _) _ => False
  | .irq (.outCallback _) _ => isSet w.cpu.dev.openFlag EpFlag.rx.mask = true ∧ w.outs = 0
  | .irq .inCallback _ => isSet w.cpu.dev.openFlag EpFlag.tx.mask = true ∧ w.ins = 0
  | _ => True

instance (w : Watched) : (e : CpuEvent) → Decidable (Orderly w e)
  | .irq (.openIntf _) _ | .irq (.outCallback _) _ | .irq .inCallback _ => instDecidableAnd
  | .irq (.closeIntf _) _ => instDecidableFalse
  | .main | .irq .inFbCallback _ | .irq (.setSamplingFreq _ _ _) _ | .irq .readPass _
  | .irq .writePass _ | .irq .feedbackPass _ | .irq (.dma _ _) _ => instDecidableTrue

/-- The place that a byte is copied out of is not in the half given to the latest
    `usbd_ep_start_read`, the place that one is stored at not in the half given to the latest
    `usbd_ep_start_write`. -/
def Owned (w : Watched) (e : CpuEvent) : Prop :=
  e = .main →
    (∀ src, w.cpu.pc.reading = some src →
      ∀ t, w.cpu.dev.armed = some t → ¬ w.cpu.dev.readBf.HalfHas t.off src) ∧
    (∀ dst, w.cpu.pc.writing = some dst →
      ∀ off, w.sending = some off → ¬ w.cpu.dev.writeBf.HalfHas off dst)

/-- A byte is copied or stored only if no callback of its stream has come since the half was
    chosen. -/
def Untoggled (w : Watched) (e : CpuEvent) : Prop :=
  e = .main →
    (w.cpu.pc.reading.isSome → w.outsSince = 0) ∧ (w.cpu.pc.writing.isSome → w.insSince = 0)

instance (w : Watched) (e : CpuEvent) : Decidable (Untoggled w e) :=
  inferInstanceAs (Decidable (e = .main →
    (w.cpu.pc.reading.isSome → w.outsSince = 0) ∧ (w.cpu.pc.writing.isSome → w.insSince = 0)))

/-- A routine is entered only while its stream is open. -/
theorem routine_main {b : Build} {d : Device} {pc : Pc} {f : EpFlag}
    (h : (mainStep b d pc).2.routine = some f) :
    isSet d.openFlag f.mask = true ∨ pc.routine = some f := by
  cases pc with
  | top => simp only [mainStep] at h; split at h <;> cases h
  | opened g =>
    simp only [mainStep] at h
    split at h
    · rename_i hopen
      cases h
      exact Or.inl hopen.2
    · cases g <;> cases h
  | test g => simp only [mainStep] at h; split at h <;> cases g <;> first | exact Or.inr h | cases h
  | store g v => cases g <;> cases h
  | rsHead data len => simp only [mainStep] at h; split at h <;> exact Or.inr h
  | rsCopy data end_ src n => cases n <;> exact Or.inr h
  | wsHead data needLen => simp only [mainStep] at h; split at h <;> exact Or.inr h
  | wsPad data needLen => simp only [mainStep] at h; split at h <;> exact Or.inr h
  | wsCopy data needLen ret start dst n => cases n <;> exact Or.inr h
  | wsZero data needLen dst n => cases n <;> exact Or.inr h
  | _ => exact Or.inr h

theorem routine_of_readHalf {pc : Pc} {data : ℕ} (h : pc.readHalf = some data) :
    pc.routine = some .rx := by
  cases pc <;> first | rfl | cases h

theorem routine_of_writeHalf {pc : Pc} {data : ℕ} (h : pc.writeHalf = some data) :
    pc.routine = some .tx := by
  cases pc <;> first | rfl | cases h

theorem ne_top_of_routine {pc : Pc} {f : EpFlag} (h : pc.routine = some f) : pc ≠ .top := by
  rintro rfl
  cases h

/-- Outside the routine of a stream the main loop has chosen no half of it. -/
theorem eq_none_of_closed {half : Pc → Option ℕ} {f : EpFlag} {pc : Pc} {d : Device}
    (hhalf : ∀ data, half pc = some data → pc.routine = some f)
    (h : pc.routine = some f → isSet d.openFlag f.mask = true)
    (hclosed : isSet d.openFlag f.mask = false) : half pc = none := by
  rcases hr : half pc with - | data
  · rfl
  · have hopen := h (hhalf data hr)
    rw [hclosed] at hopen
    cases hopen

/-! ### One double buffer -/

/-- A double buffer, the half `given` to the controller, the half `chosen` by the main loop, and the
    number of toggles in this iteration and since the choice: the controller has the half that
    `buffer_pos` says, and the main loop has the other one until the first toggle. -/
structure Side (bf : DblBuffer) (given chosen : Option ℕ) (count since : ℕ) : Prop where
  given_eq : ∀ off, given = some off → off = bf.usbHalf.toNat
  chosen_eq : ∀ data, chosen = some data →
    data = (if since = 0 then bf.mainHalf else bf.usbHalf).toNat
  since_le : chosen.isSome → since ≤ count ∧ (since ≠ 0 → given.isSome)
  count_le : count ≤ 1

/-- A place in the chosen half is outside the half given to the controller as long as no toggle has
    come since the choice, and only then. -/
theorem Side.outside_iff {bf : DblBuffer} {given chosen : Option ℕ} {count since : ℕ}
    (h : Side bf given chosen count since) {data a : ℕ} (hc : chosen = some data)
    (ha : bf.HalfHas data a) :
    (∀ off, given = some off → ¬ bf.HalfHas off a) ↔ since = 0 := by
  have hdata := h.chosen_eq data hc
  constructor
  · intro hout
    by_contra hsince
    obtain ⟨off, hoff⟩ := Option.isSome_iff_exists.mp ((h.since_le (by simp [hc])).2 hsince)
    rw [if_neg hsince, ← h.given_eq off hoff] at hdata
    rw [hdata] at ha
    exact hout off hoff ha
  · rintro hsince off hoff ⟨hlo, hhi⟩
    rw [if_pos hsince] at hdata
    obtain ⟨hlo', hhi'⟩ := ha
    have hgiven := h.given_eq off hoff
    have hdisjoint := halves_disjoint bf (Nat.le_refl _)
      (show 0 + bf.halfsize.toNat ≤ bf.halfsize.toNat by omega)
    omega

/-- A callback toggles, once in an iteration. -/
theorem Side.flip {bf : DblBuffer} {given chosen : Option ℕ} {since : ℕ}
    (h : Side bf given chosen 0 since) (n : UInt32) :
    Side { bf with count := n }.flip (some { bf with count := n }.flip.usbHalf.toNat) chosen 1
      (since + 1) where
  given_eq := fun off hoff => (Option.some.inj hoff).symm
  chosen_eq := by
    intro data hc
    have hsince : since = 0 := Nat.le_zero.mp (h.since_le (by simp [hc])).1
    have hdata := h.chosen_eq data hc
    rw [if_pos hsince] at hdata
    rw [if_neg (Nat.succ_ne_zero since), flip_usbHalf]
    exact hdata
  since_le := by
    intro hc
    exact ⟨Nat.succ_le_succ (h.since_le hc).1, fun _ => rfl⟩
  count_le := Nat.le_refl 1

/-- An open resets the buffer, when the main loop does not work on it. -/
theorem Side.reset {bf : DblBuffer} {given : Option ℕ} {count since : ℕ} (hcount : count ≤ 1)
    (hgiven : ∀ off, given = some off → off = 0) :
    Side (dblBufferReset bf) given none count since where
  given_eq := hgiven
  chosen_eq := by simp
  since_le := by simp
  count_le := hcount

/-- A step of the main loop: the choice is made, kept or given up, and the iteration may end. -/
theorem Side.main {bf : DblBuffer} {given chosen : Option ℕ} {count since : ℕ}
    (h : Side bf given chosen count since) {bf' : DblBuffer} {chosen' : Option ℕ}
    {count' since' : ℕ} (hbf : ∃ n, bf' = { bf with count := n })
    (hc : ∀ data, chosen' = some data → since' = 0 ∧ data = bf.mainHalf.toNat ∨
      chosen = some data ∧ since' = since ∧ count' = count)
    (hcount : count' ≤ 1) : Side bf' given chosen' count' since' := by
  obtain ⟨n, rfl⟩ := hbf
  refine ⟨h.given_eq, ?_, ?_, hcount⟩
  · intro data hdata
    rcases hc data hdata with ⟨rfl, rfl⟩ | ⟨hold, rfl, -⟩
    · rfl
    · exact h.chosen_eq data hold
  · intro hsome
    obtain ⟨data, hdata⟩ := Option.isSome_iff_exists.mp hsome
    rcases hc data hdata with ⟨rfl, -⟩ | ⟨hold, rfl, rfl⟩
    · exact ⟨Nat.zero_le _, fun hne => absurd rfl hne⟩
    · exact h.since_le (by simp [hold])

/-! ### The card -/

/-- Both double buffers are in order, the main loop works in the halves it has chosen, and is in a
    routine only while its stream is open. -/
structure Halves (b : Build) (w : Watched) : Prop where
  placed : w.cpu.Placed b
  read : Side w.cpu.dev.readBf (w.cpu.dev.armed.map Transfer.off) w.cpu.pc.readHalf w.outs
    w.outsSince
  write : Side w.cpu.dev.writeBf w.sending w.cpu.pc.writeHalf w.ins w.insSince
  readOpen : w.cpu.pc.routine = some .rx → isSet w.cpu.dev.openFlag EpFlag.rx.mask = true
  writeOpen : w.cpu.pc.routine = some .tx → isSet w.cpu.dev.openFlag EpFlag.tx.mask = true
  unsent : isSet w.cpu.dev.openFlag EpFlag.tx.mask = false → w.sending = none

theorem halves_start (b : Build) : Halves b (.start b) where
  placed := placed_start b
  read := ⟨by simp [Watched.start, Cpu.start, initial, audioTestInit, static],
    by simp [Watched.start, Cpu.start, Pc.readHalf],
    by simp [Watched.start, Cpu.start, Pc.readHalf], Nat.zero_le 1⟩
  write := ⟨by simp [Watched.start], by simp [Watched.start, Cpu.start, Pc.writeHalf],
    by simp [Watched.start, Cpu.start, Pc.writeHalf], Nat.zero_le 1⟩
  readOpen := by simp [Watched.start, Cpu.start, Pc.routine]
  writeOpen := by simp [Watched.start, Cpu.start, Pc.routine]
  unsent := fun _ => rfl

theorem halves_main {b : Build} {w : Watched} (h : Halves b w) (hs : SizesFit b w.cpu .main) :
    Halves b (w.step b .main).1 := by
  have hplaced := placed_step w.cpu .main h.placed hs
  obtain ⟨-, hread, hwrite, hro, hwo, hunsent⟩ := h
  obtain ⟨hopen, harmed, hbf, n, hwbf⟩ := main_keeps b w.cpu.dev w.cpu.pc
  have hcount : ∀ m, m ≤ 1 → (if (mainStep b w.cpu.dev w.cpu.pc).2 = .top then 0 else m) ≤ 1 := by
    intro m hm
    split
    · exact Nat.zero_le 1
    · exact hm
  refine ⟨hplaced, ?_, ?_, ?_, ?_, ?_⟩
  · change Side _ ((mainStep b w.cpu.dev w.cpu.pc).1.armed.map _) _ _ _
    rw [harmed]
    refine hread.main ⟨_, hbf⟩ ?_ (hcount w.outs hread.count_le)
    intro data hdata
    have hnottop := ne_top_of_routine (routine_of_readHalf hdata)
    rcases readHalf_main hdata with ⟨hpc, heq⟩ | ⟨hpc, hold⟩
    · exact Or.inl ⟨if_pos hpc, heq⟩
    · exact Or.inr ⟨hold, if_neg hpc, if_neg hnottop⟩
  · refine hwrite.main ⟨n, hwbf⟩ ?_ (hcount w.ins hwrite.count_le)
    intro data hdata
    have hnottop := ne_top_of_routine (routine_of_writeHalf hdata)
    rcases writeHalf_main hdata with ⟨hpc, heq⟩ | ⟨hpc, hold⟩
    · exact Or.inl ⟨if_pos hpc, heq⟩
    · exact Or.inr ⟨hold, if_neg hpc, if_neg hnottop⟩
  · intro hr
    change isSet (mainStep b w.cpu.dev w.cpu.pc).1.openFlag _ = true
    rw [hopen]
    rcases routine_main hr with hset | hold
    · exact hset
    · exact hro hold
  · intro hr
    change isSet (mainStep b w.cpu.dev w.cpu.pc).1.openFlag _ = true
    rw [hopen]
    rcases routine_main hr with hset | hold
    · exact hset
    · exact hwo hold
  · intro hclosed
    change isSet (mainStep b w.cpu.dev w.cpu.pc).1.openFlag _ = false at hclosed
    rw [hopen] at hclosed
    exact hunsent hclosed

theorem sendingAfter_of_not_ofMic (old : Option ℕ) (io : Io) (h : ¬ io.OfMic) :
    sendingAfter old io = old := by
  cases io with
  | startWrite ep buf off len data => exact if_neg h
  | _ => rfl

/-- What an event from outside does to the two double buffers, read off the two streams. -/
theorem irq_streams {b : Build} {d : Device} (h : Wired b d) {e : Event} (hp : e.isPass = false) :
    let d' := (step b d e).1
    let s := (d.speaker.step e).1
    let m := d.mic.step [] e
    d'.readBf = s.bf ∧ d'.armed = s.armed ∧ isSet d'.openFlag EpFlag.rx.mask = s.opened ∧
      d'.writeBf = m.bf ∧ isSet d'.openFlag EpFlag.tx.mask = m.opened := by
  have hs := (speaker_step h e).1
  have hm := mic_step_of_ne h (show e ≠ .writePass by rintro rfl; cases hp) []
  exact ⟨congrArg Speaker.bf hs, congrArg Speaker.armed hs, congrArg Speaker.opened hs,
    congrArg Mic.bf hm, congrArg Mic.opened hm⟩

/-- The card after an event from outside, from what the event does to the two double buffers. -/
theorem halves_of_sides {b : Build} {w w' : Watched} (h : Halves b w)
    (hplaced : w'.cpu.Placed b) (hpc : w'.cpu.pc = w.cpu.pc)
    (hread : Side w'.cpu.dev.readBf (w'.cpu.dev.armed.map Transfer.off) w.cpu.pc.readHalf w'.outs
      w'.outsSince)
    (hwrite : Side w'.cpu.dev.writeBf w'.sending w.cpu.pc.writeHalf w'.ins w'.insSince)
    (hrx : isSet w.cpu.dev.openFlag EpFlag.rx.mask = true →
      isSet w'.cpu.dev.openFlag EpFlag.rx.mask = true)
    (htx : isSet w.cpu.dev.openFlag EpFlag.tx.mask = true →
      isSet w'.cpu.dev.openFlag EpFlag.tx.mask = true)
    (hunsent : isSet w'.cpu.dev.openFlag EpFlag.tx.mask = false → w'.sending = none) :
    Halves b w' where
  placed := hplaced
  read := by rw [hpc]; exact hread
  write := by rw [hpc]; exact hwrite
  readOpen := fun hr => hrx (h.readOpen (by rw [← hpc]; exact hr))
  writeOpen := fun hr => htx (h.writeOpen (by rw [← hpc]; exact hr))
  unsent := hunsent

/-- Only `in_callback` gives a half of `write_buffer` to the controller. -/
theorem sending_irq {b : Build} {w : Watched} {e : Event} {hp : e.isPass = false}
    (he : e ≠ .inCallback) : (w.step b (.irq e hp)).1.sending = w.sending := by
  have hfold := foldl_of_not_ofMic sendingAfter_of_not_ofMic
    (not_ofMic (b := b) (d := w.cpu.dev) (show e ≠ .writePass by rintro rfl; cases hp) he) w.sending
  cases e <;> exact hfold

theorem halves_irq {b : Build} {w : Watched} (h : Halves b w) {e : Event}
    (hp : e.isPass = false) (hfit : e.Fits b) (ho : Orderly w (.irq e hp)) :
    Halves b (w.step b (.irq e hp)).1 := by
  have hplaced : (w.step b (.irq e hp)).1.cpu.Placed b := by
    have hstep := placed_step w.cpu (.irq e hp) h.placed hfit
    cases e <;> exact hstep
  obtain ⟨hbf, harmed, hrx, hwbf, htx⟩ := irq_streams h.placed.wired hp
  -- the sides of the new state, with its double buffers written out
  have hread : ∀ outs since, Side (w.cpu.dev.speaker.step e).1.bf
      ((w.cpu.dev.speaker.step e).1.armed.map Transfer.off) w.cpu.pc.readHalf outs since →
      Side (step b w.cpu.dev e).1.readBf ((step b w.cpu.dev e).1.armed.map Transfer.off)
        w.cpu.pc.readHalf outs since := fun outs since hside => by
    rw [hbf, harmed]
    exact hside
  have hwrite : ∀ sending ins since, Side (w.cpu.dev.mic.step [] e).bf sending
      w.cpu.pc.writeHalf ins since →
      Side (step b w.cpu.dev e).1.writeBf sending w.cpu.pc.writeHalf ins since :=
    fun sending ins since hside => by
      rw [hwbf]
      exact hside
  cases e with
  | openIntf intf =>
    refine halves_of_sides h hplaced rfl (hread _ _ ?_) (hwrite _ _ _ ?_) (fun hr => ?_)
      (fun ht => ?_) (fun hclosed => ?_)
    · rw [Speaker.step]
      split_ifs with h1
      · rw [eq_none_of_closed (fun _ => routine_of_readHalf) h.readOpen (ho.1 h1)]
        exact Side.reset h.read.count_le (by simp)
      · exact h.read
    · rw [sending_irq (by simp), Mic.step]
      split_ifs with h2
      · rw [eq_none_of_closed (fun _ => routine_of_writeHalf) h.writeOpen (ho.2 h2),
          h.unsent (ho.2 h2)]
        exact Side.reset h.write.count_le (by simp)
      · exact h.write
    · refine hrx.trans ?_
      rw [Speaker.step]
      split_ifs
      · rfl
      · exact hr
    · refine htx.trans ?_
      rw [Mic.step]
      split_ifs
      · rfl
      · exact ht
    · refine (sending_irq (by simp)).trans (h.unsent ?_)
      have hmic := htx.symm.trans hclosed
      rw [Mic.step] at hmic
      split_ifs at hmic
      exact hmic
  | closeIntf intf => exact absurd ho id
  | outCallback pkt =>
    refine halves_of_sides h hplaced rfl (hread _ _ ?_) (hwrite _ _ _ ?_) (fun hr => ?_)
      (fun ht => ?_) (fun hclosed => ?_)
    · have hside := h.read
      rw [ho.2] at hside
      have hflip := hside.flip pkt.length.toUInt32
      simp only [Speaker.step, store_bf, Option.map_some]
      change Side _ _ _ (w.outs + 1) _
      rw [ho.2]
      exact hflip
    · rw [sending_irq (by simp)]
      exact h.write
    · refine hrx.trans ?_
      rw [Speaker.step]
      exact (store_opened _ _ _).trans hr
    · exact htx.trans ht
    · exact (sending_irq (by simp)).trans (h.unsent (htx.symm.trans hclosed))
  | inCallback =>
    have hsent : (w.step b (.irq .inCallback hp)).1.sending =
        some w.cpu.dev.writeBf.flip.usbHalf.toNat := by
      simp only [Watched.step, Cpu.step, step, inCallback_io h.placed.wired, flip_usbHalf]
      rfl
    refine halves_of_sides h hplaced rfl (hread _ _ h.read) (hwrite _ _ _ ?_) (fun hr => ?_)
      (fun ht => ?_) (fun hclosed => ?_)
    · have hside := h.write
      rw [ho.2] at hside
      have hflip := hside.flip w.cpu.dev.writeBf.count
      rw [hsent]
      change Side _ _ _ (w.ins + 1) _
      rw [ho.2]
      exact hflip
    · exact hrx.trans hr
    · exact htx.trans ht
    · have hopen := htx.symm.trans hclosed
      rw [Mic.step] at hopen
      exact absurd (ho.1.symm.trans hopen) (by simp)
  | dma i v =>
    have hspeaker : (w.cpu.dev.speaker.step (.dma i v)).1.bf = w.cpu.dev.readBf ∧
        (w.cpu.dev.speaker.step (.dma i v)).1.armed = w.cpu.dev.armed ∧
        (w.cpu.dev.speaker.step (.dma i v)).1.opened = w.cpu.dev.speaker.opened := by
      simp only [Speaker.step]
      split_ifs
      · simp [Device.speaker]
      · exact ⟨rfl, rfl, rfl⟩
    refine halves_of_sides h hplaced rfl (hread _ _ ?_) (hwrite _ _ _ ?_) (fun hr => ?_)
      (fun ht => htx.trans ht) (fun hclosed => ?_)
    · rw [hspeaker.1, hspeaker.2.1]
      exact h.read
    · rw [sending_irq (by simp)]
      exact h.write
    · exact hrx.trans (hspeaker.2.2.trans hr)
    · exact (sending_irq (by simp)).trans (h.unsent (htx.symm.trans hclosed))
  | inFbCallback =>
    refine halves_of_sides h hplaced rfl (hread _ _ h.read) (hwrite _ _ _ ?_)
      (fun hr => hrx.trans hr) (fun ht => htx.trans ht) (fun hclosed => ?_)
    · rw [sending_irq (by simp)]
      exact h.write
    · exact (sending_irq (by simp)).trans (h.unsent (htx.symm.trans hclosed))
  | setSamplingFreq entityId epCh freq =>
    refine halves_of_sides h hplaced rfl (hread _ _ h.read) (hwrite _ _ _ h.write)
      (fun hr => hrx.trans hr) (fun ht => htx.trans ht)
      (fun hclosed => h.unsent (htx.symm.trans hclosed))
  | _ => cases hp

theorem halves_step {b : Build} (w : Watched) (e : CpuEvent) (h : Halves b w)
    (ho : SizesFit b w.cpu e ∧ Orderly w e) : Halves b (w.step b e).1 := by
  cases e with
  | main => exact halves_main h ho.1
  | irq e hp => exact halves_irq h hp ho.1 ho.2

/-! ### Ownership -/

/-- In one state: the two meet at a byte exactly when a callback has come since the choice. -/
theorem owned_iff {b : Build} {w : Watched} (h : Halves b w) (e : CpuEvent) :
    Owned w e ↔ Untoggled w e := by
  have hread : ∀ src, w.cpu.pc.reading = some src →
      ((∀ t, w.cpu.dev.armed = some t → ¬ w.cpu.dev.readBf.HalfHas t.off src) ↔
        w.outsSince = 0) := by
    intro src hsrc
    obtain ⟨data, hdata, hhalf⟩ := reading_inHalf h.placed.pc.inHalf hsrc
    rw [← h.placed.wired.readHalf] at hhalf
    rw [← h.read.outside_iff hdata hhalf]
    cases w.cpu.dev.armed <;> simp
  have hwrite : ∀ dst, w.cpu.pc.writing = some dst →
      ((∀ off, w.sending = some off → ¬ w.cpu.dev.writeBf.HalfHas off dst) ↔
        w.insSince = 0) := by
    intro dst hdst
    obtain ⟨data, hdata, hhalf⟩ := writing_inHalf h.placed.pc.inHalf hdst
    rw [← h.placed.wired.writeHalf] at hhalf
    exact h.write.outside_iff hdata hhalf
  constructor
  · intro ho he
    refine ⟨fun hr => ?_, fun hr => ?_⟩
    · obtain ⟨src, hsrc⟩ := Option.isSome_iff_exists.mp hr
      exact (hread src hsrc).mp ((ho he).1 src hsrc)
    · obtain ⟨dst, hdst⟩ := Option.isSome_iff_exists.mp hr
      exact (hwrite dst hdst).mp ((ho he).2 dst hdst)
  · intro hu he
    refine ⟨fun src hsrc => ?_, fun dst hdst => ?_⟩
    · exact (hread src hsrc).mpr ((hu he).1 (by simp [hsrc]))
    · exact (hwrite dst hdst).mpr ((hu he).2 (by simp [hdst]))

/-- EXACT: in every run in which the interfaces stay open, each callback comes at most once in an
    iteration, and packets fit their halves, no byte is copied out of or stored in a half that the
    controller works on if and only if no byte is copied or stored after a callback of its stream
    has come since the half was chosen. -/
theorem halves_owned_iff (b : Build) (es : List CpuEvent)
    (h : Along (Watched.step b) (fun w e => SizesFit b w.cpu e ∧ Orderly w e) (.start b) es) :
    Along (Watched.step b) Owned (.start b) es ↔
      Along (Watched.step b) Untoggled (.start b) es :=
  along_congr halves_step (fun _ e hI _ => owned_iff hI e) (halves_start b) h

/-- Both streams in one iteration: a packet is received and one handed over, then the first is
    copied into the ring and the next one to send is begun. -/
theorem halves_owned_iff_copy :
    let es : List CpuEvent := [.irq (.openIntf 1) rfl, .irq (.openIntf 2) rfl,
      .irq (.outCallback [1, 2]) rfl, .irq .inCallback rfl] ++ List.replicate 18 .main
    Along (Watched.step .fs) Owned (.start .fs) es :=
  (halves_owned_iff .fs _ (by decide)).mpr (by decide)

/-- One `out_callback` in each of two iterations: the first has cleared the busy bit, and the second
    comes when `read_samples` is about to copy the first byte out of the half at offset 0, which it
    hands over to the controller. -/
theorem half_toggled_during_copy :
    let pre : List CpuEvent := [.irq (.openIntf 1) rfl, .main, .main, .main, .main,
      .irq (.openIntf 2) rfl, .irq (.outCallback [1, 2, 3, 4, 5, 6]) rfl, .main, .main,
      .main, .main, .main, .main, .main, .main, .irq (.outCallback [7, 8, 9, 10, 11, 12]) rfl]
    Along (Watched.step .fs) (fun w e => SizesFit .fs w.cpu e ∧ Orderly w e) (.start .fs)
        (pre ++ [.main]) ∧
      ¬ Along (Watched.step .fs) Owned (.start .fs) (pre ++ [.main]) := by
  intro pre
  constructor
  · decide
  · rw [along_concat]
    rintro ⟨-, howned⟩
    have hread : (final (Watched.step .fs) (.start .fs) pre).cpu.pc.reading = some 0 := by decide
    have harmed : (final (Watched.step .fs) (.start .fs) pre).cpu.dev.armed =
        some ⟨.readBuffer, 0, 576⟩ := by decide
    exact (howned rfl).1 0 hread _ harmed ⟨Nat.le_refl _, by decide⟩

end AudioCard
