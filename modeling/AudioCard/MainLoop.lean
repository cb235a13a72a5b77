import AudioCard.Events
import AudioCard.Lib.Sections

/-! The main loop in small steps, with interrupts between any two of them.

    A step reads or writes the shared globals once: it tests a flag, chooses a half, loads a count,
    copies or zeroes one byte, or does one of the two halves of `ep_busy_flag |= F`, the load and
    the store. A callback runs to its end between two steps. `reaches_mainPass` says that without
    interrupts the steps add up to the pass of the loop that `mainPass` describes. -/

namespace AudioCard
open Segment Flags Relation Sections

/-- Where the main loop is, with the local variables that are live there. A half is given by its
    offset `data` in its array. -/
inductive Pc
  /-- `while (1) { if (open_flag)` -/
  | top
  /-- `if(open_flag & F)` -/
  | opened (f : EpFlag)
  /-- `if((ep_busy_flag & F) == 0)` -/
  | test (f : EpFlag)
  | rsHalf
  | rsLen (data : ℕ)
  /-- the head of `ring_buf_write`, up to its loop -/
  | rsHead (data : ℕ) (len : UInt32)
  /-- the loop of `ring_buf_write`, with `n` passes to go -/
  | rsCopy (data : ℕ) (end_ : UInt32) (src n : ℕ)
  | wsHalf
  | wsNeed (data : ℕ)
  /-- the head of `ring_buf_read`, up to its loop -/
  | wsHead (data : ℕ) (needLen : UInt32)
  /-- the loop of `ring_buf_read`, with `n` passes to go -/
  | wsCopy (data : ℕ) (needLen ret start : UInt32) (dst n : ℕ)
  /-- `write_bf.count = ...` -/
  | wsCount (data : ℕ) (needLen ret : UInt32)
  /-- `if(write_bf.count < need_len)` -/
  | wsPad (data : ℕ) (needLen : UInt32)
  /-- `memset`, with `n` bytes to go, then `write_bf.count = need_len` -/
  | wsZero (data : ℕ) (needLen : UInt32) (dst n : ℕ)
  /-- the load of `ep_busy_flag |= F` -/
  | load (f : EpFlag)
  /-- the store of `ep_busy_flag |= F`, after `v` was loaded -/
  | store (f : EpFlag) (v : UInt8)
  deriving DecidableEq

/-- What follows the routine of a stream in the loop. -/
def Pc.after : EpFlag → Pc
  | .rx => .opened .tx
  | .tx => .opened .fb
  | .fb => .top

/-- What follows a test of the busy bit that found it clear. -/
def Pc.body : EpFlag → Pc
  | .rx => .rsHalf
  | .tx => .wsHalf
  | .fb => .load .fb

/-- The routine that the main loop is in. -/
def Pc.routine : Pc → Option EpFlag
  | .top | .opened _ => none
  | .test f | .load f | .store f _ => some f
  | .rsHalf | .rsLen _ | .rsHead _ _ | .rsCopy _ _ _ _ => some .rx
  | .wsHalf | .wsNeed _ | .wsHead _ _ | .wsCopy _ _ _ _ _ _ | .wsCount _ _ _ | .wsPad _ _
  | .wsZero _ _ _ _ => some .tx

/-- One step of the main loop. -/
def mainStep (b : Build) (d : Device) : Pc → Device × Pc
  | .top => (d, if d.openFlag ≠ 0 then .opened .rx else .top)
  | .opened f =>
    (d, if (f = .fb → b.hasFeedback) ∧ isSet d.openFlag f.mask then .test f else .after f)
  | .test f => (d, if ¬ isSet d.epBusyFlag f.mask then .body f else .after f)
  -- read_samples
  | .rsHalf => (d, .rsLen d.readBf.mainHalf.toNat)
  | .rsLen data => (d, .rsHead data d.readBf.count)
  | .rsHead data len =>
    if ringBufFull d.outRb then (d, .load .rx)
    else
      let len := writeLen d.outRb len
      ({ d with outRb := { d.outRb with
          count := d.outRb.count + len
          remain := d.outRb.remain - len } }, .rsCopy data d.outRb.end_ data len.toNat)
  | .rsCopy data end_ src (n + 1) =>
    let l := writeBody (d.mem d.readBf.buffer) d.outRb.size ⟨d.outRb.buff, end_, src⟩
    ({ d with outRb := { d.outRb with buff := l.buff } }, .rsCopy data l.end_ l.src n)
  | .rsCopy _ end_ _ 0 => ({ d with outRb := { d.outRb with end_ := end_ } }, .load .rx)
  -- write_samples
  | .wsHalf => (d, .wsNeed d.writeBf.mainHalf.toNat)
  | .wsNeed data => (d, .wsHead data (getInpPacketSize b d.curInpFreq))
  | .wsHead data needLen =>
    if ringBufEmpty d.outRb then (d, .wsCount data needLen 0)
    else
      let len := readLen d.outRb needLen
      ({ d with outRb := { d.outRb with
          count := d.outRb.count - len
          remain := d.outRb.remain + len } },
        .wsCopy data needLen len d.outRb.start data len.toNat)
  | .wsCopy data needLen ret start dst (n + 1) =>
    let l := readBody d.outRb.buff d.outRb.size ⟨d.mem d.writeBf.buffer, dst, start⟩
    ({ d with mem := Function.update d.mem d.writeBf.buffer l.mem },
      .wsCopy data needLen ret l.start l.dst n)
  | .wsCopy data needLen ret start _ 0 =>
    ({ d with outRb := { d.outRb with start := start } }, .wsCount data needLen ret)
  | .wsCount data needLen ret =>
    ({ d with writeBf := { d.writeBf with count := ret } }, .wsPad data needLen)
  | .wsPad data needLen =>
    (d, if d.writeBf.count < needLen then
      .wsZero data needLen (data + d.writeBf.count.toNat) (needLen - d.writeBf.count).toNat
    else .load .tx)
  | .wsZero data needLen dst (n + 1) =>
    let mem := Function.update (d.mem d.writeBf.buffer) dst 0
    ({ d with mem := Function.update d.mem d.writeBf.buffer mem }, .wsZero data needLen (dst + 1) n)
  | .wsZero _ needLen _ 0 =>
    ({ d with writeBf := { d.writeBf with count := needLen } }, .load .tx)
  | .load f => (d, .store f d.epBusyFlag)
  | .store f v => ({ d with epBusyFlag := v ||| f.mask }, .after f)

/-- All that a step of the main loop can change: the ring, the arrays, the length of the packet to
    send, and `ep_busy_flag`. -/
theorem main_dev (b : Build) (d : Device) (pc : Pc) : ∃ rb mem n busy,
    (mainStep b d pc).1 = { d with
      outRb := rb
      mem := mem
      writeBf := { d.writeBf with count := n }
      epBusyFlag := busy } := by
  cases pc with
  | rsHead data len =>
    simp only [mainStep]
    split <;> exact ⟨_, _, _, _, rfl⟩
  | wsHead data needLen =>
    simp only [mainStep]
    split <;> exact ⟨_, _, _, _, rfl⟩
  | rsCopy data end_ src n => cases n <;> exact ⟨_, _, _, _, rfl⟩
  | wsCopy data needLen ret start dst n => cases n <;> exact ⟨_, _, _, _, rfl⟩
  | wsZero data needLen dst n => cases n <;> exact ⟨_, _, _, _, rfl⟩
  | _ => exact ⟨_, _, _, _, rfl⟩

/-- The main loop opens nothing, arms nothing and does not toggle. -/
theorem main_keeps (b : Build) (d : Device) (pc : Pc) :
    (mainStep b d pc).1.openFlag = d.openFlag ∧ (mainStep b d pc).1.armed = d.armed ∧
      (mainStep b d pc).1.readBf = d.readBf ∧
      ∃ n, (mainStep b d pc).1.writeBf = { d.writeBf with count := n } := by
  obtain ⟨rb, mem, n, busy, hdev⟩ := main_dev b d pc
  rw [hdev]
  exact ⟨rfl, rfl, rfl, n, rfl⟩

/-- The main loop sets no frequency. -/
theorem curInpFreq_main (b : Build) (d : Device) (pc : Pc) :
    (mainStep b d pc).1.curInpFreq = d.curInpFreq := by
  obtain ⟨rb, mem, n, busy, hdev⟩ := main_dev b d pc
  rw [hdev]

/-! ### With interrupts -/

/-- The event is a pass of the main loop, not something that comes from outside it. -/
def Event.isPass : Event → Bool
  | .readPass | .writePass | .feedbackPass => true
  | _ => false

/-- The card and its main loop. -/
structure Cpu where
  dev : Device
  pc : Pc

/-- A step of the main loop, or an event from outside it. -/
inductive CpuEvent
  | main
  | irq (e : Event) (h : e.isPass = false)

instance : (e : CpuEvent) → Decidable (e = .main)
  | .main => isTrue rfl
  | .irq _ _ => isFalse fun h => by cases h

def Cpu.step (b : Build) (s : Cpu) : CpuEvent → Cpu × List Io
  | .main => (⟨(mainStep b s.dev s.pc).1, (mainStep b s.dev s.pc).2⟩, [])
  | .irq e _ => (⟨(AudioCard.step b s.dev e).1, s.pc⟩, (AudioCard.step b s.dev e).2)

/-- `audio_test` enters its loop. -/
def Cpu.start (b : Build) : Cpu := ⟨initial b, .top⟩

/-! ### Without interrupts -/

/-- Steps of the main loop, undisturbed. -/
def Reaches (b : Build) : Cpu → Cpu → Prop := ReflTransGen fun s t => (s.step b .main).1 = t

theorem Reaches.one (b : Build) (d : Device) (pc : Pc) :
    Reaches b ⟨d, pc⟩ ⟨(mainStep b d pc).1, (mainStep b d pc).2⟩ :=
  ReflTransGen.single rfl

/-- The main loop is in the routine of a stream. -/
def Cpu.Inside (s : Cpu) : Prop := s.pc.routine.isSome = true

/-- Steps of a routine, undisturbed. -/
def Runs (b : Build) : Cpu → Cpu → Prop := Within (fun s => (s.step b .main).1) Cpu.Inside

/-- One step, and what follows it. -/
theorem Runs.head {b : Build} {d : Device} {pc : Pc} {t : Cpu} (hpc : pc.routine.isSome = true)
    (h : Runs b ⟨(mainStep b d pc).1, (mainStep b d pc).2⟩ t) : Runs b ⟨d, pc⟩ t :=
  within_head hpc h

theorem Runs.one (b : Build) (d : Device) (pc : Pc) (hpc : pc.routine.isSome = true) :
    Runs b ⟨d, pc⟩ ⟨(mainStep b d pc).1, (mainStep b d pc).2⟩ :=
  within_one hpc

theorem Runs.trans {b : Build} {s t u : Cpu} (h : Runs b s t) (h' : Runs b t u) : Runs b s u :=
  ReflTransGen.trans h h'

/-- The loop of `ring_buf_write`. -/
theorem runs_rsCopy (b : Build) (data : ℕ) : ∀ (n : ℕ) (d : Device) (end_ : UInt32) (src : ℕ),
    let l := (writeBody (d.mem d.readBf.buffer) d.outRb.size)^[n] ⟨d.outRb.buff, end_, src⟩
    Runs b ⟨d, .rsCopy data end_ src n⟩
      ⟨{ d with outRb := { d.outRb with buff := l.buff, end_ := l.end_ } }, .load .rx⟩
  | 0, d, end_, src => Runs.one b d (.rsCopy data end_ src 0) rfl
  | n + 1, d, end_, src => by
    refine Runs.head rfl ?_
    exact runs_rsCopy b data n _ _ _

/-- The loop of `ring_buf_read`. -/
theorem runs_wsCopy (b : Build) (data : ℕ) (needLen ret : UInt32) :
    ∀ (n : ℕ) (d : Device) (start : UInt32) (dst : ℕ),
    let l := (readBody d.outRb.buff d.outRb.size)^[n] ⟨d.mem d.writeBf.buffer, dst, start⟩
    Runs b ⟨d, .wsCopy data needLen ret start dst n⟩
      ⟨{ d with
          outRb := { d.outRb with start := l.start }
          mem := Function.update d.mem d.writeBf.buffer l.mem }, .wsCount data needLen ret⟩
  | 0, d, start, dst => by
    have h := Runs.one b d (.wsCopy data needLen ret start dst 0) rfl
    simpa [mainStep] using h
  | n + 1, d, start, dst => by
    refine Runs.head rfl ?_
    have h := runs_wsCopy b data needLen ret n
      (mainStep b d (.wsCopy data needLen ret start dst (n + 1))).1
      (readBody d.outRb.buff d.outRb.size ⟨d.mem d.writeBf.buffer, dst, start⟩).start
      (readBody d.outRb.buff d.outRb.size ⟨d.mem d.writeBf.buffer, dst, start⟩).dst
    simpa [mainStep] using h

/-- `memset` -/
theorem runs_wsZero (b : Build) (data : ℕ) (needLen : UInt32) :
    ∀ (n : ℕ) (d : Device) (dst : ℕ),
    Runs b ⟨d, .wsZero data needLen dst n⟩
      ⟨{ d with
          mem := Function.update d.mem d.writeBf.buffer (memset (d.mem d.writeBf.buffer) dst 0 n)
          writeBf := { d.writeBf with count := needLen } }, .load .tx⟩
  | 0, d, dst => by
    have h := Runs.one b d (.wsZero data needLen dst 0) rfl
    simpa [mainStep, memset, overlay] using h
  | n + 1, d, dst => by
    refine Runs.head rfl ?_
    have h := runs_wsZero b data needLen n
      (mainStep b d (.wsZero data needLen dst (n + 1))).1 (dst + 1)
    simpa [mainStep, memset, overlay, List.replicate_succ] using h

/-- `ep_busy_flag |= F` -/
theorem runs_load (b : Build) (d : Device) (f : EpFlag) : Runs b ⟨d, .load f⟩
    ⟨{ d with epBusyFlag := d.epBusyFlag ||| f.mask }, .after f⟩ :=
  (Runs.one b d (.load f) rfl).trans (Runs.one b d (.store f d.epBusyFlag) rfl)

/-- `ring_buf_write` -/
theorem runs_ringBufWrite (b : Build) (d : Device) (data : ℕ) (len : UInt32) :
    Runs b ⟨d, .rsHead data len⟩
      ⟨{ d with outRb := (ringBufWrite d.outRb (d.mem d.readBf.buffer) data len).1 },
        .load .rx⟩ := by
  have h := Runs.one b d (.rsHead data len) rfl
  rw [mainStep] at h
  rw [ringBufWrite]
  by_cases hfull : ringBufFull d.outRb = true
  · rw [if_pos hfull] at h ⊢
    exact h
  · rw [if_neg hfull] at h ⊢
    exact h.trans (runs_rsCopy b data _ _ _ _)

/-- `ring_buf_read` -/
theorem runs_ringBufRead (b : Build) (d : Device) (data : ℕ) (needLen : UInt32) :
    let r := ringBufRead d.outRb (d.mem d.writeBf.buffer) data needLen
    Runs b ⟨d, .wsHead data needLen⟩
      ⟨{ d with outRb := r.1, mem := Function.update d.mem d.writeBf.buffer r.2.1 },
        .wsCount data needLen r.2.2⟩ := by
  have h := Runs.one b d (.wsHead data needLen) rfl
  rw [mainStep] at h
  simp only [ringBufRead]
  split_ifs at h ⊢
  · simpa only [Function.update_eq_self] using h
  · exact h.trans (runs_wsCopy b data needLen _ _ _ _ _)

theorem runs_test {b : Build} {d : Device} {f : EpFlag} : Runs b ⟨d, .test f⟩
    ⟨d, if ¬ isSet d.epBusyFlag f.mask then .body f else .after f⟩ := Runs.one b d (.test f) rfl

theorem runs_readSamples (b : Build) (d : Device) :
    Runs b ⟨d, .test .rx⟩ ⟨(readSamples d).1, .after .rx⟩ := by
  refine runs_test.trans ?_
  rw [readSamples]
  split_ifs with hb
  · exact ReflTransGen.refl
  · have hhalf : Runs b ⟨d, .rsHalf⟩ ⟨d, .rsLen d.readBf.mainHalf.toNat⟩ :=
      Runs.one b d .rsHalf rfl
    have hlen := Runs.one b d (.rsLen d.readBf.mainHalf.toNat) rfl
    have hwrite := runs_ringBufWrite b d d.readBf.mainHalf.toNat d.readBf.count
    exact ((hhalf.trans hlen).trans hwrite).trans (runs_load b _ .rx)

theorem runs_writeSamples (b : Build) (d : Device) :
    Runs b ⟨d, .test .tx⟩ ⟨(writeSamples b d).1, .after .tx⟩ := by
  refine runs_test.trans ?_
  rw [writeSamples]
  split_ifs with hb
  · exact ReflTransGen.refl
  · have hhalf : Runs b ⟨d, .wsHalf⟩ ⟨d, .wsNeed d.writeBf.mainHalf.toNat⟩ :=
      Runs.one b d .wsHalf rfl
    have hneed := Runs.one b d (.wsNeed d.writeBf.mainHalf.toNat) rfl
    have hread := runs_ringBufRead b d d.writeBf.mainHalf.toNat
      (getInpPacketSize b d.curInpFreq)
    refine ((hhalf.trans hneed).trans hread).trans ?_
    -- what is done with the number of bytes read
    dsimp only
    generalize d.writeBf.mainHalf.toNat = data
    generalize getInpPacketSize b d.curInpFreq = needLen
    generalize ringBufRead d.outRb (d.mem d.writeBf.buffer) data needLen = r
    refine (Runs.one b _ (.wsCount data needLen r.2.2) rfl).trans ?_
    refine (Runs.one b _ (.wsPad data needLen) rfl).trans ?_
    simp only [mainStep]
    by_cases hlt : r.2.2 < needLen
    · simp only [hlt, if_true]
      have hzero := runs_wsZero b data needLen (needLen - r.2.2).toNat { d with
          outRb := r.1
          mem := Function.update d.mem d.writeBf.buffer r.2.1
          writeBf := { d.writeBf with count := r.2.2 } } (data + r.2.2.toNat)
      refine hzero.trans ?_
      simp only [Function.update_self, Function.update_idem]
      exact runs_load b _ .tx
    · simp only [hlt, if_false]
      exact runs_load b _ .tx

theorem runs_writeFeedback (b : Build) (d : Device) :
    Runs b ⟨d, .test .fb⟩ ⟨(writeFeedback d).1, .after .fb⟩ := by
  refine runs_test.trans ?_
  rw [writeFeedback]
  split_ifs with hb
  · exact ReflTransGen.refl
  · exact runs_load b d .fb

/-- The pass of the loop over a stream. -/
def EpFlag.pass : EpFlag → Event
  | .rx => .readPass
  | .tx => .writePass
  | .fb => .feedbackPass

/-- What `.opened f` tests. -/
def Device.enters (b : Build) (f : EpFlag) (d : Device) : Prop :=
  (f = .fb → b.hasFeedback = true) ∧ isSet d.openFlag f.mask = true

instance (b : Build) (f : EpFlag) (d : Device) : Decidable (d.enters b f) :=
  inferInstanceAs (Decidable (_ ∧ _))

theorem mainStep_opened (b : Build) (d : Device) (f : EpFlag) :
    mainStep b d (.opened f) = (d, if d.enters b f then .test f else .after f) := rfl

/-- A routine, run to its end, is the pass over its stream. -/
theorem runs_pass {b : Build} {d : Device} {f : EpFlag} (h : d.enters b f) :
    Runs b ⟨d, .test f⟩ ⟨(step b d f.pass).1, .after f⟩ := by
  obtain ⟨hfb, hopen⟩ := h
  cases f with
  | rx =>
    have hpass : step b d (EpFlag.pass .rx) = readSamples d := if_pos hopen
    rw [hpass]
    exact runs_readSamples b d
  | tx =>
    have hpass : step b d (EpFlag.pass .tx) = writeSamples b d := if_pos hopen
    rw [hpass]
    exact runs_writeSamples b d
  | fb =>
    have hpass : step b d (EpFlag.pass .fb) = writeFeedback d := if_pos ⟨hfb rfl, hopen⟩
    rw [hpass]
    exact runs_writeFeedback b d

/-- The pass over a stream that is not open does nothing. -/
theorem step_pass_of_not {b : Build} {d : Device} {f : EpFlag} (h : ¬ d.enters b f) :
    step b d f.pass = (d, []) := by
  cases f with
  | rx => exact if_neg fun hopen => h ⟨nofun, hopen⟩
  | tx => exact if_neg fun hopen => h ⟨nofun, hopen⟩
  | fb => exact if_neg fun hopen => h ⟨fun _ => hopen.1, hopen.2⟩

/-- A branch of the loop is the pass over its stream. -/
theorem reaches_pass (b : Build) (d : Device) (f : EpFlag) :
    Reaches b ⟨d, .opened f⟩ ⟨(step b d f.pass).1, .after f⟩ := by
  have hone := Reaches.one b d (.opened f)
  rw [mainStep_opened] at hone
  by_cases h : d.enters b f
  · rw [if_pos h] at hone
    exact hone.trans (reaches_of_within (runs_pass h))
  · rw [if_neg h] at hone
    rw [step_pass_of_not h]
    exact hone

/-- REFINEMENT: undisturbed, the small steps of one iteration are the pass of the main loop. -/
theorem reaches_mainPass (b : Build) (d : Device) :
    Reaches b ⟨d, .top⟩ ⟨(mainPass b d).1, .top⟩ := by
  have htop := Reaches.one b d .top
  by_cases hopen : d.openFlag = 0
  · rw [mainPass, if_neg (by simp [hopen])]
    exact ReflTransGen.refl
  · simp only [mainStep, ne_eq, hopen, not_false_eq_true, if_true] at htop
    rw [(mainPass_eq b d).1]
    exact ((htop.trans (reaches_pass b d .rx)).trans (reaches_pass b _ .tx)).trans
      (reaches_pass b _ .fb)

end AudioCard
