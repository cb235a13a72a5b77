import AudioCard.MainLoop
import AudioCard.MicBounds
import AudioCard.Speaker

/-! Where the main loop copies and stores, step by step.

    `read_samples` and `write_samples` choose a half, load a length or look a size up, and from then
    on go by what they have in local variables, whatever the callbacks do to the globals in between.
    `SizesFit` is what these lengths rest on; then every byte is copied out of the half chosen, or
    stored in it (`inHalf_main`), and no store leaves its array (`inArrays_run`). -/

namespace AudioCard
open Run

/-- The half that `read_samples` has chosen. -/
def Pc.readHalf : Pc → Option ℕ
  | .rsLen data | .rsHead data _ | .rsCopy data _ _ _ => some data
  | _ => none

/-- The half that `write_samples` has chosen. -/
def Pc.writeHalf : Pc → Option ℕ
  | .wsNeed data | .wsHead data _ | .wsCopy data _ _ _ _ _ | .wsCount data _ _ | .wsPad data _
  | .wsZero data _ _ _ => some data
  | _ => none

/-- The place in `read_buffer` that the next step copies a byte out of. -/
def Pc.reading : Pc → Option ℕ
  | .rsCopy _ _ src (_ + 1) => some src
  | _ => none

/-- The place in `write_buffer` that the next step stores a byte at. -/
def Pc.writing : Pc → Option ℕ
  | .wsCopy _ _ _ _ dst (_ + 1) | .wsZero _ _ dst (_ + 1) => some dst
  | _ => none

/-- The next step looks up the size of the packets to send. -/
def Pc.sizing : Pc → Bool
  | .wsNeed _ => true
  | _ => false

theorem sizing_iff {pc : Pc} : pc.sizing = true ↔ ∃ data, pc = .wsNeed data := by
  cases pc <;> simp [Pc.sizing]

/-- The sizes that the main loop goes by fit their halves: a packet the one it is received in, the
    packets to send one of `write_buffer`, where `write_samples` looks their size up. -/
def SizesFit (b : Build) (s : Cpu) : CpuEvent → Prop
  | .main => ∀ data, s.pc = .wsNeed data → FreqFits b s.dev.curInpFreq
  | .irq e _ => e.Fits b

instance (b : Build) (s : Cpu) : (e : CpuEvent) → Decidable (SizesFit b s e)
  | .main =>
    decidable_of_iff (s.pc.sizing = true → FreqFits b s.dev.curInpFreq)
      (by simp only [sizing_iff, SizesFit, forall_exists_index])
  | .irq e _ => inferInstanceAs (Decidable (e.Fits b))

/-! ### What a step of the main loop chooses -/

/-- Where the half of `read_samples` comes from. -/
theorem readHalf_main {b : Build} {d : Device} {pc : Pc} {data : ℕ}
    (h : (mainStep b d pc).2.readHalf = some data) :
    pc = .rsHalf ∧ data = d.readBf.mainHalf.toNat ∨
      pc ≠ .rsHalf ∧ pc.readHalf = some data := by
  cases pc with
  | rsHalf => exact Or.inl ⟨rfl, (Option.some.inj h).symm⟩
  | rsLen data => exact Or.inr ⟨by simp, h⟩
  | rsHead data len =>
    simp only [mainStep] at h
    split at h
    · cases h
    · exact Or.inr ⟨by simp, h⟩
  | rsCopy data end_ src n =>
    cases n with
    | zero => cases h
    | succ n => exact Or.inr ⟨by simp, h⟩
  | top => simp only [mainStep] at h; split at h <;> cases h
  | opened f => simp only [mainStep] at h; split at h <;> cases f <;> cases h
  | test f => simp only [mainStep] at h; split at h <;> cases f <;> cases h
  | wsHead data needLen => simp only [mainStep] at h; split at h <;> cases h
  | wsPad data needLen => simp only [mainStep] at h; split at h <;> cases h
  | wsCopy data needLen ret start dst n => cases n <;> cases h
  | wsZero data needLen dst n => cases n <;> cases h
  | store f v => cases f <;> cases h
  | _ => cases h

/-- Where the half of `write_samples` comes from. -/
theorem writeHalf_main {b : Build} {d : Device} {pc : Pc} {data : ℕ}
    (h : (mainStep b d pc).2.writeHalf = some data) :
    pc = .wsHalf ∧ data = d.writeBf.mainHalf.toNat ∨
      pc ≠ .wsHalf ∧ pc.writeHalf = some data := by
  cases pc with
  | wsHalf => exact Or.inl ⟨rfl, (Option.some.inj h).symm⟩
  | wsNeed data => exact Or.inr ⟨by simp, h⟩
  | wsCount data needLen ret => exact Or.inr ⟨by simp, h⟩
  | wsHead data needLen =>
    simp only [mainStep] at h
    split at h
    · exact Or.inr ⟨by simp, h⟩
    · exact Or.inr ⟨by simp, h⟩
  | wsCopy data needLen ret start dst n =>
    cases n with
    | zero => exact Or.inr ⟨by simp, h⟩
    | succ n => exact Or.inr ⟨by simp, h⟩
  | wsPad data needLen =>
    simp only [mainStep] at h
    split at h
    · exact Or.inr ⟨by simp, h⟩
    · cases h
  | wsZero data needLen dst n =>
    cases n with
    | zero => cases h
    | succ n => exact Or.inr ⟨by simp, h⟩
  | top => simp only [mainStep] at h; split at h <;> cases h
  | opened f => simp only [mainStep] at h; split at h <;> cases f <;> cases h
  | test f => simp only [mainStep] at h; split at h <;> cases f <;> cases h
  | rsHead data len => simp only [mainStep] at h; split at h <;> cases h
  | rsCopy data end_ src n => cases n <;> cases h
  | store f v => cases f <;> cases h
  | _ => cases h

/-! ### The places in the half -/

/-- What the main loop has announced to copy lies in the half it has chosen, and the size it has
    looked up is at most a half. -/
def Pc.InHalf (b : Build) : Pc → Prop
  | .rsHead _ len => len.toNat ≤ (audioOutPacketSz b).toNat
  | .rsCopy data _ src n => data ≤ src ∧ src + n ≤ data + (audioOutPacketSz b).toNat
  | .wsHead _ needLen | .wsPad _ needLen => needLen.toNat ≤ (audioInpPacketSz b).toNat
  | .wsCopy data needLen ret _ dst n =>
    (needLen.toNat ≤ (audioInpPacketSz b).toNat ∧ ret.toNat ≤ needLen.toNat) ∧
      data ≤ dst ∧ dst + n ≤ data + (audioInpPacketSz b).toNat
  | .wsCount _ needLen ret =>
    needLen.toNat ≤ (audioInpPacketSz b).toNat ∧ ret.toNat ≤ needLen.toNat
  | .wsZero data needLen dst n => needLen.toNat ≤ (audioInpPacketSz b).toNat ∧
      data ≤ dst ∧ dst + n ≤ data + (audioInpPacketSz b).toNat
  | _ => True

/-- INVARIANT: the halves chosen are halves, and the main loop stays in them. -/
structure Pc.Placed (b : Build) (pc : Pc) : Prop where
  readHalf : ∀ data, pc.readHalf = some data → data ≤ (audioOutPacketSz b).toNat
  writeHalf : ∀ data, pc.writeHalf = some data → data ≤ (audioInpPacketSz b).toNat
  inHalf : pc.InHalf b

theorem mainHalf_le {bf : DblBuffer} {n : UInt32} (h : bf.halfsize = n) :
    bf.mainHalf.toNat ≤ n.toNat := by
  rcases mainHalf_cases bf with h0 | hn
  · rw [h0]
    exact Nat.zero_le _
  · exact Nat.le_of_eq (hn.trans (congrArg UInt32.toNat h))

/-- A step of the main loop announces what lies in the half. -/
theorem inHalf_main {b : Build} {d : Device} {pc : Pc} (h : pc.InHalf b)
    (hcount : d.readBf.count ≤ audioOutPacketSz b)
    (hneed : ∀ data, pc = .wsNeed data → FreqFits b d.curInpFreq) :
    (mainStep b d pc).2.InHalf b := by
  cases pc with
  | rsLen data => exact UInt32.le_iff_toNat_le.mp hcount
  | rsHead data len =>
    simp only [mainStep]
    split
    · trivial
    · refine ⟨Nat.le_refl _, Nat.add_le_add_left ?_ _⟩
      rw [toNat_writeLen]
      exact Nat.le_trans (Nat.min_le_left _ _) h
  | rsCopy data end_ src n =>
    rcases h with ⟨hlo, hhi⟩
    cases n with
    | zero => trivial
    | succ n =>
      refine ⟨Nat.le_succ_of_le hlo, ?_⟩
      simp only [writeBody]
      omega
  | wsNeed data => exact (freqFits_iff b _).mp (hneed data rfl)
  | wsHead data needLen =>
    have hlen := toNat_readLen d.outRb needLen
    simp only [mainStep]
    split
    · exact ⟨h, Nat.zero_le _⟩
    · have hneedLen : needLen.toNat ≤ (audioInpPacketSz b).toNat := h
      exact ⟨⟨h, by omega⟩, Nat.le_refl _, by omega⟩
  | wsCopy data needLen ret start dst n =>
    rcases h with ⟨hret, hlo, hhi⟩
    cases n with
    | zero => exact hret
    | succ n =>
      refine ⟨hret, Nat.le_succ_of_le hlo, ?_⟩
      simp only [readBody]
      omega
  | wsCount data needLen ret => exact h.1
  | wsPad data needLen =>
    simp only [mainStep]
    split
    · rename_i hlt
      have hsub := UInt32.toNat_sub_of_le _ _ (UInt32.le_of_lt hlt)
      have hneedLen : needLen.toNat ≤ (audioInpPacketSz b).toNat := h
      have hlt := UInt32.lt_iff_toNat_lt.mp hlt
      exact ⟨h, Nat.le_add_right _ _, by omega⟩
    · trivial
  | wsZero data needLen dst n =>
    rcases h with ⟨hneedLen, hlo, hhi⟩
    cases n with
    | zero => trivial
    | succ n => exact ⟨hneedLen, Nat.le_succ_of_le hlo, by omega⟩
  | top => simp only [mainStep]; split <;> trivial
  | opened f => simp only [mainStep]; split <;> cases f <;> trivial
  | test f => simp only [mainStep]; split <;> cases f <;> trivial
  | store f v => cases f <;> trivial
  | _ => trivial

/-- STEP: the main loop chooses a half, and stays in it if the sizes it goes by fit. -/
theorem placed_main {b : Build} {d : Device} {pc : Pc} (hw : Wired b d) (h : pc.Placed b)
    (hcount : d.readBf.count ≤ audioOutPacketSz b)
    (hneed : ∀ data, pc = .wsNeed data → FreqFits b d.curInpFreq) :
    (mainStep b d pc).2.Placed b where
  readHalf := by
    intro data hdata
    rcases readHalf_main hdata with ⟨-, rfl⟩ | ⟨-, hold⟩
    · exact mainHalf_le hw.readHalf
    · exact h.readHalf data hold
  writeHalf := by
    intro data hdata
    rcases writeHalf_main hdata with ⟨-, rfl⟩ | ⟨-, hold⟩
    · exact mainHalf_le hw.writeHalf
    · exact h.writeHalf data hold
  inHalf := inHalf_main h.inHalf hcount hneed

/-- The byte copied out of `read_buffer` lies in the half that `read_samples` has chosen. -/
theorem reading_inHalf {b : Build} {pc : Pc} {src : ℕ} (h : pc.InHalf b)
    (hr : pc.reading = some src) : ∃ data, pc.readHalf = some data ∧
      data ≤ src ∧ src < data + (audioOutPacketSz b).toNat := by
  cases pc with
  | rsCopy data end_ src' n =>
    cases n with
    | zero => cases hr
    | succ n =>
      cases hr
      rcases h with ⟨hlo, hhi⟩
      exact ⟨data, rfl, hlo, by omega⟩
  | _ => cases hr

/-- The byte stored in `write_buffer` lies in the half that `write_samples` has chosen. -/
theorem writing_inHalf {b : Build} {pc : Pc} {dst : ℕ} (h : pc.InHalf b)
    (hr : pc.writing = some dst) : ∃ data, pc.writeHalf = some data ∧
      data ≤ dst ∧ dst < data + (audioInpPacketSz b).toNat := by
  cases pc with
  | wsCopy data needLen ret start dst' n =>
    cases n with
    | zero => cases hr
    | succ n =>
      cases hr
      rcases h with ⟨-, hlo, hhi⟩
      exact ⟨data, rfl, hlo, by omega⟩
  | wsZero data needLen dst' n =>
    cases n with
    | zero => cases hr
    | succ n =>
      cases hr
      rcases h with ⟨-, hlo, hhi⟩
      exact ⟨data, rfl, hlo, by omega⟩
  | _ => cases hr

/-- So it lies in the array. -/
theorem reading_lt {b : Build} {pc : Pc} {src : ℕ} (h : pc.Placed b) (hr : pc.reading = some src) :
    src < 2 * (audioOutPacketSz b).toNat := by
  rcases reading_inHalf h.inHalf hr with ⟨data, hdata, -, hlt⟩
  have hle := h.readHalf data hdata
  omega

theorem writing_lt {b : Build} {pc : Pc} {dst : ℕ} (h : pc.Placed b) (hr : pc.writing = some dst) :
    dst < 2 * (audioInpPacketSz b).toNat := by
  rcases writing_inHalf h.inHalf hr with ⟨data, hdata, -, hlt⟩
  have hle := h.writeHalf data hdata
  omega

/-! ### Runs -/

theorem wired_main {b : Build} {d : Device} (h : Wired b d) (pc : Pc) :
    Wired b (mainStep b d pc).1 := by
  rcases main_dev b d pc with ⟨rb, mem, n, busy, hdev⟩
  rw [hdev]
  exact ⟨h.writePtr, h.writeHalf, h.readPtr, h.readHalf, h.armed⟩

/-- A packet that fits, or an open, leaves the count of `read_bf` within a half. -/
theorem readCount_irq {b : Build} {d : Device} {e : Event} (hw : Wired b d) (hp : e.isPass = false)
    (hfit : e.Fits b) (hcount : d.readBf.count ≤ audioOutPacketSz b) :
    (step b d e).1.readBf.count ≤ audioOutPacketSz b := by
  change (step b d e).1.speaker.bf.count ≤ _
  rw [(speaker_step hw e).1]
  cases e with
  | openIntf intf =>
    simp only [Speaker.step]
    split_ifs
    · exact UInt32.zero_le
    · exact hcount
  | closeIntf intf =>
    simp only [Speaker.step]
    split_ifs <;> exact hcount
  | outCallback pkt =>
    simp only [Speaker.step, store_bf, flip_count]
    rw [Nat.toUInt32_eq, UInt32.le_iff_toNat_le, UInt32.toNat_ofNat']
    exact Nat.le_trans (Nat.mod_le _ _) hfit
  | dma i v =>
    simp only [Speaker.step]
    split_ifs
    · rw [store_bf]
      exact hcount
    · exact hcount
  | readPass | writePass | feedbackPass => cases hp
  | _ => exact hcount

/-- INVARIANT: what keeps the main loop in its halves. -/
structure Cpu.Placed (b : Build) (s : Cpu) : Prop where
  wired : Wired b s.dev
  readCount : s.dev.readBf.count ≤ audioOutPacketSz b
  pc : s.pc.Placed b

theorem placed_start (b : Build) : (Cpu.start b).Placed b where
  wired := wired_initial b
  readCount := UInt32.zero_le
  pc := ⟨by rintro data ⟨⟩, by rintro data ⟨⟩, trivial⟩

theorem placed_step {b : Build} (s : Cpu) (e : CpuEvent) (h : s.Placed b) (hs : SizesFit b s e) :
    (s.step b e).1.Placed b := by
  rcases h with ⟨hw, hcount, hpc⟩
  cases e with
  | main =>
    rcases main_keeps b s.dev s.pc with ⟨-, -, hbf, -⟩
    refine ⟨wired_main hw s.pc, ?_, placed_main hw hpc hcount hs⟩
    rw [Cpu.step, hbf]
    exact hcount
  | irq e hp => exact ⟨wired_step hw e, readCount_irq hw hp hs hcount, hpc⟩

/-- The places that the step works at, if any, are in `read_buffer` and in `write_buffer`. -/
def Cpu.InArrays (b : Build) (s : Cpu) : CpuEvent → Prop
  | .main => (∀ src, s.pc.reading = some src → src < 2 * (audioOutPacketSz b).toNat) ∧
      ∀ dst, s.pc.writing = some dst → dst < 2 * (audioInpPacketSz b).toNat
  | .irq _ _ => True

theorem inArrays_of_placed {b : Build} {s : Cpu} (h : s.Placed b) (e : CpuEvent) :
    s.InArrays b e := by
  cases e with
  | main => exact ⟨fun _ => reading_lt h.pc, fun _ => writing_lt h.pc⟩
  | irq e hp => trivial

/-- RUN: as long as the sizes fit, the main loop copies and stores within the two arrays, in every
    interleaving. -/
theorem inArrays_run {b : Build} {es : List CpuEvent}
    (h : Along (Cpu.step b) (SizesFit b) (Cpu.start b) es) :
    Along (Cpu.step b) (Cpu.InArrays b) (Cpu.start b) es :=
  along_of_invariant placed_step (fun _ e hp _ => inArrays_of_placed hp e) (placed_start b) h

end AudioCard
