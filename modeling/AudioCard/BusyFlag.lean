import AudioCard.MainLoop
import AudioCard.Streams

/-! The busy bits under preemption.

    A callback clears the bit of its stream, and the main loop sets it again when it has dealt with
    the stream. The loop does so by a load and a store of the whole byte, so the clear of a callback
    is lost if it comes in between and the loaded byte still has the bit set; it is lost too if it
    comes after the routine of the stream has tested the bit. `Undisturbed` says that it does
    neither. -/

namespace AudioCard
open Flags Run

/-- The bit that a callback clears. -/
def CpuEvent.clears (b : Build) : CpuEvent → Option EpFlag
  | .irq (.outCallback _) _ => some .rx
  | .irq .inCallback _ => some .tx
  | .irq .inFbCallback _ => if b.hasFeedback then some .fb else none
  | _ => none

/-- The event opens and closes no interface. -/
def CpuEvent.Stays : CpuEvent → Prop
  | .irq (.openIntf _) _ => False
  | .irq (.closeIntf _) _ => False
  | _ => True

/-- The main loop is past its test of the bit of `f`, or has loaded it set: it will set the bit
    before it tests it. -/
def Pc.willSet (f : EpFlag) : Pc → Bool
  | .top | .opened _ | .test _ => false
  | .rsHalf | .rsLen _ | .rsHead _ _ | .rsCopy _ _ _ _ => f = .rx
  | .wsHalf | .wsNeed _ | .wsHead _ _ | .wsCopy _ _ _ _ _ _ | .wsCount _ _ _ | .wsPad _ _
  | .wsZero _ _ _ _ => f = .tx
  | .load g => f = g
  | .store g v => f = g || isSet v f.mask

/-- The routine of stream `f` tests its bit and finds it clear. -/
def FoundClear (f : EpFlag) (s : Cpu) (e : CpuEvent) : Prop :=
  e = .main ∧ s.pc = .test f ∧ isSet s.dev.epBusyFlag f.mask = false

/-- Along the run `es` a bit that a callback has cleared stays clear until the routine of its stream
    has found it clear. -/
def ClearsKept (b : Build) (s : Cpu) (es : List CpuEvent) : Prop :=
  ∀ p e q r f, es = p ++ e :: q ++ r → e.clears b = some f →
    (∀ q₁ g q₂, q = q₁ ++ g :: q₂ → ¬ FoundClear f (final (Cpu.step b) s (p ++ e :: q₁)) g) →
    isSet (final (Cpu.step b) s (p ++ e :: q)).dev.epBusyFlag f.mask = false

/-- A callback comes when the main loop is not about to set its bit. -/
def Undisturbed (b : Build) (s : Cpu) (e : CpuEvent) : Prop :=
  ∀ f, e.clears b = some f → s.pc.willSet f = false

/-- The bit is clear, and the main loop will not set it before it has tested it. -/
def Cleared (f : EpFlag) (s : Cpu) : Prop :=
  isSet s.dev.epBusyFlag f.mask = false ∧ s.pc.willSet f = false

/-! ### A clear that is kept -/

/-- A callback clears its bit, and leaves the main loop where it is. -/
theorem irq_clears {b : Build} {s : Cpu} {e : CpuEvent} {f : EpFlag} (h : e.clears b = some f) :
    isSet (s.step b e).1.dev.epBusyFlag f.mask = false ∧ (s.step b e).1.pc = s.pc := by
  cases e with
  | main => cases h
  | irq e hp =>
    refine ⟨?_, rfl⟩
    change isSet (step b s.dev e).1.flags.epBusyFlag f.mask = false
    rw [flags_step]
    cases e with
    | outCallback pkt =>
      cases h
      simp [FlagBytes.step]
    | inCallback =>
      cases h
      simp [FlagBytes.step]
    | inFbCallback =>
      simp only [CpuEvent.clears] at h
      split_ifs at h with hfb
      cases h
      simp [FlagBytes.step, hfb]
    | _ => cases h

/-- An event from outside that opens no interface sets no busy bit. -/
theorem isSet_irq {b : Build} {s : Cpu} {e : Event} {hp : e.isPass = false} {f : EpFlag}
    (hs : (CpuEvent.irq e hp).Stays) (h : isSet s.dev.epBusyFlag f.mask = false) :
    isSet (s.step b (.irq e hp)).1.dev.epBusyFlag f.mask = false := by
  have hold : isSet s.dev.flags.epBusyFlag f.mask = false := h
  change isSet (step b s.dev e).1.flags.epBusyFlag f.mask = false
  rw [flags_step]
  cases e with
  | openIntf intf => cases hs
  | closeIntf intf => cases hs
  | outCallback pkt => simp [FlagBytes.step, hold]
  | inCallback => simp [FlagBytes.step, hold]
  | inFbCallback =>
    rw [FlagBytes.step]
    split_ifs <;> simp [hold]
  | setSamplingFreq entityId epCh freq => exact hold
  | dma i v => exact hold
  | _ => cases hp

/-- One step of the main loop keeps the bit clear, unless it is the test that finds it clear. -/
theorem cleared_main {b : Build} {d : Device} {pc : Pc} {f : EpFlag} (h : Cleared f ⟨d, pc⟩)
    (hno : pc ≠ .test f) : Cleared f ⟨(mainStep b d pc).1, (mainStep b d pc).2⟩ := by
  obtain ⟨hbit, hpc⟩ := h
  cases pc with
  | top =>
    refine ⟨hbit, ?_⟩
    simp only [mainStep]
    split <;> rfl
  | opened g =>
    refine ⟨hbit, ?_⟩
    simp only [mainStep]
    split
    · rfl
    · cases g <;> rfl
  | test g =>
    refine ⟨hbit, ?_⟩
    have hne : f ≠ g := fun h => hno (by rw [h])
    simp only [mainStep]
    split
    · cases g <;> simpa [Pc.body, Pc.willSet] using hne
    · cases g <;> rfl
  | load g =>
    have hne : f ≠ g := by simpa [Pc.willSet] using hpc
    exact ⟨hbit, by simp [mainStep, Pc.willSet, hne, hbit]⟩
  | store g v =>
    simp only [Pc.willSet, Bool.or_eq_false_iff, decide_eq_false_iff_not] at hpc
    refine ⟨?_, by cases g <;> rfl⟩
    simp [mainStep, hpc.2, Ne.symm hpc.1]
  | rsHead data len =>
    simp only [mainStep]
    split
    · exact ⟨hbit, hpc⟩
    · exact ⟨hbit, hpc⟩
  | rsCopy data end_ src n => cases n <;> exact ⟨hbit, hpc⟩
  | wsHead data needLen =>
    simp only [mainStep]
    split
    · exact ⟨hbit, hpc⟩
    · exact ⟨hbit, hpc⟩
  | wsCopy data needLen ret start dst n => cases n <;> exact ⟨hbit, hpc⟩
  | wsPad data needLen =>
    refine ⟨hbit, ?_⟩
    simp only [mainStep]
    split
    · exact hpc
    · exact hpc
  | wsZero data needLen dst n => cases n <;> exact ⟨hbit, hpc⟩
  | _ => exact ⟨hbit, hpc⟩

theorem cleared_step {b : Build} {s : Cpu} {e : CpuEvent} {f : EpFlag} (h : Cleared f s)
    (hs : e.Stays) (hno : ¬ FoundClear f s e) : Cleared f (s.step b e).1 := by
  cases e with
  | main => exact cleared_main h fun hpc => hno ⟨rfl, hpc, h.1⟩
  | irq e hp => exact ⟨isSet_irq hs h.1, h.2⟩

/-- It stays clear until the test. -/
theorem cleared_final {b : Build} {f : EpFlag} {s : Cpu} (h : Cleared f s) (q : List CpuEvent)
    (hs : ∀ e ∈ q, e.Stays)
    (hno : ∀ q₁ g q₂, q = q₁ ++ g :: q₂ → ¬ FoundClear f (final (Cpu.step b) s q₁) g) :
    Cleared f (final (Cpu.step b) s q) := by
  induction q using List.reverseRecOn with
  | nil => exact h
  | append_singleton q e ih =>
    rw [final_concat]
    refine cleared_step (ih ?_ ?_) (hs e (by simp)) (hno q e [] rfl)
    · exact fun g hg => hs g (by simp [hg])
    · exact fun q₁ g q₂ hq => hno q₁ g (q₂ ++ [e]) (by simp [hq])

theorem clearsKept_of_undisturbed {b : Build} {s : Cpu} {es : List CpuEvent}
    (hs : ∀ e ∈ es, e.Stays) (h : Along (Cpu.step b) (Undisturbed b) s es) :
    ClearsKept b s es := by
  rintro p e q r f rfl hf hno
  have hund := (along_iff_forall_split _ _).mp h p e (q ++ r) (by simp) f hf
  obtain ⟨hbit, hpc⟩ := irq_clears (s := final (Cpu.step b) s p) hf
  have hstart : Cleared f (final (Cpu.step b) s (p ++ [e])) := by
    rw [final_concat]
    exact ⟨hbit, by rw [hpc]; exact hund⟩
  have happ : ∀ q₁, p ++ e :: q₁ = p ++ [e] ++ q₁ := fun q₁ => by simp
  rw [happ, final_append]
  refine (cleared_final hstart q (fun g hg => hs g (by simp [hg])) ?_).1
  intro q₁ g q₂ hq
  rw [← final_append, ← happ]
  exact hno q₁ g q₂ hq

/-! ### A clear that is lost -/

/-- How many steps the main loop has at most to go before it sets the bit. -/
def Pc.left : Pc → ℕ
  | .top | .opened _ | .test _ => 0
  | .rsHalf => UInt32.size + 5
  | .rsLen _ => UInt32.size + 4
  | .rsHead _ _ => UInt32.size + 3
  | .rsCopy _ _ _ n => n + 3
  | .wsHalf => UInt32.size + UInt32.size + 7
  | .wsNeed _ => UInt32.size + UInt32.size + 6
  | .wsHead _ _ => UInt32.size + UInt32.size + 5
  | .wsCopy _ _ _ _ _ n => n + UInt32.size + 5
  | .wsCount _ _ _ => UInt32.size + 4
  | .wsPad _ _ => UInt32.size + 3
  | .wsZero _ _ _ n => n + 3
  | .load _ => 2
  | .store _ _ => 1

/-- One step towards the store: the bit is set, or the store is nearer. -/
theorem willSet_main (b : Build) (d : Device) {pc : Pc} {f : EpFlag} (h : pc.willSet f = true) :
    isSet (mainStep b d pc).1.epBusyFlag f.mask = true ∨
      (mainStep b d pc).2.willSet f = true ∧ (mainStep b d pc).2.left < pc.left := by
  cases pc with
  | top => cases h
  | opened g => cases h
  | test g => cases h
  | store g v =>
    left
    simp only [Pc.willSet, Bool.or_eq_true, decide_eq_true_eq] at h
    rcases h with rfl | h
    · simp [mainStep]
    · simp [mainStep, h]
  | load g =>
    right
    simp only [Pc.willSet, decide_eq_true_eq] at h
    exact ⟨by simp [mainStep, Pc.willSet, h], by simp [mainStep, Pc.left]⟩
  | rsHead data len =>
    right
    have hlen := (writeLen d.outRb len).toNat_lt_size
    simp only [mainStep]
    split
    · exact ⟨h, by simp only [Pc.left]; omega⟩
    · exact ⟨h, by simp only [Pc.left]; omega⟩
  | rsCopy data end_ src n =>
    right
    cases n with
    | zero => exact ⟨h, by simp [mainStep, Pc.left]⟩
    | succ n => exact ⟨h, by simp [mainStep, Pc.left]⟩
  | wsHead data needLen =>
    right
    have hlen := (readLen d.outRb needLen).toNat_lt_size
    simp only [mainStep]
    split
    · exact ⟨h, by simp only [Pc.left]; omega⟩
    · exact ⟨h, by simp only [Pc.left]; omega⟩
  | wsCopy data needLen ret start dst n =>
    right
    cases n with
    | zero => exact ⟨h, by simp only [mainStep, Pc.left]; omega⟩
    | succ n => exact ⟨h, by simp only [mainStep, Pc.left]; omega⟩
  | wsPad data needLen =>
    right
    have hlen := (needLen - d.writeBf.count).toNat_lt_size
    simp only [mainStep]
    split
    · exact ⟨h, by simp only [Pc.left]; omega⟩
    · exact ⟨h, by simp only [Pc.left]; omega⟩
  | wsZero data needLen dst n =>
    right
    cases n with
    | zero => exact ⟨h, by simp [mainStep, Pc.left]⟩
    | succ n => exact ⟨h, by simp [mainStep, Pc.left]⟩
  | _ => exact Or.inr ⟨h, by simp [mainStep, Pc.left]⟩

def CpuEvent.isMain : CpuEvent → Bool
  | .main => true
  | .irq _ _ => false

/-- With enough steps of the main loop the bit is set, and nobody has tested it before. -/
theorem exists_set_of_willSet {b : Build} {f : EpFlag} (q : List CpuEvent) :
    ∀ {s : Cpu}, s.pc.willSet f = true → s.pc.left ≤ q.countP CpuEvent.isMain →
    ∃ q₁ q₂, q = q₁ ++ q₂ ∧ isSet (final (Cpu.step b) s q₁).dev.epBusyFlag f.mask = true ∧
      ∀ q₃ g q₄, q₁ = q₃ ++ g :: q₄ → ¬ FoundClear f (final (Cpu.step b) s q₃) g := by
  induction q with
  | nil =>
    intro s h hleft
    exfalso
    cases hpc : s.pc <;> rw [hpc] at h hleft <;> first | cases h | simp [Pc.left] at hleft
  | cons e q ih =>
    intro s h hleft
    have hhead : ¬ FoundClear f s e := by
      rintro ⟨-, hpc, -⟩
      rw [hpc] at h
      cases h
    -- a run of the rest, with `e` before it
    have hcons : ∀ q₁, (∀ q₃ g q₄, q₁ = q₃ ++ g :: q₄ →
        ¬ FoundClear f (final (Cpu.step b) (s.step b e).1 q₃) g) →
        ∀ q₃ g q₄, e :: q₁ = q₃ ++ g :: q₄ → ¬ FoundClear f (final (Cpu.step b) s q₃) g := by
      intro q₁ hq₁ q₃ g q₄ heq
      cases q₃ with
      | nil => cases heq; exact hhead
      | cons e' q₃ => cases heq; exact hq₁ q₃ g q₄ rfl
    have hrest : (s.step b e).1.pc.willSet f = true →
        (s.step b e).1.pc.left ≤ q.countP CpuEvent.isMain →
        ∃ q₁ q₂, e :: q = q₁ ++ q₂ ∧
          isSet (final (Cpu.step b) s q₁).dev.epBusyFlag f.mask = true ∧
          ∀ q₃ g q₄, q₁ = q₃ ++ g :: q₄ → ¬ FoundClear f (final (Cpu.step b) s q₃) g := by
      intro hw hl
      obtain ⟨q₁, q₂, rfl, hset, hno⟩ := ih hw hl
      exact ⟨e :: q₁, q₂, rfl, hset, hcons q₁ hno⟩
    cases e with
    | irq e hp =>
      rw [List.countP_cons_of_neg (by simp [CpuEvent.isMain])] at hleft
      exact hrest h hleft
    | main =>
      rcases willSet_main b s.dev h with hset | ⟨hw, hlt⟩
      · exact ⟨[.main], q, rfl, hset, hcons [] (by simp)⟩
      · rw [List.countP_cons_of_pos rfl] at hleft
        exact hrest hw (Nat.le_of_lt_succ (Nat.lt_of_lt_of_le hlt hleft))

/-- EXACT: with the interfaces staying open, the clears of the callbacks of a run are kept, in it
    and in what the main loop makes of it afterwards, if and only if every callback comes when the
    main loop is not about to set its bit. -/
theorem clears_kept_iff (b : Build) (s : Cpu) (es : List CpuEvent) (hs : ∀ e ∈ es, e.Stays) :
    (∀ n, ClearsKept b s (es ++ List.replicate n .main)) ↔
      Along (Cpu.step b) (Undisturbed b) s es := by
  constructor
  · intro h
    rw [along_iff_forall_split]
    rintro p e q rfl f hf
    by_contra hw
    rw [Bool.not_eq_false] at hw
    obtain ⟨-, hpc⟩ := irq_clears (s := final (Cpu.step b) s p) hf
    have hstart : (final (Cpu.step b) s (p ++ [e])).pc.willSet f = true := by
      rw [final_concat, hpc]
      exact hw
    obtain ⟨q₁, q₂, hq, hset, hno⟩ := exists_set_of_willSet
      (q ++ List.replicate (final (Cpu.step b) s (p ++ [e])).pc.left .main) hstart
      (by simp [List.countP_replicate, CpuEvent.isMain])
    have happ : ∀ q₁, p ++ e :: q₁ = p ++ [e] ++ q₁ := fun q₁ => by simp
    have hclear := h _ p e q₁ q₂ f (by rw [List.append_assoc, List.cons_append, hq]; simp) hf ?_
    · rw [happ, final_append, hset] at hclear
      cases hclear
    · intro q₃ g q₄ heq
      rw [happ, final_append]
      exact hno q₃ g q₄ heq
  · intro h n
    refine clearsKept_of_undisturbed ?_ ?_
    · intro e he
      rcases List.mem_append.mp he with he | he
      · exact hs e he
      · rw [List.eq_of_mem_replicate he]
        trivial
    · rw [along_append]
      refine ⟨h, (along_iff_forall_split _ _).mpr ?_⟩
      intro p e q heq f hf
      have he : e ∈ List.replicate n CpuEvent.main := by rw [heq]; simp
      rw [List.eq_of_mem_replicate he] at hf
      cases hf

theorem clears_kept_iff_between :
    let s : Cpu := ⟨final (step .fs) (initial .fs) [.openIntf 1, .openIntf 2, .writePass], .top⟩
    let es : List CpuEvent := [.irq (.outCallback []) rfl, .main, .main, .irq .inCallback rfl]
    ClearsKept .fs s (es ++ List.replicate 3 .main) := by
  intro s es
  refine (clears_kept_iff .fs s es ?_).mpr ?_ 3
  · simp [es, CpuEvent.Stays]
  · refine ⟨?_, nofun, nofun, ?_, trivial⟩
    · rintro f ⟨⟩
      rfl
    · rintro f ⟨⟩
      decide

/-- Both interfaces are open, a packet has been built and one received. `read_samples` drains it and
    loads the busy byte with the microphone's bit set; the `in_callback` that clears the bit comes
    before the store, which sets it again. -/
theorem mic_clear_lost :
    let s : Cpu := ⟨final (step .fs) (initial .fs)
      [.openIntf 1, .openIntf 2, .writePass, .outCallback []], .top⟩
    let es : List CpuEvent :=
      [.main, .main, .main, .main, .main, .main, .main, .main, .irq .inCallback rfl, .main]
    ¬ ClearsKept .fs s es := by
  intro s es h
  have hclear := h [.main, .main, .main, .main, .main, .main, .main, .main]
    (.irq .inCallback rfl) [.main] [] .tx rfl rfl ?_
  · exact absurd hclear (by decide)
  · intro q₁ g q₂ hq
    rintro ⟨-, hpc, -⟩
    obtain rfl : q₁ = [] := by
      cases q₁ with
      | nil => rfl
      | cons a q₁ => simp at hq
    exact absurd hpc (by decide)

end AudioCard
