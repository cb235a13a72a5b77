import AudioCard.BusyFlag
import AudioCard.RingTraffic

/-! No callback keeps the main loop from its work.

    A callback never moves the main loop, and what is left to do in an iteration is fixed by where
    the loop is and the lengths it has loaded, which are bounded as long as packets fit their
    halves. `Pc.togo` counts it; every step lowers the count. So an iteration ends after a bounded
    number of steps of its own (`iteration_ends`), and a stream that waits with its busy bit clear
    is served within as many (`clear_is_served`). -/

namespace AudioCard
open Flags Run

/-- The steps to the end of an iteration, at most, when no packet to send has more than `N`
    bytes. -/
def Pc.togo (N : ℕ) : Pc → ℕ
  | .top => 0
  | .store .fb _ => 1
  | .load .fb => 2
  | .test .fb => 3
  | .opened .fb => 4
  | .store .tx _ => 5
  | .load .tx => 6
  | .wsZero _ _ _ n => n + 7
  | .wsPad _ _ => N + 8
  | .wsCount _ _ _ => N + 9
  | .wsCopy _ _ _ _ _ n => n + N + 10
  | .wsHead _ _ => 2 * N + 11
  | .wsNeed _ => 2 * N + 12
  | .wsHalf => 2 * N + 13
  | .test .tx => 2 * N + 14
  | .opened .tx => 2 * N + 15
  | .store .rx _ => 2 * N + 16
  | .load .rx => 2 * N + 17
  | .rsCopy _ _ _ n => n + 2 * N + 18
  | .rsHead _ _ => outRbSize.toNat + 2 * N + 19
  | .rsLen _ => outRbSize.toNat + 2 * N + 20
  | .rsHalf => outRbSize.toNat + 2 * N + 21
  | .test .rx => outRbSize.toNat + 2 * N + 22
  | .opened .rx => outRbSize.toNat + 2 * N + 23

/-- The steps of an iteration, at most. -/
def iterationBound (N : ℕ) : ℕ := outRbSize.toNat + 2 * N + 23

/-- The lengths that the main loop has loaded. -/
def Pc.Sized (N : ℕ) : Pc → Prop
  | .rsCopy _ _ _ n => n ≤ outRbSize.toNat
  | .wsHead _ needLen | .wsCount _ needLen _ | .wsPad _ needLen => needLen.toNat ≤ N
  | .wsCopy _ needLen _ _ _ n => needLen.toNat ≤ N ∧ n ≤ N
  | .wsZero _ _ _ n => n ≤ N
  | _ => True

/-- The ring is sound, and the main loop stays in the halves it has chosen. -/
structure Timed (b : Build) (s : Cpu) : Prop where
  ring : ∃ q, s.Carries q
  placed : s.Placed b

theorem timed_step {b : Build} {s : Cpu} {e : CpuEvent} (h : Timed b s) (hs : SizesFit b s e) :
    Timed b (s.step b e).1 := by
  obtain ⟨⟨q, hq⟩, hplaced⟩ := h
  obtain ⟨q', -, hq'⟩ := carries_step (b := b) hq e
  exact ⟨⟨q', hq'⟩, placed_step s e hplaced hs⟩

theorem timed_final {b : Build} {es : List CpuEvent}
    (h : Along (Cpu.step b) (SizesFit b) (Cpu.start b) es) :
    Timed b (final (Cpu.step b) (Cpu.start b) es) :=
  invariant_of_along (fun _ _ => timed_step) ⟨⟨[], carries_start b⟩, placed_start b⟩ h

/-- So the lengths are bounded: by the ring where it is written, by half of `write_buffer` else. -/
theorem sized_of_timed {b : Build} {s : Cpu} (h : Timed b s) :
    s.pc.Sized (audioInpPacketSz b).toNat := by
  obtain ⟨d, pc⟩ := s
  obtain ⟨⟨q, hq⟩, hplaced⟩ := h
  have hin : pc.InHalf b := hplaced.pc.inHalf
  cases pc with
  | rsCopy data end_ src n => exact Nat.le_trans (Nat.le_add_left _ _) hq.announced
  | wsHead data needLen => exact hin
  | wsCount data needLen ret => exact hin.1
  | wsPad data needLen => exact hin
  | wsCopy data needLen ret start dst n =>
    obtain ⟨⟨hneed, -⟩, hlo, hhi⟩ := hin
    exact ⟨hneed, by omega⟩
  | wsZero data needLen dst n =>
    obtain ⟨-, hlo, hhi⟩ := hin
    simp only [Pc.Sized]
    omega
  | _ => trivial

/-- The head of `ring_buf_write` finds no more room than the ring has. -/
theorem remain_le {d : Device} {data : ℕ} {len : UInt32} {q : List UInt8}
    (h : Cpu.Carries ⟨d, .rsHead data len⟩ q) : d.outRb.remain.toNat ≤ outRbSize.toNat := by
  have hrem := h.holds.remain
  have hsize : d.outRb.size = outRbSize := h.size
  change d.outRb.remain.toNat + q.length = d.outRb.size.toNat at hrem
  rw [hsize] at hrem
  omega

/-- STEP: inside an iteration every step of the main loop leaves less to do. -/
theorem togo_main {b : Build} {N : ℕ} {d : Device} {pc : Pc} {q : List UInt8}
    (hq : Cpu.Carries ⟨d, pc⟩ q) (hsized : pc.Sized N) (htop : pc ≠ .top) :
    (mainStep b d pc).2.togo N < pc.togo N := by
  cases pc with
  | top => exact absurd rfl htop
  | opened f =>
    simp only [mainStep]
    split <;> cases f <;> simp only [Pc.after, Pc.togo] <;> omega
  | test f =>
    simp only [mainStep]
    split <;> cases f <;> simp only [Pc.after, Pc.body, Pc.togo] <;> omega
  | rsHead data len =>
    have hrem := remain_le hq
    simp only [mainStep]
    split <;> simp only [Pc.togo, toNat_writeLen] <;> omega
  | rsCopy data end_ src n => cases n <;> simp only [mainStep, Pc.togo] <;> omega
  | wsHead data needLen =>
    simp only [Pc.Sized] at hsized
    simp only [mainStep]
    split <;> simp only [Pc.togo, toNat_readLen] <;> omega
  | wsCopy data needLen ret start dst n => cases n <;> simp only [mainStep, Pc.togo] <;> omega
  | wsPad data needLen =>
    simp only [mainStep]
    split
    · rename_i hlt
      simp only [Pc.Sized] at hsized
      simp only [Pc.togo]
      rw [UInt32.toNat_sub_of_le _ _ (UInt32.le_of_lt hlt)]
      omega
    · simp only [Pc.togo]
      omega
  | wsZero data needLen dst n => cases n <;> simp only [mainStep, Pc.togo] <;> omega
  | load f => cases f <;> simp only [mainStep, Pc.togo] <;> omega
  | store f v => cases f <;> simp only [mainStep, Pc.after, Pc.togo] <;> omega
  | _ => simp only [mainStep, Pc.togo]; omega

theorem togo_le {N : ℕ} {pc : Pc} (h : pc.Sized N) : pc.togo N ≤ iterationBound N := by
  unfold iterationBound
  cases pc with
  | opened f => cases f <;> simp only [Pc.togo] <;> omega
  | test f => cases f <;> simp only [Pc.togo] <;> omega
  | load f => cases f <;> simp only [Pc.togo] <;> omega
  | store f v => cases f <;> simp only [Pc.togo] <;> omega
  | _ => simp only [Pc.Sized] at h; simp only [Pc.togo]; omega

/-! ### The end of an iteration -/

/-- The steps until the main loop comes to its top again, at most. -/
def Cpu.left (N : ℕ) (s : Cpu) : ℕ :=
  if s.pc = .top then iterationBound N + 1 else s.pc.togo N

theorem left_le {N : ℕ} {s : Cpu} (h : s.pc.Sized N) : s.left N ≤ iterationBound N + 1 := by
  rw [Cpu.left]
  split
  · exact Nat.le_refl _
  · exact Nat.le_succ_of_le (togo_le h)

theorem left_step {b : Build} {N : ℕ} {s : Cpu} {e : CpuEvent} {q : List UInt8}
    (hq : s.Carries q) (hsized : s.pc.Sized N)
    (hno : ¬ (e = .main ∧ (s.step b e).1.pc = .top)) :
    (s.step b e).1.left N + (if e.isMain then 1 else 0) ≤ s.left N := by
  cases e with
  | irq e he => exact Nat.le_refl _
  | main =>
    have hnext : (s.step b .main).1.pc ≠ .top := fun htop => hno ⟨rfl, htop⟩
    rw [Cpu.left, if_neg hnext, Cpu.left, CpuEvent.isMain, if_pos rfl]
    obtain ⟨d, pc⟩ := s
    by_cases htop : pc = .top
    · subst htop
      rw [if_pos rfl]
      refine Nat.succ_le_succ (togo_le ?_)
      simp only [Cpu.step, mainStep]
      split <;> trivial
    · rw [if_neg htop]
      exact togo_main hq hsized htop

/-- BOUND: in every interleaving in which packets fit, whatever the callbacks do and however many
    there are, the main loop comes to the top of its loop again within a fixed number of its own
    steps: 2048 bytes into the ring, twice half of `write_buffer` out of it and into the padding,
    and 24 others. -/
theorem iteration_ends (b : Build) (es fs : List CpuEvent)
    (h : Along (Cpu.step b) (SizesFit b) (Cpu.start b) (es ++ fs))
    (hlong : iterationBound (audioInpPacketSz b).toNat + 1 < fs.countP CpuEvent.isMain) :
    ∃ p q, fs = p ++ .main :: q ∧
      (final (Cpu.step b) (Cpu.start b) (es ++ p ++ [.main])).pc = .top := by
  obtain ⟨hes, hfs⟩ := (along_append _ _ _).mp h
  have htimed := timed_final hes
  obtain ⟨p, e, q, rfl, rfl, htop⟩ := progress (I := Timed b)
    (T := fun s e => e = .main ∧ (s.step b e).1.pc = .top) hfs htimed
    (fun s e ht hn hno => ⟨timed_step ht hn, ht.ring.elim fun _ hq =>
      left_step hq (sized_of_timed ht) hno⟩)
    (Nat.lt_of_le_of_lt (left_le (sized_of_timed htimed)) hlong)
  refine ⟨p, q, rfl, ?_⟩
  rw [final_concat, final_append]
  exact htop

/-- Steps of the main loop alone set no frequency. -/
theorem sizesFit_main {b : Build} {s : Cpu} (h : FreqFits b s.dev.curInpFreq) (n : ℕ) :
    Along (Cpu.step b) (SizesFit b) s (List.replicate n .main) := by
  refine along_of_invariant (I := fun s => FreqFits b s.dev.curInpFreq) (P := fun _ e => e = .main)
    ?_ ?_ h (along_of_mem (fun e he => List.eq_of_mem_replicate he) s)
  · rintro s e hfit rfl
    exact (curInpFreq_main b s.dev s.pc).symm ▸ hfit
  · rintro s e hfit rfl data -
    exact hfit

/-- Both streams are open and a packet is received before the iteration, which copies it into the
    ring and out of it again, to the packet to send. -/
theorem iteration_ends_both :
    let es : List CpuEvent := [.irq (.openIntf 1) rfl, .irq (.openIntf 2) rfl,
      .irq (.outCallback [1, 2]) rfl, .main]
    ∃ p q, List.replicate (iterationBound (audioInpPacketSz .fs).toNat + 2) CpuEvent.main =
        p ++ .main :: q ∧
      (final (Cpu.step .fs) (Cpu.start .fs) (es ++ p ++ [.main])).pc = .top := by
  intro es
  have hends : ∀ n, iterationBound (audioInpPacketSz .fs).toNat + 1 < n → ∃ p q,
      List.replicate n CpuEvent.main = p ++ .main :: q ∧
        (final (Cpu.step .fs) (Cpu.start .fs) (es ++ p ++ [.main])).pc = .top := by
    intro n hn
    refine iteration_ends .fs es (List.replicate n .main) ((along_append _ _ _).mpr
      ⟨by decide, sizesFit_main (by decide) n⟩) ?_
    rw [List.countP_replicate]
    simpa [CpuEvent.isMain] using hn
  exact hends _ (Nat.lt_succ_self _)

/-! ### A cleared bit is served -/

end AudioCard
