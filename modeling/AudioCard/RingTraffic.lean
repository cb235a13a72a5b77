import AudioCard.Cuts
import AudioCard.Atomicity

/-! The ring under preemption, byte by byte.

    `ring_buf_write` and `ring_buf_read` change the counters before their loops move the first byte,
    and keep the index they have come to in a local variable. `Cpu.settled` is the ring as it would
    be if the loop stopped where it is. A pass of a loop is then one byte put or taken, every other
    step leaves the settled ring alone, and no callback touches it: so the ring is a queue of bytes
    in every interleaving, also in the middle of a loop. -/

namespace AudioCard
open Segment Run

/-- The ring, less the bytes a write has announced and not yet stored, and with those that a read
    has announced and not yet taken. -/
def Cpu.settled (s : Cpu) : RingBuf :=
  match s.pc with
  | .rsCopy _ end_ _ n =>
    { s.dev.outRb with
      end_ := end_
      count := s.dev.outRb.count - UInt32.ofNat n
      remain := s.dev.outRb.remain + UInt32.ofNat n }
  | .wsCopy _ _ _ start _ n =>
    { s.dev.outRb with
      start := start
      count := s.dev.outRb.count + UInt32.ofNat n
      remain := s.dev.outRb.remain - UInt32.ofNat n }
  | _ => s.dev.outRb

/-- The byte that a step stores into the ring, out of the half of `read_buffer`. -/
def Cpu.stored (s : Cpu) : CpuEvent → List UInt8
  | .main =>
    match s.pc with
    | .rsCopy _ _ src (_ + 1) => [s.dev.mem s.dev.readBf.buffer src]
    | _ => []
  | .irq _ _ => []

/-- The byte that a step takes off the ring, into the half of `write_buffer`. -/
def Cpu.taken (s : Cpu) : CpuEvent → List UInt8
  | .main =>
    match s.pc with
    | .wsCopy _ _ _ start _ (_ + 1) => [s.dev.outRb.buff start.toNat]
    | _ => []
  | .irq _ _ => []

/-! ### One byte -/

/-- A byte put into a ring that has room for it. -/
theorem holds_putByte {rb : RingBuf} {q : List UInt8} (h : rb.Holds q)
    (hroom : q.length < rb.size.toNat) (c : UInt8) : (putByte rb c).1.Holds (q ++ [c]) := by
  have hw := holds_write h (fun _ => c) 0 1
  rw [(ringBufWrite_eq_run rb _ 0 1).1] at hw
  rw [show min (1 : UInt32).toNat (rb.size.toNat - q.length) = 1 by
    rw [UInt32.toNat_one]; omega] at hw
  exact hw

/-- The oldest byte taken off a ring. -/
theorem holds_takeByte {rb : RingBuf} {c : UInt8} {q : List UInt8} (h : rb.Holds (c :: q)) :
    (takeByte rb ()).1.Holds q ∧ (takeByte rb ()).2 = [c] := by
  have hr := holds_read h (fun _ => 0) 0 1
  rw [(ringBufRead_eq_run rb _ 0 1).1] at hr
  have hne : ringBufEmpty rb = false := not_empty_of_pos (by rw [h.count]; exact Nat.succ_pos _)
  have hbyte := congrArg List.head? h.bytes
  simp only [List.length_cons, CircularIndex.window_succ, List.head?_cons, Option.some.injEq]
    at hbyte
  refine ⟨?_, ?_⟩
  · rw [show min (1 : UInt32).toNat (c :: q).length = 1 by
      rw [UInt32.toNat_one, List.length_cons]; omega] at hr
    exact hr
  · rw [takeByte, if_neg (by simp [hne]), hbyte]

/-! ### One step -/

/-- The bytes that a write has announced fit behind the queue `q`, those that a read has announced
    are in it. -/
def Pc.CanMove (q : List UInt8) : Pc → Prop
  | .rsCopy _ _ _ n => q.length + n ≤ outRbSize.toNat
  | .wsCopy _ _ _ _ _ n => n ≤ q.length
  | _ => True

/-- The settled ring holds the bytes `q`, and what a loop has announced can be done. -/
structure Cpu.Carries (s : Cpu) (q : List UInt8) : Prop where
  size : s.dev.outRb.size = outRbSize
  holds : s.settled.Holds q
  announced : s.pc.CanMove q

theorem carries_start (b : Build) : (Cpu.start b).Carries [] where
  size := rfl
  holds := (queued_initial b).holds
  announced := trivial

/-- A pass of the loop of `ring_buf_write` puts one byte. -/
theorem settled_rsCopy {b : Build} {d : Device} {data src n : ℕ} {end_ : UInt32}
    (h : ringBufFull (Cpu.settled ⟨d, .rsCopy data end_ src (n + 1)⟩) = false) :
    (Cpu.step b ⟨d, .rsCopy data end_ src (n + 1)⟩ .main).1.settled =
      (putByte (Cpu.settled ⟨d, .rsCopy data end_ src (n + 1)⟩)
        (d.mem d.readBf.buffer src)).1 := by
  rw [putByte, if_neg (by simp [h])]
  simp only [Cpu.settled, Cpu.step, mainStep, writeBody, add_ofNat_succ, sub_ofNat_succ]
  congr 1 <;> grind

/-- A pass of the loop of `ring_buf_read` takes one byte. -/
theorem settled_wsCopy {b : Build} {d : Device} {data dst n : ℕ} {needLen ret start : UInt32}
    (h : ringBufEmpty (Cpu.settled ⟨d, .wsCopy data needLen ret start dst (n + 1)⟩) = false) :
    (Cpu.step b ⟨d, .wsCopy data needLen ret start dst (n + 1)⟩ .main).1.settled =
      (takeByte (Cpu.settled ⟨d, .wsCopy data needLen ret start dst (n + 1)⟩) ()).1 := by
  rw [takeByte, if_neg (by simp [h])]
  simp only [Cpu.settled, Cpu.step, mainStep, readBody, add_ofNat_succ, sub_ofNat_succ]
  congr 1 <;> grind

/-- In one of the two loops. -/
def Pc.copying : Pc → Bool
  | .rsCopy _ _ _ _ | .wsCopy _ _ _ _ _ _ => true
  | _ => false

/-- In `ring_buf_write` or in `ring_buf_read`. -/
def Pc.onRing : Pc → Bool
  | .rsHead _ _ | .wsHead _ _ => true
  | pc => pc.copying

theorem settled_size (s : Cpu) : s.settled.size = s.dev.outRb.size := by
  obtain ⟨d, pc⟩ := s
  cases pc <;> rfl

theorem settled_of_not_copying {s : Cpu} (h : s.pc.copying = false) : s.settled = s.dev.outRb := by
  obtain ⟨d, pc⟩ := s
  cases pc <;> first | rfl | cases h

theorem canMove_of_not_copying {pc : Pc} {q : List UInt8} (h : pc.copying = false) :
    pc.CanMove q := by
  cases pc <;> trivial

/-- Outside the two functions the ring is left alone. -/
theorem idle_main {b : Build} {d : Device} {pc : Pc} (h : pc.onRing = false) :
    (mainStep b d pc).1.outRb = d.outRb ∧ (mainStep b d pc).2.copying = false := by
  cases pc with
  | top => exact ⟨rfl, by simp only [mainStep]; split <;> rfl⟩
  | opened f => exact ⟨rfl, by simp only [mainStep]; split <;> cases f <;> rfl⟩
  | test f => exact ⟨rfl, by simp only [mainStep]; split <;> cases f <;> rfl⟩
  | wsPad data needLen => exact ⟨rfl, by simp only [mainStep]; split <;> rfl⟩
  | wsZero data needLen dst n => cases n <;> exact ⟨rfl, rfl⟩
  | store f v => exact ⟨rfl, by cases f <;> rfl⟩
  | rsHead | rsCopy | wsHead | wsCopy => cases h
  | _ => exact ⟨rfl, rfl⟩

/-- STEP: a step of the main loop puts the byte it stores behind the queue, or takes the one in
    front. -/
theorem carries_main {b : Build} {s : Cpu} {q : List UInt8} (h : s.Carries q) :
    ∃ q', q ++ s.stored .main = s.taken .main ++ q' ∧ (s.step b .main).1.Carries q' := by
  obtain ⟨d, pc⟩ := s
  obtain ⟨hsize, hholds, hmove⟩ := h
  dsimp only at hsize hmove
  -- a step that moves no byte and leaves the settled ring alone
  have hidle : ∀ d' pc', mainStep b d pc = (d', pc') → Cpu.stored ⟨d, pc⟩ .main = [] →
      Cpu.taken ⟨d, pc⟩ .main = [] → d'.outRb.size = outRbSize →
      Cpu.settled ⟨d', pc'⟩ = Cpu.settled ⟨d, pc⟩ → pc'.CanMove q →
      ∃ q', q ++ Cpu.stored ⟨d, pc⟩ .main = Cpu.taken ⟨d, pc⟩ .main ++ q' ∧
        (Cpu.step b ⟨d, pc⟩ .main).1.Carries q' := by
    intro d' pc' hstep hstored htaken hsize' hsettled hmove'
    refine ⟨q, by rw [hstored, htaken, List.append_nil, List.nil_append], ?_⟩
    rw [Cpu.step, hstep]
    exact ⟨hsize', hsettled ▸ hholds, hmove'⟩
  rcases Bool.eq_false_or_eq_true pc.onRing with hon | hoff
  swap
  · obtain ⟨hrb, hout⟩ := idle_main (b := b) (d := d) hoff
    have hcopying : pc.copying = false := by cases pc <;> first | rfl | cases hoff
    refine hidle (mainStep b d pc).1 (mainStep b d pc).2 rfl ?_ ?_ ?_ ?_
      (canMove_of_not_copying hout)
    · cases pc <;> first | rfl | cases hoff
    · cases pc <;> first | rfl | cases hoff
    · rw [hrb]
      exact hsize
    · rw [settled_of_not_copying hout, settled_of_not_copying hcopying]
      exact hrb
  cases pc with
  | rsCopy data end_ src n =>
    cases n with
    | zero => exact hidle _ _ rfl rfl rfl hsize (by simp [Cpu.settled]) trivial
    | succ n =>
      have hroom : q.length < (Cpu.settled ⟨d, .rsCopy data end_ src (n + 1)⟩).size.toNat := by
        change q.length < d.outRb.size.toNat
        rw [hsize]
        exact Nat.lt_of_lt_of_le (by omega) hmove
      have hrem := hholds.remain
      refine ⟨q ++ [d.mem d.readBf.buffer src], rfl, hsize, ?_, ?_⟩
      · rw [settled_rsCopy (not_full_of_pos (by omega))]
        exact holds_putByte hholds hroom _
      · simp only [Pc.CanMove] at hmove
        simp only [Cpu.step, mainStep, Pc.CanMove, List.length_append, List.length_singleton]
        omega
  | wsCopy data needLen ret start dst n =>
    cases n with
    | zero => exact hidle _ _ rfl rfl rfl hsize (by simp [Cpu.settled]) trivial
    | succ n =>
      cases q with
      | nil => exact absurd hmove (Nat.not_succ_le_zero n)
      | cons c q =>
        obtain ⟨htake, hbyte⟩ := holds_takeByte hholds
        have hne := @not_empty_of_pos (Cpu.settled ⟨d, .wsCopy data needLen ret start dst (n + 1)⟩)
          (by rw [hholds.count]; exact Nat.succ_pos _)
        rw [takeByte, if_neg (by simp [hne])] at hbyte
        refine ⟨q, ?_, hsize, ?_, Nat.le_of_succ_le_succ hmove⟩
        · simp only [Cpu.stored, Cpu.taken, List.append_nil]
          exact congrArg (· ++ q) hbyte.symm
        · rw [settled_wsCopy hne]
          exact htake
  | rsHead data len =>
    have hrem := hholds.remain
    change d.outRb.remain.toNat + q.length = d.outRb.size.toNat at hrem
    by_cases hfull : ringBufFull d.outRb = true
    · exact hidle d _ (if_pos hfull) rfl rfl hsize rfl trivial
    · refine hidle _ _ (if_neg hfull) rfl rfl hsize (by simp [Cpu.settled]) ?_
      rw [Pc.CanMove, toNat_writeLen, ← hsize]
      omega
  | wsHead data needLen =>
    have hcount := hholds.count
    change d.outRb.count.toNat = q.length at hcount
    by_cases hempty : ringBufEmpty d.outRb = true
    · exact hidle d _ (if_pos hempty) rfl rfl hsize rfl trivial
    · refine hidle _ _ (if_neg hempty) rfl rfl hsize (by simp [Cpu.settled]) ?_
      rw [Pc.CanMove, toNat_readLen]
      omega
  | _ => cases hon

/-- STEP: no callback touches the ring, wherever the main loop is in it. -/
theorem carries_step {b : Build} {s : Cpu} {q : List UInt8} (h : s.Carries q) (e : CpuEvent) :
    ∃ q', q ++ s.stored e = s.taken e ++ q' ∧ (s.step b e).1.Carries q' := by
  cases e with
  | main => exact carries_main h
  | irq e he =>
    have hrb := outRb_irq (b := b) he s.dev
    refine ⟨q, by simp [Cpu.stored, Cpu.taken], ?_, ?_, h.announced⟩
    · rw [Cpu.step, hrb]
      exact h.size
    · have hsettled : (s.step b (.irq e he)).1.settled = s.settled := by
        simp only [Cpu.step, Cpu.settled, hrb]
      rw [hsettled]
      exact h.holds

/-- CORRECT: in every interleaving of the callbacks with the steps of the main loop in which packets
    fit, received ones and those to send, no byte is stored past the end of `write_buffer`, and the
    bytes stored into the ring are those taken off it, in order, followed by at most 2048 more,
    which are exactly those the ring holds. -/
theorem ring_fifo_preempted (b : Build) (es : List CpuEvent)
    (h : Along (Cpu.step b) (SizesFit b) (Cpu.start b) es) :
    Along (Cpu.step b) (Cpu.InArrays b) (Cpu.start b) es ∧
    ∃ q : List UInt8,
      collect (Cpu.step b) Cpu.stored (Cpu.start b) es =
        collect (Cpu.step b) Cpu.taken (Cpu.start b) es ++ q ∧
      q.length ≤ 2048 ∧ (final (Cpu.step b) (Cpu.start b) es).settled.Holds q ∧
      ((final (Cpu.step b) (Cpu.start b) es).pc.copying = false →
        (final (Cpu.step b) (Cpu.start b) es).dev.outRb.Holds q) := by
  refine ⟨inArrays_run h, ?_⟩
  obtain ⟨q, heq, hsize, hholds, -⟩ := collect_conserved (C := Cpu.Carries) h (carries_start b)
    fun _ e _ hq _ => carries_step hq e
  refine ⟨q, heq, ?_, hholds, fun hout => ?_⟩
  · have hle := hholds.length_le
    rw [settled_size, hsize] at hle
    exact hle
  · rw [← settled_of_not_copying hout]
    exact hholds

/-- Both streams are open; a packet of two bytes is received, copied into the ring, and the first
    byte of it is copied on, to the packet to send. -/
theorem ring_fifo_preempted_both :
    let es : List CpuEvent := [.irq (.openIntf 1) rfl, .irq (.openIntf 2) rfl,
      .irq (.outCallback [7, 8]) rfl] ++ List.replicate 17 .main
    Along (Cpu.step .fs) (Cpu.InArrays .fs) (Cpu.start .fs) es ∧
    ∃ q : List UInt8,
      collect (Cpu.step .fs) Cpu.stored (Cpu.start .fs) es =
        collect (Cpu.step .fs) Cpu.taken (Cpu.start .fs) es ++ q ∧
      q.length ≤ 2048 ∧ (final (Cpu.step .fs) (Cpu.start .fs) es).settled.Holds q ∧
      ((final (Cpu.step .fs) (Cpu.start .fs) es).pc.copying = false →
        (final (Cpu.step .fs) (Cpu.start .fs) es).dev.outRb.Holds q) := by
  intro es
  exact ring_fifo_preempted .fs es (by decide)

end AudioCard
