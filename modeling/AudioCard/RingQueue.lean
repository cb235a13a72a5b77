import AudioCard.RingBuf
import AudioCard.Lib.Run

/-! The ring buffer is a bounded queue of bytes.

    `Holds rb q` ties the four counters and the array of a ring to the list `q` of the bytes queued
    in it. Every operation of `ring_buf.c` keeps it, with `q` changed as a bounded FIFO queue
    changes (`fifoStep`), so any sequence of calls answers as the queue does. -/

namespace AudioCard
open Segment CircularIndex

/-- The ring holds the bytes `q`, oldest first. The four counters are redundant; each is tied to
    `q` here. With `size = 0` there is no slot, and the ring is full and empty at once. -/
structure RingBuf.Holds (rb : RingBuf) (q : List UInt8) : Prop where
  count : rb.count.toNat = q.length
  remain : rb.remain.toNat + q.length = rb.size.toNat
  start : rb.start < rb.size ∨ rb.size = 0
  end_ : rb.end_.toNat = slot rb.size.toNat rb.start.toNat q.length
  bytes : window rb.buff rb.size.toNat rb.start.toNat q.length = q

theorem RingBuf.Holds.length_le {rb : RingBuf} {q : List UInt8} (h : rb.Holds q) :
    q.length ≤ rb.size.toNat := by
  have := h.remain
  omega

theorem holds_reset (rb : RingBuf) : (ringBufReset rb).Holds [] where
  count := rfl
  remain := rfl
  start := by
    by_cases hs : rb.size = 0
    · exact Or.inr hs
    · exact Or.inl (UInt32.pos_iff_ne_zero.mpr hs)
  end_ := rfl
  bytes := rfl

theorem holds_init (rb : RingBuf) (staticbuff : Bytes) (len : UInt32) :
    (ringBufInit rb staticbuff len).Holds [] := holds_reset _

/-! ### The index arithmetic -/

/-- `i++; if (i >= size) i = 0;` is the next slot of the cycle, and the increment does not wrap. -/
theorem toNat_wrap {size i : UInt32} (h : i.toNat < size.toNat) :
    (if i + 1 ≥ size then 0 else i + 1 : UInt32).toNat = next size.toNat i.toNat := by
  have hsize := size.toNat_lt
  have hi : (i + 1).toNat = i.toNat + 1 := by
    rw [UInt32.toNat_add, UInt32.toNat_one, Nat.mod_eq_of_lt (by omega)]
  rw [next]
  by_cases hc : size.toNat ≤ i.toNat + 1
  · rw [if_pos (UInt32.le_iff_toNat_le.mpr (by omega)), if_pos hc]; rfl
  · rw [if_neg (by rw [ge_iff_le, UInt32.le_iff_toNat_le]; omega), if_neg hc, hi]

/-! ### Writing -/

/-- `n` passes of the write loop, from a window of `c` bytes that they do not overfill. -/
theorem writeBody_iterate (src : Bytes) {size : UInt32} {start : ℕ} (hs : start < size.toNat) :
    ∀ (n : ℕ) {c : ℕ} (l : WriteLoop), l.end_.toNat = slot size.toNat start c →
      c + n ≤ size.toNat →
      ((writeBody src size)^[n] l).end_.toNat = slot size.toNat start (c + n) ∧
      ((writeBody src size)^[n] l).src = l.src + n ∧
      window ((writeBody src size)^[n] l).buff size.toNat start (c + n) =
        window l.buff size.toNat start c ++ slice src l.src n := by
  intro n
  induction n with
  | zero => intro c l hl _; exact ⟨hl, rfl, by simp⟩
  | succ n ih =>
    intro c l hl hn
    have hlt : l.end_.toNat < size.toNat := by rw [hl]; exact slot_lt hs (by omega)
    have hend : (writeBody src size l).end_.toNat = slot size.toNat start (c + 1) := by
      rw [slot_succ', ← hl]; exact toNat_wrap hlt
    have hpush : window (writeBody src size l).buff size.toNat start (c + 1) =
        window l.buff size.toNat start c ++ [src l.src] := by
      simp only [writeBody, hl]
      exact window_push l.buff hs (by omega) (src l.src)
    obtain ⟨h₁, h₂, h₃⟩ := ih (writeBody src size l) hend (by omega)
    rw [Function.iterate_succ_apply]
    refine ⟨by rw [h₁, Nat.add_assoc, Nat.add_comm 1], by rw [h₂]; simp only [writeBody]; omega, ?_⟩
    rw [show c + (n + 1) = c + 1 + n by omega, h₃, hpush, slice_succ, List.append_assoc]
    rfl

theorem toNat_writeLen (rb : RingBuf) (len : UInt32) :
    (writeLen rb len).toNat = min len.toNat rb.remain.toNat := by
  unfold writeLen
  split_ifs with h
  · rw [UInt32.lt_iff_toNat_lt] at h; omega
  · rw [UInt32.lt_iff_toNat_lt] at h; omega

/-- The number of bytes a write appends to a queue `q`. -/
theorem RingBuf.Holds.writeLen_eq {rb : RingBuf} {q : List UInt8} (h : rb.Holds q) (len : UInt32) :
    (writeLen rb len).toNat = min len.toNat (rb.size.toNat - q.length) := by
  have := h.remain
  rw [toNat_writeLen]
  omega

theorem ringBufFull_iff (rb : RingBuf) : ringBufFull rb = true ↔ rb.remain.toNat = 0 := by
  rw [ringBufFull, beq_iff_eq, ← UInt32.toNat_inj, UInt32.toNat_zero]

theorem ringBufEmpty_iff (rb : RingBuf) : ringBufEmpty rb = true ↔ rb.count.toNat = 0 := by
  rw [ringBufEmpty, beq_iff_eq, ← UInt32.toNat_inj, UInt32.toNat_zero]

theorem ringBufHasspace_iff {rb : RingBuf} {q : List UInt8} (h : rb.Holds q) (n : UInt32) :
    ringBufHasspace rb n = true ↔ n.toNat ≤ rb.size.toNat - q.length := by
  have hrem := h.remain
  rw [ringBufHasspace, decide_eq_true_iff, ge_iff_le, UInt32.le_iff_toNat_le]
  omega

/-- A write appends what fits. -/
theorem holds_write {rb : RingBuf} {q : List UInt8} (h : rb.Holds q) (src : Bytes) (off : ℕ)
    (len : UInt32) : (ringBufWrite rb src off len).1.Holds
      (q ++ slice src off (min len.toNat (rb.size.toNat - q.length))) := by
  have hrem := h.remain
  rw [← h.writeLen_eq, ringBufWrite]
  by_cases hfull : ringBufFull rb = true
  · rw [if_pos hfull]
    rw [ringBufFull_iff] at hfull
    have hzero : (writeLen rb len).toNat = 0 := by rw [h.writeLen_eq]; omega
    rw [hzero, slice_zero, List.append_nil]
    exact h
  · rw [if_neg hfull]
    rw [ringBufFull_iff] at hfull
    have hlen := toNat_writeLen rb len
    have hsize := rb.size.toNat_lt
    have hstart : rb.start.toNat < rb.size.toNat := by
      rcases h.start with hs | hs
      · exact UInt32.lt_iff_toNat_lt.mp hs
      · rw [hs, UInt32.toNat_zero] at hrem; omega
    obtain ⟨hend, -, hbytes⟩ := writeBody_iterate src hstart (writeLen rb len).toNat
      ⟨rb.buff, rb.end_, off⟩ h.end_ (by omega)
    constructor
    · simp only [List.length_append, length_slice]
      rw [UInt32.toNat_add, h.count, Nat.mod_eq_of_lt (by omega)]
    · simp only [List.length_append, length_slice]
      rw [UInt32.toNat_sub_of_le _ _ (UInt32.le_iff_toNat_le.mpr (by omega))]
      omega
    · exact h.start
    · simp only [List.length_append, length_slice]
      exact hend
    · simp only [List.length_append, length_slice]
      rw [writeLoop, hbytes, h.bytes]

/-- What a write returns is what did not fit. -/
theorem toNat_ret_write {rb : RingBuf} {q : List UInt8} (h : rb.Holds q) (src : Bytes) (off : ℕ)
    (len : UInt32) : (ringBufWrite rb src off len).2.toNat =
      len.toNat - min len.toNat (rb.size.toNat - q.length) := by
  have hrem := h.remain
  rw [ringBufWrite]
  split_ifs with hfull hlt
  · rw [ringBufFull_iff] at hfull
    simp only
    omega
  · rw [UInt32.lt_iff_toNat_lt] at hlt
    rw [UInt32.toNat_sub_of_le _ _ (UInt32.le_iff_toNat_le.mpr (by omega))]
    omega
  · rw [UInt32.lt_iff_toNat_lt] at hlt
    rw [UInt32.toNat_zero]
    omega

@[simp] theorem size_write (rb : RingBuf) (src : Bytes) (off : ℕ) (len : UInt32) :
    (ringBufWrite rb src off len).1.size = rb.size := by
  rw [ringBufWrite]
  split <;> rfl

/-! ### Reading -/

/-- `n` passes of the read loop copy the window of `n` bytes from `start` on to `dst`. -/
theorem readBody_iterate (buff : Bytes) {size : UInt32} :
    ∀ (n : ℕ) (l : ReadLoop), l.start.toNat < size.toNat →
      ((readBody buff size)^[n] l).start.toNat = slot size.toNat l.start.toNat n ∧
      ((readBody buff size)^[n] l).dst = l.dst + n ∧
      ((readBody buff size)^[n] l).mem =
        overlay l.mem l.dst (window buff size.toNat l.start.toNat n) := by
  intro n
  induction n with
  | zero => intro l _; exact ⟨rfl, rfl, rfl⟩
  | succ n ih =>
    intro l hl
    have hstart : (readBody buff size l).start.toNat = next size.toNat l.start.toNat :=
      toNat_wrap hl
    obtain ⟨h₁, h₂, h₃⟩ := ih (readBody buff size l) (by rw [hstart]; exact next_lt hl)
    rw [Function.iterate_succ_apply]
    refine ⟨by rw [h₁, hstart, slot_succ], by rw [h₂]; simp only [readBody]; omega, ?_⟩
    rw [h₃, hstart, window_succ, overlay]
    rfl

theorem toNat_readLen (rb : RingBuf) (len : UInt32) :
    (readLen rb len).toNat = min len.toNat rb.count.toNat := by
  unfold readLen
  split_ifs with h
  · rw [gt_iff_lt, UInt32.lt_iff_toNat_lt] at h; omega
  · rw [gt_iff_lt, UInt32.lt_iff_toNat_lt] at h; omega

/-- A nonempty ring has a slot, and its start is one. -/
theorem RingBuf.Holds.start_lt {rb : RingBuf} {q : List UInt8} (h : rb.Holds q)
    (hq : rb.count.toNat ≠ 0) : rb.start.toNat < rb.size.toNat := by
  have hrem := h.remain
  have hcount := h.count
  rcases h.start with hs | hs
  · exact UInt32.lt_iff_toNat_lt.mp hs
  · rw [hs, UInt32.toNat_zero] at hrem; omega

/-- A read removes the oldest bytes, as many as there are. -/
theorem holds_read {rb : RingBuf} {q : List UInt8} (h : rb.Holds q) (mem : Bytes) (off : ℕ)
    (len : UInt32) :
    (ringBufRead rb mem off len).1.Holds (q.drop (min len.toNat q.length)) := by
  have hrem := h.remain
  have hcount := h.count
  have hlen := toNat_readLen rb len
  rw [ringBufRead]
  split_ifs with hempty
  · rw [ringBufEmpty_iff] at hempty
    rw [show min len.toNat q.length = 0 by omega, List.drop_zero]
    exact h
  · rw [ringBufEmpty_iff] at hempty
    have hsize := rb.size.toNat_lt
    have hstart := h.start_lt hempty
    obtain ⟨hs, -, -⟩ := readBody_iterate rb.buff (readLen rb len).toNat
      ⟨mem, off, rb.start⟩ hstart
    rw [← hcount, ← hlen]
    constructor
    · simp only [List.length_drop]
      rw [UInt32.toNat_sub_of_le _ _ (UInt32.le_iff_toNat_le.mpr (by omega)), hcount]
    · simp only [List.length_drop]
      rw [UInt32.toNat_add, Nat.mod_eq_of_lt (by omega)]
      omega
    · refine Or.inl (UInt32.lt_iff_toNat_lt.mpr ?_)
      simp only [readLoop, hs]
      exact slot_lt hstart (by omega)
    · simp only [List.length_drop, readLoop, hs]
      rw [← slot_add, h.end_]
      congr 1
      omega
    · simp only [List.length_drop, readLoop, hs]
      rw [window_drop _ _ _ (by omega), h.bytes]

/-- The array behind `dst` after a read: the oldest bytes stored in order, the rest untouched. -/
theorem mem_read {rb : RingBuf} {q : List UInt8} (h : rb.Holds q) (mem : Bytes) (off : ℕ)
    (len : UInt32) : (ringBufRead rb mem off len).2.1 =
      overlay mem off (q.take (min len.toNat q.length)) := by
  have hcount := h.count
  have hlen := toNat_readLen rb len
  rw [ringBufRead]
  split_ifs with hempty
  · rw [ringBufEmpty_iff] at hempty
    rw [show min len.toNat q.length = 0 by omega, List.take_zero]
    rfl
  · rw [ringBufEmpty_iff] at hempty
    obtain ⟨-, -, hmem⟩ := readBody_iterate rb.buff (readLen rb len).toNat
      ⟨mem, off, rb.start⟩ (h.start_lt hempty)
    simp only [readLoop, hmem]
    rw [← hcount, ← hlen]
    congr 1
    rw [← window_take rb.buff rb.size.toNat rb.start.toNat (n := q.length) (by omega), h.bytes]

theorem toNat_ret_read {rb : RingBuf} {q : List UInt8} (h : rb.Holds q) (mem : Bytes) (off : ℕ)
    (len : UInt32) : (ringBufRead rb mem off len).2.2.toNat = min len.toNat q.length := by
  have hcount := h.count
  rw [ringBufRead]
  split_ifs with hempty
  · rw [ringBufEmpty_iff] at hempty
    rw [UInt32.toNat_zero]
    omega
  · rw [toNat_readLen, hcount]

@[simp] theorem size_read (rb : RingBuf) (mem : Bytes) (off : ℕ) (len : UInt32) :
    (ringBufRead rb mem off len).1.size = rb.size := by
  rw [ringBufRead]
  split <;> rfl

/-! ### Runs of calls -/

/-- One call on an initialised ring: `src` and `dst` are offsets in the arrays `src` and `mem`. -/
inductive RingOp
  | reset
  | write (src : Bytes) (off : ℕ) (len : UInt32)
  | read (mem : Bytes) (off : ℕ) (len : UInt32)

/-- What the caller sees: the bytes refused by a write; the number of bytes of a read and the array
    behind its `dst`. -/
inductive RingReply
  | done
  | refused (n : ℕ)
  | got (n : ℕ) (mem : Bytes)

/-- The calls on the ring of `ring_buf.c`. -/
def ringStep (rb : RingBuf) : RingOp → RingBuf × RingReply
  | .reset => (ringBufReset rb, .done)
  | .write src off len =>
    ((ringBufWrite rb src off len).1, .refused (ringBufWrite rb src off len).2.toNat)
  | .read mem off len =>
    let r := ringBufRead rb mem off len
    (r.1, .got r.2.2.toNat r.2.1)

/-- The same calls on a FIFO queue of at most `size` bytes. -/
def fifoStep (size : ℕ) (q : List UInt8) : RingOp → List UInt8 × RingReply
  | .reset => ([], .done)
  | .write src off len =>
    let n := min len.toNat (size - q.length)
    (q ++ slice src off n, .refused (len.toNat - n))
  | .read mem off len =>
    let n := min len.toNat q.length
    (q.drop n, .got n (overlay mem off (q.take n)))

/-- No counter update of the call wraps, and every index its loop uses into the array is below
    `size`. -/
def RingOp.Safe (rb : RingBuf) : RingOp → Prop
  | .reset => True
  | .write src off len =>
    rb.count.toNat + (writeLen rb len).toNat < UInt32.size ∧
    (writeLen rb len).toNat ≤ rb.remain.toNat ∧
    ∀ k < (writeLen rb len).toNat,
      (writeLoop rb src off k).end_ < rb.size ∧
        (writeLoop rb src off k).end_.toNat + 1 < UInt32.size
  | .read mem off len =>
    (readLen rb len).toNat ≤ rb.count.toNat ∧
    rb.remain.toNat + (readLen rb len).toNat < UInt32.size ∧
    ∀ k < (readLen rb len).toNat,
      (readLoop rb mem off k).start < rb.size ∧
        (readLoop rb mem off k).start.toNat + 1 < UInt32.size

/-- The relation of the simulation: the ring has `size` slots and holds the queue. -/
def RingSim (size : ℕ) (rb : RingBuf) (q : List UInt8) : Prop := rb.size.toNat = size ∧ rb.Holds q

/-- One call: the ring moves as the queue does and answers the same. -/
theorem ringStep_sim {size : ℕ} {rb : RingBuf} {q : List UInt8} (h : RingSim size rb q)
    (op : RingOp) :
    RingSim size (ringStep rb op).1 (fifoStep size q op).1 ∧
      (ringStep rb op).2 = (fifoStep size q op).2 := by
  obtain ⟨rfl, hq⟩ := h
  cases op with
  | reset => exact ⟨⟨rfl, holds_reset rb⟩, rfl⟩
  | write src off len =>
    refine ⟨⟨?_, holds_write hq src off len⟩, ?_⟩
    · simp only [ringStep, size_write]
    · simp only [ringStep, fifoStep, toNat_ret_write hq]
  | read mem off len =>
    refine ⟨⟨?_, holds_read hq mem off len⟩, ?_⟩
    · simp only [ringStep, size_read]
    · simp only [ringStep, fifoStep, toNat_ret_read hq, mem_read hq]

/-- An index below `size` is below `2 ^ 32 - 1`, so stepping it does not wrap. -/
theorem index_safe {size i : UInt32} (h : i.toNat < size.toNat) :
    i < size ∧ i.toNat + 1 < UInt32.size := by
  have := size.toNat_lt_size
  exact ⟨UInt32.lt_iff_toNat_lt.mpr h, by omega⟩

theorem safe_of_holds {rb : RingBuf} {q : List UInt8} (h : rb.Holds q) (op : RingOp) :
    op.Safe rb := by
  have hrem := h.remain
  have hcount := h.count
  have hsize := rb.size.toNat_lt_size
  cases op with
  | reset => trivial
  | write src off len =>
    have hlen := toNat_writeLen rb len
    refine ⟨by omega, by omega, ?_⟩
    intro k hk
    have hstart : rb.start.toNat < rb.size.toNat := by
      rcases h.start with hs | hs
      · exact UInt32.lt_iff_toNat_lt.mp hs
      · rw [hs, UInt32.toNat_zero] at hrem; omega
    obtain ⟨hend, -, -⟩ := writeBody_iterate src hstart k ⟨rb.buff, rb.end_, off⟩ h.end_ (by omega)
    apply index_safe
    rw [writeLoop, hend]
    exact slot_lt hstart (by omega)
  | read mem off len =>
    have hlen := toNat_readLen rb len
    refine ⟨by omega, by omega, ?_⟩
    intro k hk
    have hstart := h.start_lt (by omega)
    obtain ⟨hs, -, -⟩ := readBody_iterate rb.buff k ⟨mem, off, rb.start⟩ hstart
    apply index_safe
    rw [readLoop, hs]
    exact slot_lt hstart (by omega)

/-- The three queries read the queue's length. -/
theorem queries_of_holds {rb : RingBuf} {q : List UInt8} (h : rb.Holds q) :
    (ringBufFull rb = true ↔ q.length = rb.size.toNat) ∧
    (ringBufEmpty rb = true ↔ q.length = 0) ∧
    ∀ n src off, ringBufHasspace rb n = true ↔ (ringBufWrite rb src off n).2 = 0 := by
  have hrem := h.remain
  have hcount := h.count
  refine ⟨?_, ?_, ?_⟩
  · rw [ringBufFull_iff]; omega
  · rw [ringBufEmpty_iff]; omega
  · intro n src off
    rw [ringBufHasspace_iff h, ← UInt32.toNat_inj, toNat_ret_write h, UInt32.toNat_zero]
    omega

/-- CORRECT: from `ring_buf_init` on, any sequence of calls answers as the bounded FIFO queue does;
    the queue after it is the ring's contents, which the three queries describe, and no call on the
    way indexes outside the array or wraps a counter. -/
theorem ring_buf_refines_fifo (rb : RingBuf) (staticbuff : Bytes) (len : UInt32)
    (ops : List RingOp) :
    let init := ringBufInit rb staticbuff len
    let last := Run.final ringStep init ops
    let q := Run.final (fifoStep len.toNat) [] ops
    Run.outputs ringStep init ops = Run.outputs (fifoStep len.toNat) [] ops ∧
    last.Holds q ∧ q.length ≤ len.toNat ∧
    (ringBufFull last = true ↔ q.length = len.toNat) ∧
    (ringBufEmpty last = true ↔ q.length = 0) ∧
    (∀ n src off, ringBufHasspace last n = true ↔ (ringBufWrite last src off n).2 = 0) ∧
    Run.Along ringStep (fun rb op => op.Safe rb) init ops := by
  intro init last q
  have hinit : RingSim len.toNat init [] := ⟨rfl, holds_init rb staticbuff len⟩
  obtain ⟨⟨hsize, hq⟩, hout⟩ := Run.simulation (R := RingSim len.toNat)
    (P := fun _ _ => True) (f := id) (g := id)
    (fun rb q op h _ => ringStep_sim h op) hinit (Run.along_true (fun _ _ => trivial) init ops)
  rw [List.map_id] at hq
  rw [List.map_id, List.map_id] at hout
  obtain ⟨hfull, hempty, hspace⟩ := queries_of_holds hq
  rw [hsize] at hfull
  refine ⟨hout, hq, ?_, hfull, hempty, hspace, ?_⟩
  · rw [← hsize]; exact hq.length_le
  · exact Run.along_of_invariant (P := fun _ _ => True) (I := fun rb => ∃ q, rb.Holds q)
      (fun rb op ⟨q, h⟩ _ => ⟨_, (ringStep_sim ⟨rfl, h⟩ op).1.2⟩)
      (fun rb op ⟨q, h⟩ _ => safe_of_holds h op) ⟨[], hinit.2⟩
      (Run.along_true (fun _ _ => trivial) init ops)

end AudioCard
