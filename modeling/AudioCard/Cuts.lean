import Mathlib.Algebra.Ring.Nat
import AudioCard.RingBuf
import AudioCard.Lib.Run

/-! The ring does not care how the bytes are cut into calls.

    `putByte` and `takeByte` move one byte, with its share of the counters. A call of
    `ring_buf_write` or `ring_buf_read` is a run of them, whatever is in the ring: the counters are
    changed before the loop, but by as much as the single bytes change them; a call that meets a
    full or an empty ring is a run that is refused to its end. So a list of calls is a batch run,
    which depends on the bytes only. -/

namespace AudioCard
open Segment Run

/-! ### Writing -/

/-- One byte queued, or refused. -/
def putByte (rb : RingBuf) (c : UInt8) : RingBuf × ℕ :=
  if ringBufFull rb then (rb, 1)
  else
    ({ rb with
        buff := Function.update rb.buff rb.end_.toNat c
        end_ := if rb.end_ + 1 ≥ rb.size then 0 else rb.end_ + 1
        count := rb.count + 1
        remain := rb.remain - 1 }, 0)

theorem not_full_of_pos {rb : RingBuf} (h : 0 < rb.remain.toNat) : ringBufFull rb = false := by
  rw [ringBufFull, beq_eq_false_iff_ne]
  rintro heq
  rw [heq] at h
  exact absurd h (by decide)

theorem toNat_sub_one {x : UInt32} (h : 0 < x.toNat) : (x - 1).toNat = x.toNat - 1 :=
  UInt32.toNat_sub_of_le _ _ (UInt32.le_iff_toNat_le.mpr h)

theorem add_ofNat_succ (x : UInt32) (n : ℕ) :
    x + UInt32.ofNat (n + 1) = x + 1 + UInt32.ofNat n := by
  rw [UInt32.ofNat_add, UInt32.add_assoc, UInt32.add_comm 1]
  rfl

theorem sub_ofNat_succ (x : UInt32) (n : ℕ) :
    x - UInt32.ofNat (n + 1) = x - 1 - UInt32.ofNat n := by
  rw [UInt32.sub_eq_iff_eq_add, UInt32.ofNat_add, ← UInt32.add_assoc, UInt32.sub_add_cancel]
  exact (UInt32.sub_add_cancel x 1).symm

/-- As long as there is room, the single bytes are the passes of the loop. -/
theorem putByte_room (src : Bytes) (n : ℕ) (rb : RingBuf) (off : ℕ) (h : n ≤ rb.remain.toNat) :
    let l := (writeBody src rb.size)^[n] ⟨rb.buff, rb.end_, off⟩
    final putByte rb (slice src off n) =
        { rb with
          buff := l.buff
          end_ := l.end_
          count := rb.count + UInt32.ofNat n
          remain := rb.remain - UInt32.ofNat n } ∧
      (outputs putByte rb (slice src off n)).sum = 0 := by
  induction n generalizing rb off with
  | zero => simp
  | succ n ih =>
    have hpos : 0 < rb.remain.toNat := Nat.lt_of_lt_of_le (Nat.succ_pos n) h
    have hput : putByte rb (src off) = ({ rb with
        buff := (writeBody src rb.size ⟨rb.buff, rb.end_, off⟩).buff
        end_ := (writeBody src rb.size ⟨rb.buff, rb.end_, off⟩).end_
        count := rb.count + 1
        remain := rb.remain - 1 }, 0) := if_neg (by simp [not_full_of_pos hpos])
    have hremain : n ≤ (rb.remain - 1).toNat := by
      rw [toNat_sub_one hpos]
      exact Nat.le_sub_one_of_lt h
    obtain ⟨hfinal, hsum⟩ := ih (putByte rb (src off)).1 (off + 1) (by rw [hput]; exact hremain)
    rw [hput] at hfinal hsum
    rw [slice_succ, final_cons, outputs_cons, hput, hfinal, add_ofNat_succ, sub_ofNat_succ,
      Function.iterate_succ_apply]
    exact ⟨rfl, by rw [List.sum_cons, hsum]⟩

/-- A full ring refuses every byte. -/
theorem putByte_full {rb : RingBuf} (h : ringBufFull rb = true) (l : List UInt8) :
    final putByte rb l = rb ∧ (outputs putByte rb l).sum = l.length := by
  have hput : ∀ c, putByte rb c = (rb, 1) := fun c => if_pos h
  induction l with
  | nil => exact ⟨rfl, rfl⟩
  | cons c l ih =>
    rw [final_cons, outputs_cons, hput, List.sum_cons, ih.2, List.length_cons, Nat.add_comm]
    exact ⟨ih.1, rfl⟩

/-- `ring_buf_write` queues byte after byte, and returns how many were refused. -/
theorem ringBufWrite_eq_run (rb : RingBuf) (src : Bytes) (off : ℕ) (len : UInt32) :
    (ringBufWrite rb src off len).1 = final putByte rb (slice src off len.toNat) ∧
      (ringBufWrite rb src off len).2.toNat =
        (outputs putByte rb (slice src off len.toNat)).sum := by
  rcases Bool.eq_false_or_eq_true (ringBufFull rb) with hfull | hroom
  · obtain ⟨hfinal, hsum⟩ := putByte_full hfull (slice src off len.toNat)
    rw [ringBufWrite, if_pos hfull, hfinal, hsum, length_slice]
    exact ⟨rfl, rfl⟩
  · have hwrite : ringBufWrite rb src off len = _ := if_neg (by simp [hroom])
    rw [hwrite, writeLen]
    rcases Nat.lt_or_ge rb.remain.toNat len.toNat with hlt | hge
    · -- the bytes that fit, then the others
      obtain ⟨k, hk⟩ := Nat.exists_eq_add_of_le (Nat.le_of_lt hlt)
      obtain ⟨hfinal, hsum⟩ := putByte_room src rb.remain.toNat rb off (Nat.le_refl _)
      simp only [UInt32.ofNat_toNat, UInt32.sub_self] at hfinal
      have hrest := @putByte_full { rb with
        buff := (writeLoop rb src off rb.remain.toNat).buff
        end_ := (writeLoop rb src off rb.remain.toNat).end_
        count := rb.count + rb.remain
        remain := 0 } rfl (slice src (off + rb.remain.toNat) k)
      have hle : rb.remain < len := UInt32.lt_iff_toNat_lt.mpr hlt
      simp only [if_pos hle]
      rw [UInt32.toNat_sub_of_le _ _ (UInt32.le_of_lt hle), UInt32.sub_self]
      rw [hk, slice_append, final_append, outputs_append, List.sum_append, hsum, hfinal]
      refine ⟨hrest.1.symm, ?_⟩
      rw [Nat.add_sub_cancel_left, Nat.zero_add]
      exact (hrest.2.trans (length_slice _ _ _)).symm
    · have hnlt : ¬ rb.remain < len := by
        rw [UInt32.lt_iff_toNat_lt]
        exact Nat.not_lt.mpr hge
      obtain ⟨hfinal, hsum⟩ := putByte_room src len.toNat rb off hge
      rw [UInt32.ofNat_toNat] at hfinal
      simp only [if_neg hnlt]
      exact ⟨hfinal.symm, hsum.symm⟩

/-! ### Reading -/

/-- One byte taken off the ring, if there is one. -/
def takeByte (rb : RingBuf) (_ : Unit) : RingBuf × List UInt8 :=
  if ringBufEmpty rb then (rb, [])
  else
    ({ rb with
        start := if rb.start + 1 ≥ rb.size then 0 else rb.start + 1
        count := rb.count - 1
        remain := rb.remain + 1 }, [rb.buff rb.start.toNat])

theorem not_empty_of_pos {rb : RingBuf} (h : 0 < rb.count.toNat) : ringBufEmpty rb = false := by
  rw [ringBufEmpty, beq_eq_false_iff_ne]
  rintro heq
  rw [heq] at h
  exact absurd h (by decide)

/-- As long as there are bytes, taking them one by one is the loop: it stores them in order. -/
theorem takeByte_some (n : ℕ) (rb : RingBuf) (mem : Bytes) (dst : ℕ) (h : n ≤ rb.count.toNat) :
    let l := (readBody rb.buff rb.size)^[n] ⟨mem, dst, rb.start⟩
    let bytes := (outputs takeByte rb (List.replicate n ())).flatten
    final takeByte rb (List.replicate n ()) =
        { rb with
          start := l.start
          count := rb.count - UInt32.ofNat n
          remain := rb.remain + UInt32.ofNat n } ∧
      l.mem = overlay mem dst bytes ∧ bytes.length = n := by
  induction n generalizing rb mem dst with
  | zero => simp [overlay]
  | succ n ih =>
    have hpos : 0 < rb.count.toNat := Nat.lt_of_lt_of_le (Nat.succ_pos n) h
    have htake : takeByte rb () = ({ rb with
        start := (readBody rb.buff rb.size ⟨mem, dst, rb.start⟩).start
        count := rb.count - 1
        remain := rb.remain + 1 }, [rb.buff rb.start.toNat]) :=
      if_neg (by simp [not_empty_of_pos hpos])
    have hcount : n ≤ (rb.count - 1).toNat := by
      rw [toNat_sub_one hpos]
      exact Nat.le_sub_one_of_lt h
    obtain ⟨hfinal, hmem, hlen⟩ := ih (takeByte rb ()).1
      (Function.update mem dst (rb.buff rb.start.toNat)) (dst + 1) (by rw [htake]; exact hcount)
    rw [htake] at hfinal hmem hlen
    rw [List.replicate_succ, final_cons, outputs_cons, htake, hfinal, add_ofNat_succ,
      sub_ofNat_succ, Function.iterate_succ_apply, List.flatten_cons]
    exact ⟨rfl, hmem, by rw [List.length_append, hlen, List.length_singleton, Nat.add_comm]⟩

/-- An empty ring has no byte to give. -/
theorem takeByte_empty {rb : RingBuf} (h : ringBufEmpty rb = true) (n : ℕ) :
    final takeByte rb (List.replicate n ()) = rb ∧
      (outputs takeByte rb (List.replicate n ())).flatten = [] := by
  have htake : takeByte rb () = (rb, []) := if_pos h
  induction n with
  | zero => exact ⟨rfl, rfl⟩
  | succ n ih =>
    rw [List.replicate_succ, final_cons, outputs_cons, htake, List.flatten_cons, ih.2]
    exact ⟨ih.1, rfl⟩

/-- `ring_buf_read` takes byte after byte, stores them in order, and returns how many there were. -/
theorem ringBufRead_eq_run (rb : RingBuf) (mem : Bytes) (off : ℕ) (len : UInt32) :
    let bytes := (outputs takeByte rb (List.replicate len.toNat ())).flatten
    (ringBufRead rb mem off len).1 = final takeByte rb (List.replicate len.toNat ()) ∧
      (ringBufRead rb mem off len).2.1 = overlay mem off bytes ∧
      (ringBufRead rb mem off len).2.2.toNat = bytes.length := by
  rcases Bool.eq_false_or_eq_true (ringBufEmpty rb) with hempty | hsome
  · obtain ⟨hfinal, hbytes⟩ := takeByte_empty hempty len.toNat
    rw [ringBufRead, if_pos hempty, hfinal, hbytes]
    exact ⟨rfl, rfl, rfl⟩
  · have hread : ringBufRead rb mem off len = _ := if_neg (by simp [hsome])
    rw [hread, readLen]
    rcases Nat.lt_or_ge rb.count.toNat len.toNat with hlt | hge
    · -- the bytes that are there, then none
      obtain ⟨k, hk⟩ := Nat.exists_eq_add_of_le (Nat.le_of_lt hlt)
      obtain ⟨hfinal, hmem, hlen⟩ := takeByte_some rb.count.toNat rb mem off (Nat.le_refl _)
      simp only [UInt32.ofNat_toNat, UInt32.sub_self] at hfinal
      have hrest := @takeByte_empty { rb with
        start := (readLoop rb mem off rb.count.toNat).start
        count := 0
        remain := rb.remain + rb.count } rfl k
      have hgt : len > rb.count := UInt32.lt_iff_toNat_lt.mpr hlt
      simp only [if_pos hgt]
      rw [UInt32.sub_self, hk, List.replicate_add, final_append, outputs_append,
        List.flatten_append, hfinal]
      have hnil : ∀ {l m : List UInt8}, m = [] → l = l ++ m := by
        rintro l m rfl
        exact (List.append_nil l).symm
      refine ⟨hrest.1.symm, hmem.trans (congrArg (overlay mem off) (hnil hrest.2)), ?_⟩
      exact hlen.symm.trans (congrArg List.length (hnil hrest.2))
    · have hngt : ¬ len > rb.count := by
        rw [gt_iff_lt, UInt32.lt_iff_toNat_lt]
        exact Nat.not_lt.mpr hge
      obtain ⟨hfinal, hmem, hlen⟩ := takeByte_some len.toNat rb mem off hge
      rw [UInt32.ofNat_toNat] at hfinal
      simp only [if_neg hngt]
      exact ⟨hfinal.symm, hmem, hlen.symm⟩

/-! ### Calls -/

/-- A call of `ring_buf_write`, with `src` at offset `off` of an array. -/
structure WriteCall where
  src : Bytes
  off : ℕ
  len : UInt32

/-- The bytes that the call offers to the ring. -/
def WriteCall.bytes (c : WriteCall) : List UInt8 := slice c.src c.off c.len.toNat

/-- The ring after the call, and what it returns. -/
def writeCall (rb : RingBuf) (c : WriteCall) : RingBuf × ℕ :=
  let r := ringBufWrite rb c.src c.off c.len
  (r.1, r.2.toNat)

/-- A call of `ring_buf_read`, with `dst` at offset `off` of the array `mem`. -/
structure ReadCall where
  mem : Bytes
  off : ℕ
  len : UInt32

/-- What a call of `ring_buf_read` returns, and the bytes that it has put behind `dst`. -/
structure Got where
  ret : ℕ
  bytes : List UInt8

/-- The ring after the call, and what it gave. -/
def readCall (rb : RingBuf) (c : ReadCall) : RingBuf × Got :=
  let r := ringBufRead rb c.mem c.off c.len
  (r.1, ⟨r.2.2.toNat, slice r.2.1 c.off r.2.2.toNat⟩)

theorem writeCall_eq (rb : RingBuf) (c : WriteCall) : writeCall rb c =
    (final putByte rb c.bytes, (outputs putByte rb c.bytes).sum) := by
  obtain ⟨hring, hret⟩ := ringBufWrite_eq_run rb c.src c.off c.len
  exact Prod.ext hring hret

/-- The bytes that the call asks for, one by one. -/
def ReadCall.asked (c : ReadCall) : List Unit := List.replicate c.len.toNat ()

/-- The answer of a call, from the answers byte by byte. -/
def Got.join (outs : List (List UInt8)) : Got := ⟨outs.flatten.length, outs.flatten⟩

theorem readCall_eq (rb : RingBuf) (c : ReadCall) : readCall rb c =
    (final takeByte rb c.asked, Got.join (outputs takeByte rb c.asked)) := by
  obtain ⟨hring, hmem, hret⟩ := ringBufRead_eq_run rb c.mem c.off c.len
  rw [readCall, hring, hmem, hret, slice_overlay]
  rfl

/-- Only the number of bytes asked for matters. -/
theorem flatMap_asked {calls calls' : List ReadCall}
    (h : (calls.map fun c => c.len.toNat).sum = (calls'.map fun c => c.len.toNat).sum) :
    calls.flatMap ReadCall.asked = calls'.flatMap ReadCall.asked := by
  have hlen : ∀ calls : List ReadCall, calls.flatMap ReadCall.asked =
      List.replicate (calls.map fun c => c.len.toNat).sum () := by
    intro calls
    induction calls with
    | nil => rfl
    | cons c calls ih =>
      rw [List.flatMap_cons, ih, List.map_cons, List.sum_cons, List.replicate_add]
      rfl
  rw [hlen, hlen, h]

/-- The bytes and the returned numbers of a list of calls. -/
theorem got_join (outs : List (List (List UInt8))) :
    (outs.map Got.join).flatMap Got.bytes = outs.flatten.flatten ∧
      ((outs.map Got.join).map Got.ret).sum = outs.flatten.flatten.length := by
  induction outs with
  | nil => exact ⟨rfl, rfl⟩
  | cons out outs ih =>
    obtain ⟨hbytes, hrets⟩ := ih
    rw [List.map_cons, List.flatMap_cons, List.map_cons, List.sum_cons, hbytes, hrets,
      List.flatten_cons, List.flatten_append, List.length_append]
    exact ⟨rfl, rfl⟩

/-- CORRECT: on any ring, two lists of writes that offer the same bytes leave the same ring and
    refuse the same number of them, however the bytes are cut; and two lists of reads that ask for
    the same number of bytes get the same bytes and leave the same ring. -/
theorem ring_ignores_cuts (rb : RingBuf) :
    (∀ calls calls' : List WriteCall,
      calls.flatMap WriteCall.bytes = calls'.flatMap WriteCall.bytes →
      final writeCall rb calls = final writeCall rb calls' ∧
        (outputs writeCall rb calls).sum = (outputs writeCall rb calls').sum) ∧
    (∀ calls calls' : List ReadCall,
      (calls.map fun c => c.len.toNat).sum = (calls'.map fun c => c.len.toNat).sum →
      final readCall rb calls = final readCall rb calls' ∧
        (outputs readCall rb calls).flatMap Got.bytes =
          (outputs readCall rb calls').flatMap Got.bytes ∧
        ((outputs readCall rb calls).map Got.ret).sum =
          ((outputs readCall rb calls').map Got.ret).sum) := by
  constructor
  · intro calls calls' h
    obtain ⟨hfinal, outs, houts, hflat⟩ := run_of_batches writeCall_eq rb calls
    obtain ⟨hfinal', outs', houts', hflat'⟩ := run_of_batches writeCall_eq rb calls'
    rw [hfinal, hfinal', houts, houts', ← List.sum_flatten, ← List.sum_flatten, hflat, hflat', h]
    exact ⟨rfl, rfl⟩
  · intro calls calls' h
    obtain ⟨hfinal, outs, houts, hflat⟩ := run_of_batches readCall_eq rb calls
    obtain ⟨hfinal', outs', houts', hflat'⟩ := run_of_batches readCall_eq rb calls'
    obtain ⟨hbytes, hrets⟩ := got_join outs
    obtain ⟨hbytes', hrets'⟩ := got_join outs'
    rw [hfinal, hfinal', houts, houts', hbytes, hbytes', hrets, hrets', hflat, hflat',
      flatMap_asked h]
    exact ⟨rfl, rfl, rfl⟩

/-- Four bytes into a ring of three, cut in two ways; then three bytes off it, cut in two ways. -/
theorem ring_ignores_cuts_full :
    let src : Bytes := fun i => i.toUInt8
    let rb := ringBufInit ⟨src, 0, 0, 0, 0, 0⟩ src 3
    let full := final writeCall rb [⟨src, 0, 4⟩]
    (final writeCall rb [⟨src, 0, 2⟩, ⟨src, 2, 0⟩, ⟨src, 2, 2⟩] = full ∧
      (outputs writeCall rb [⟨src, 0, 2⟩, ⟨src, 2, 0⟩, ⟨src, 2, 2⟩]).sum =
        (outputs writeCall rb [⟨src, 0, 4⟩]).sum) ∧
    final readCall full [⟨src, 0, 1⟩, ⟨src, 5, 2⟩] = final readCall full [⟨src, 0, 3⟩] := by
  intro src rb full
  exact ⟨(ring_ignores_cuts rb).1 [⟨src, 0, 2⟩, ⟨src, 2, 0⟩, ⟨src, 2, 2⟩] [⟨src, 0, 4⟩] (by decide),
    ((ring_ignores_cuts full).2 [⟨src, 0, 1⟩, ⟨src, 5, 2⟩] [⟨src, 0, 3⟩] (by decide)).1⟩

end AudioCard
