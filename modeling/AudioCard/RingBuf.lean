import AudioCard.Lib.CircularIndex
import AudioCard.Lib.Segment

/-! `ring_buf.c` and `ring_buf.h`: the byte ring and the double buffer.

    A pointer argument `p` of the source is a pair here: the contents of the array it points into
    and the offset in it. A byte loop is its body, iterated as often as the loop runs; the local
    variables the body changes are the fields of a structure. All counters are `uint32_t`, and
    their arithmetic wraps as in C. -/

namespace AudioCard
open Segment

/-- The contents of a `uint8_t` array, by offset. -/
abbrev Bytes := ℕ → UInt8

/-- `ring_buf`. The array behind the pointer `buff` is part of the structure. -/
structure RingBuf where
  buff : Bytes
  size : UInt32
  start : UInt32
  end_ : UInt32
  count : UInt32
  remain : UInt32

def ringBufReset (rb : RingBuf) : RingBuf :=
  { rb with start := 0, end_ := 0, count := 0, remain := rb.size }

def ringBufInit (rb : RingBuf) (staticbuff : Bytes) (len : UInt32) : RingBuf :=
  ringBufReset { rb with buff := staticbuff, size := len }

def ringBufFull (rb : RingBuf) : Bool := rb.remain == 0

def ringBufEmpty (rb : RingBuf) : Bool := rb.count == 0

def ringBufHasspace (rb : RingBuf) (size : UInt32) : Bool := decide (rb.remain ≥ size)

/-! ### ring_buf_write -/

/-- What the copy loop of `ring_buf_write` changes: the array, the local `end`, the pointer `src`.
    -/
structure WriteLoop where
  buff : Bytes
  end_ : UInt32
  src : ℕ

/-- One pass of the loop: `buff[end++] = *(src++); if (end >= size) end = 0;`. -/
def writeBody (src : Bytes) (size : UInt32) (l : WriteLoop) : WriteLoop :=
  { buff := Function.update l.buff l.end_.toNat (src l.src)
    end_ := if l.end_ + 1 ≥ size then 0 else l.end_ + 1
    src := l.src + 1 }

/-- The loop variables after `n` passes. -/
def writeLoop (rb : RingBuf) (src : Bytes) (off n : ℕ) : WriteLoop :=
  (writeBody src rb.size)^[n] ⟨rb.buff, rb.end_, off⟩

/-- `len` after the truncation to the free space. -/
def writeLen (rb : RingBuf) (len : UInt32) : UInt32 := if rb.remain < len then rb.remain else len

/-- `ring_buf_write`, called with `src` at offset `off` of an array: the ring and the number of
    bytes that were not queued. -/
def ringBufWrite (rb : RingBuf) (src : Bytes) (off : ℕ) (len : UInt32) : RingBuf × UInt32 :=
  if ringBufFull rb then (rb, len)
  else
    let ret := if rb.remain < len then len - rb.remain else 0
    let len := writeLen rb len
    let l := writeLoop rb src off len.toNat
    ({ rb with
        buff := l.buff
        end_ := l.end_
        count := rb.count + len
        remain := rb.remain - len }, ret)

/-! ### ring_buf_read -/

/-- What the copy loop of `ring_buf_read` changes: the array `dst` points into, the offset of `dst`
    in it, the local `start`. -/
structure ReadLoop where
  mem : Bytes
  dst : ℕ
  start : UInt32

/-- One pass of the loop: `*(dst++) = buff[start++]; if (start >= size) start = 0;`. -/
def readBody (buff : Bytes) (size : UInt32) (l : ReadLoop) : ReadLoop :=
  { mem := Function.update l.mem l.dst (buff l.start.toNat)
    dst := l.dst + 1
    start := if l.start + 1 ≥ size then 0 else l.start + 1 }

/-- The loop variables after `n` passes. -/
def readLoop (rb : RingBuf) (mem : Bytes) (off n : ℕ) : ReadLoop :=
  (readBody rb.buff rb.size)^[n] ⟨mem, off, rb.start⟩

/-- `len` after the truncation to what is in the ring. -/
def readLen (rb : RingBuf) (len : UInt32) : UInt32 := if len > rb.count then rb.count else len

/-- `ring_buf_read`, called with `dst` at offset `off` of the array `mem`: the ring, the array, and
    the number of bytes copied. -/
def ringBufRead (rb : RingBuf) (mem : Bytes) (off : ℕ) (len : UInt32) : RingBuf × Bytes × UInt32 :=
  if ringBufEmpty rb then (rb, mem, 0)
  else
    let len := readLen rb len
    let l := readLoop rb mem off len.toNat
    ({ rb with
        start := l.start
        count := rb.count - len
        remain := rb.remain + len }, l.mem, len)

/-! ### The double buffer -/

/-- The arrays handed to the USB controller. `null` is the pointer of a `dbl_buffer` before
    `dbl_buffer_init`. -/
inductive Region where | null | writeBuffer | readBuffer | feedbackBuffer
  deriving DecidableEq

/-- `dbl_buffer`. The byte `buffer_pos` only ever holds the bit 0 or 1: it is reset to 0 and
    toggled with `^= 1`. -/
structure DblBuffer where
  buffer : Region
  halfsize : UInt32
  bufferPos : Bool
  count : UInt32
  deriving DecidableEq

def dblBufferReset (buf : DblBuffer) : DblBuffer := { buf with bufferPos := false, count := 0 }

def dblBufferInit (buf : DblBuffer) (staticbuff : Region) (halflen : UInt32) : DblBuffer :=
  dblBufferReset { buf with buffer := staticbuff, halfsize := halflen }

/-- `buffer_pos ? 0 : halfsize`, the half the main loop works on. -/
def DblBuffer.mainHalf (buf : DblBuffer) : UInt32 := if buf.bufferPos then 0 else buf.halfsize

/-- `buffer_pos ? halfsize : 0`, the half a callback hands to the USB controller. -/
def DblBuffer.usbHalf (buf : DblBuffer) : UInt32 := if buf.bufferPos then buf.halfsize else 0

/-- `buffer_pos ^= 1` -/
def DblBuffer.flip (buf : DblBuffer) : DblBuffer := { buf with bufferPos := !buf.bufferPos }

@[simp] theorem flip_buffer (buf : DblBuffer) : buf.flip.buffer = buf.buffer := rfl
@[simp] theorem flip_halfsize (buf : DblBuffer) : buf.flip.halfsize = buf.halfsize := rfl
@[simp] theorem flip_count (buf : DblBuffer) : buf.flip.count = buf.count := rfl

/-- The toggle exchanges the halves. -/
@[simp] theorem flip_usbHalf (buf : DblBuffer) : buf.flip.usbHalf = buf.mainHalf := by
  cases h : buf.bufferPos <;> simp [DblBuffer.flip, DblBuffer.mainHalf, DblBuffer.usbHalf, h]

@[simp] theorem flip_mainHalf (buf : DblBuffer) : buf.flip.mainHalf = buf.usbHalf := by
  cases h : buf.bufferPos <;> simp [DblBuffer.flip, DblBuffer.mainHalf, DblBuffer.usbHalf, h]

/-- A half begins where the buffer does, or in its middle. -/
theorem mainHalf_cases (buf : DblBuffer) :
    buf.mainHalf.toNat = 0 ∨ buf.mainHalf.toNat = buf.halfsize.toNat := by
  rw [DblBuffer.mainHalf]
  split
  · exact Or.inl rfl
  · exact Or.inr rfl

theorem usbHalf_cases (buf : DblBuffer) :
    buf.usbHalf.toNat = 0 ∨ buf.usbHalf.toNat = buf.halfsize.toNat := by
  rw [← flip_mainHalf]
  exact mainHalf_cases buf.flip

end AudioCard
