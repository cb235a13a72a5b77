import AudioCard.RingBuf
import AudioCard.UsbDescr
import AudioCard.Lib.Flags

/-! `audio_task.c`: the globals and the functions on them.

    A function returns the changed globals and the calls it made that somebody outside it sees: the
    transfers armed at the USB controller, the `ring_buf_write` of `read_samples`, and for
    `write_samples` the packet it built together with the places it stored to. -/

namespace AudioCard
open Segment Flags

/-- The streams that share the two flag bytes: `EP_TX_FLAG`, `EP_RX_FLAG`, `EP_FB_FLAG`. -/
inductive EpFlag where | tx | rx | fb
  deriving DecidableEq

def EpFlag.mask : EpFlag → UInt8
  | .tx => 1
  | .rx => 2
  | .fb => 4

@[simp] theorem isSet_or_mask (f : UInt8) (s t : EpFlag) :
    isSet (f ||| s.mask) t.mask = (decide (s = t) || isSet f t.mask) := by
  rcases eq_or_ne s t with rfl | h
  · rw [isSet_or_self f (by cases s <;> decide)]
    simp
  · rw [isSet_or_disjoint f (by cases s <;> cases t <;> first | decide | exact absurd rfl h)]
    simp [h]

@[simp] theorem isSet_clear_mask (f : UInt8) (s t : EpFlag) :
    isSet (f &&& ~~~s.mask) t.mask = (!decide (s = t) && isSet f t.mask) := by
  rcases eq_or_ne s t with rfl | h
  · rw [isSet_clear_self]
    simp
  · rw [isSet_clear_disjoint f (by cases s <;> cases t <;> first | decide | exact absurd rfl h)]
    simp [h]

/-- A transfer to memory that `usbd_ep_start_read` has armed. -/
structure Transfer where
  buf : Region
  off : ℕ
  len : UInt32
  deriving DecidableEq

/-- The globals of `audio_task.c`; `armed` is the controller's, the latest `usbd_ep_start_read`.
    `mem` keeps the arrays apart, each without an end: a store past the end of one is seen as such
    (`Io.fill` has its places), but does not reach the next one as it would on the board. So what is
    said of bytes is about the board in runs in which packets fit (`PacketsFit`, `SizesFit`). -/
structure Device where
  outRb : RingBuf
  writeBf : DblBuffer
  readBf : DblBuffer
  mem : Region → Bytes
  epBusyFlag : UInt8
  openFlag : UInt8
  curOutFreq : UInt32
  curInpFreq : UInt32
  curFeedbackRate : UInt32
  armed : Option Transfer

/-- A call that is seen outside the function that makes it. -/
inductive Io
  /-- `usbd_ep_start_read(ep, buf + off, len)` -/
  | startRead (ep : UInt8) (buf : Region) (off : ℕ) (len : UInt32)
  /-- `usbd_ep_start_write(ep, buf + off, len)`, with the bytes found there -/
  | startWrite (ep : UInt8) (buf : Region) (off : ℕ) (len : UInt32) (data : List UInt8)
  /-- `ring_buf_write` by `read_samples`: its bytes and its result -/
  | ringWrite (data : List UInt8) (ret : UInt32)
  /-- a packet built by `write_samples` at offset `off` of `write_buffer`: its bytes, of which the
      first `carried` come from the ring, and the offsets that were stored to, in order -/
  | fill (off : ℕ) (carried : ℕ) (data : List UInt8) (stores : List ℕ)

/-! ### Packet size and feedback -/

def getInpPacketSize (b : Build) (curInpFreq : UInt32) : UInt32 :=
  match b with
  | .fs => (curInpFreq * audioInpFrameSizeByte * audioInpChannelNum) / 1000
  | .hs => (curInpFreq * audioInpFrameSizeByte * audioInpChannelNum) / 1000 / packetsPerMs .hs

def setFeedbackValue (d : Device) : Device :=
  { d with curFeedbackRate := (d.curOutFreq / 1000) <<< 14 }

/-- `usbd_audio_set_sampling_freq`: `audio_v1.c` goes by the endpoint, `audio_v2.c` by the
    entity. -/
def usbdAudioSetSamplingFreq (b : Build) (entityId epCh : UInt8) (samplingFreq : UInt32)
    (d : Device) : Device :=
  match b with
  | .fs =>
    if epCh = audioOutEp then setFeedbackValue { d with curOutFreq := samplingFreq }
    else if epCh = audioInpEp then { d with curInpFreq := samplingFreq }
    else d
  | .hs =>
    if entityId = acClockOutSourceId then setFeedbackValue { d with curOutFreq := samplingFreq }
    else if entityId = acClockInpSourceId then { d with curInpFreq := samplingFreq }
    else d

/-! ### Called from the interrupt -/

def usbdEpStartRead (ep : UInt8) (buf : Region) (off : ℕ) (len : UInt32) (d : Device) :
    Device × List Io :=
  ({ d with armed := some ⟨buf, off, len⟩ }, [.startRead ep buf off len])

def usbdEpStartWrite (ep : UInt8) (buf : Region) (off : ℕ) (len : UInt32) (d : Device) :
    Device × List Io :=
  (d, [.startWrite ep buf off len (slice (d.mem buf) off len.toNat)])

def usbdAudioOpen (b : Build) (intf : UInt8) (d : Device) : Device × List Io :=
  if intf = 1 then
    let d := { d with
      openFlag := d.openFlag ||| EpFlag.rx.mask
      epBusyFlag := d.epBusyFlag ||| EpFlag.rx.mask }
    let d := if b.hasFeedback then
      { d with
        openFlag := d.openFlag ||| EpFlag.fb.mask
        epBusyFlag := d.epBusyFlag ||| EpFlag.fb.mask } else d
    let d := { d with readBf := dblBufferReset d.readBf }
    usbdEpStartRead audioOutEp d.readBf.buffer 0 d.readBf.halfsize d
  else if intf = 2 then
    ({ d with
      openFlag := d.openFlag ||| EpFlag.tx.mask
      writeBf := dblBufferReset d.writeBf }, [])
  else (d, [])

def usbdAudioClose (b : Build) (intf : UInt8) (d : Device) : Device × List Io :=
  if intf = 1 then
    let d := { d with
      openFlag := d.openFlag &&& ~~~EpFlag.rx.mask
      epBusyFlag := d.epBusyFlag &&& ~~~EpFlag.rx.mask }
    let d := if b.hasFeedback then
      { d with
        openFlag := d.openFlag &&& ~~~EpFlag.fb.mask
        epBusyFlag := d.epBusyFlag &&& ~~~EpFlag.fb.mask } else d
    (d, [])
  else
    ({ d with
      openFlag := d.openFlag &&& ~~~EpFlag.tx.mask
      epBusyFlag := d.epBusyFlag &&& ~~~EpFlag.tx.mask }, [])

def usbdAudioOutCallback (nbytes : UInt32) (d : Device) : Device × List Io :=
  let d := { d with
    readBf := { d.readBf with count := nbytes }.flip
    epBusyFlag := d.epBusyFlag &&& ~~~EpFlag.rx.mask }
  usbdEpStartRead audioOutEp d.readBf.buffer d.readBf.usbHalf.toNat d.readBf.halfsize d

def usbdAudioInCallback (d : Device) : Device × List Io :=
  let d := { d with
    writeBf := d.writeBf.flip
    epBusyFlag := d.epBusyFlag &&& ~~~EpFlag.tx.mask }
  usbdEpStartWrite audioInpEp d.writeBf.buffer d.writeBf.usbHalf.toNat d.writeBf.count d

/-- The bytes `usbd_audio_in_fb_callback` puts into `feedback_buffer`. -/
def feedbackBytes (b : Build) (rate : UInt32) : List UInt8 :=
  let low := [rate.toUInt8, (rate >>> 8).toUInt8, (rate >>> 16).toUInt8]
  match b with
  | .fs => low
  | .hs => low ++ [(rate >>> 24).toUInt8]

/-- `usbd_audio_in_fb_callback`, compiled only where the feedback endpoint exists. -/
def usbdAudioInFbCallback (b : Build) (d : Device) : Device × List Io :=
  let bytes := feedbackBytes b d.curFeedbackRate
  let d := { d with
    mem := Function.update d.mem .feedbackBuffer (overlay (d.mem .feedbackBuffer) 0 bytes) }
  let r := usbdEpStartWrite audioOfbEp .feedbackBuffer 0 bytes.length.toUInt32 d
  ({ r.1 with epBusyFlag := r.1.epBusyFlag &&& ~~~EpFlag.fb.mask }, r.2)

/-! ### Called from the main program -/

def readSamples (d : Device) : Device × List Io :=
  if ¬ isSet d.epBusyFlag EpFlag.rx.mask then
    let data := d.readBf.mainHalf.toNat
    let len := d.readBf.count
    let w := ringBufWrite d.outRb (d.mem d.readBf.buffer) data len
    ({ d with outRb := w.1, epBusyFlag := d.epBusyFlag ||| EpFlag.rx.mask },
      [.ringWrite (slice (d.mem d.readBf.buffer) data len.toNat) w.2])
  else (d, [])

def writeFeedback (d : Device) : Device × List Io :=
  if ¬ isSet d.epBusyFlag EpFlag.fb.mask then
    ({ d with epBusyFlag := d.epBusyFlag ||| EpFlag.fb.mask }, [])
  else (d, [])

/-- The offsets that `ring_buf_read(rb, mem + off, len)` stores to, pass by pass of its loop. -/
def readStores (rb : RingBuf) (mem : Bytes) (off : ℕ) (len : UInt32) : List ℕ :=
  if ringBufEmpty rb then []
  else (List.range (readLen rb len).toNat).map fun k => (readLoop rb mem off k).dst

/-- `memset(mem + off, v, n)`. -/
def memset (mem : Bytes) (off : ℕ) (v : UInt8) (n : ℕ) : Bytes :=
  overlay mem off (List.replicate n v)

/-- The offsets that `memset(mem + off, v, n)` stores to. -/
def memsetStores (off n : ℕ) : List ℕ := (List.range n).map (off + ·)

def writeSamples (b : Build) (d : Device) : Device × List Io :=
  if ¬ isSet d.epBusyFlag EpFlag.tx.mask then
    let data := d.writeBf.mainHalf.toNat
    let needLen := getInpPacketSize b d.curInpFreq
    let mem := d.mem d.writeBf.buffer
    let r := ringBufRead d.outRb mem data needLen
    let count := r.2.2
    let pad := if count < needLen then (needLen - count).toNat else 0
    let mem' := if count < needLen then memset r.2.1 (data + count.toNat) 0 pad else r.2.1
    let total := if count < needLen then needLen else count
    ({ d with
        outRb := r.1
        mem := Function.update d.mem d.writeBf.buffer mem'
        writeBf := { d.writeBf with count := total }
        epBusyFlag := d.epBusyFlag ||| EpFlag.tx.mask },
      [.fill data count.toNat (slice mem' data total.toNat)
        (readStores d.outRb mem data needLen ++ memsetStores (data + count.toNat) pad)])
  else (d, [])

/-- `if(open_flag & EP_RX_FLAG) read_samples();` -/
def readPass (d : Device) : Device × List Io :=
  if isSet d.openFlag EpFlag.rx.mask then readSamples d else (d, [])

/-- `if(open_flag & EP_TX_FLAG) write_samples();` -/
def writePass (b : Build) (d : Device) : Device × List Io :=
  if isSet d.openFlag EpFlag.tx.mask then writeSamples b d else (d, [])

/-- `if(open_flag & EP_FB_FLAG) write_feedback();`, where the feedback endpoint exists. -/
def feedbackPass (b : Build) (d : Device) : Device × List Io :=
  if b.hasFeedback ∧ isSet d.openFlag EpFlag.fb.mask then writeFeedback d else (d, [])

/-- One iteration of the main loop of `audio_test`. -/
def mainPass (b : Build) (d : Device) : Device × List Io :=
  if d.openFlag ≠ 0 then
    let r := readPass d
    let w := writePass b r.1
    let f := feedbackPass b w.1
    (f.1, r.2 ++ w.2 ++ f.2)
  else (d, [])

/-! ### The start -/

/-- The globals before `main`: static storage is zero, the frequencies have their initialisers. -/
def static (b : Build) : Device where
  outRb := ⟨fun _ => 0, 0, 0, 0, 0, 0⟩
  writeBf := ⟨.null, 0, false, 0⟩
  readBf := ⟨.null, 0, false, 0⟩
  mem := fun _ _ => 0
  epBusyFlag := 0
  openFlag := 0
  curOutFreq := match b with
    | .fs => audioOutFreq1
    | .hs => audioOutFreqMin
  curInpFreq := match b with
    | .fs => audioInpFreq1
    | .hs => audioInpFreqMin
  curFeedbackRate := (48 : UInt32) <<< 14
  armed := none

/-- `sizeof(out_rb_data)` -/
def outRbSize : UInt32 := 2048

/-- The initialisations at the top of `audio_test`. -/
def audioTestInit (b : Build) (d : Device) : Device :=
  { d with
    outRb := ringBufInit d.outRb (fun _ => 0) outRbSize
    writeBf := dblBufferInit d.writeBf .writeBuffer (audioInpPacketSz b)
    readBf := dblBufferInit d.readBf .readBuffer (audioOutPacketSz b) }

/-- The state in which `audio_test` enters its loop. -/
def initial (b : Build) : Device := audioTestInit b (static b)

end AudioCard
