import AudioCard.Device
import AudioCard.Lib.Run

/-! The running card: callbacks, passes of the main loop and the USB controller, one at a time.

    An event runs to its end before the next one. A pass of the main loop is cut into its three
    branches, so that callbacks may also come between them; `mainPass_eq` puts them together. The
    controller writes only to the transfer that was armed last. -/

namespace AudioCard
open Segment Flags

/-- What can happen, one at a time. -/
inductive Event
  | openIntf (intf : UInt8)
  | closeIntf (intf : UInt8)
  /-- the controller has put the bytes `pkt` into the armed half, and reports them -/
  | outCallback (pkt : List UInt8)
  | inCallback
  | inFbCallback
  | setSamplingFreq (entityId epCh : UInt8) (freq : UInt32)
  | readPass
  | writePass
  | feedbackPass
  /-- the controller stores `v` at place `i` of the armed half -/
  | dma (i : ℕ) (v : UInt8)

instance : (e : Event) → Decidable (e = .writePass)
  | .writePass => isTrue rfl
  | .openIntf _ | .closeIntf _ | .outCallback _ | .inCallback | .inFbCallback
  | .setSamplingFreq _ _ _ | .readPass | .feedbackPass | .dma _ _ => isFalse fun h => by cases h

/-- The controller stores the bytes `l` from place `i` of the armed half on. -/
def controllerStore (i : ℕ) (l : List UInt8) (d : Device) : Device :=
  match d.armed with
  | some t => { d with mem := Function.update d.mem t.buf (overlay (d.mem t.buf) (t.off + i) l) }
  | none => d

/-- Place `i` lies in the armed half. -/
def inArmed (i : ℕ) (d : Device) : Bool :=
  (d.armed.map fun t => decide (i < t.len.toNat)).getD false

def step (b : Build) (d : Device) : Event → Device × List Io
  | .openIntf intf => usbdAudioOpen b intf d
  | .closeIntf intf => usbdAudioClose b intf d
  | .outCallback pkt => usbdAudioOutCallback pkt.length.toUInt32 (controllerStore 0 pkt d)
  | .inCallback => usbdAudioInCallback d
  | .inFbCallback => if b.hasFeedback then usbdAudioInFbCallback b d else (d, [])
  | .setSamplingFreq entityId epCh freq => (usbdAudioSetSamplingFreq b entityId epCh freq d, [])
  | .readPass => readPass d
  | .writePass => writePass b d
  | .feedbackPass => feedbackPass b d
  | .dma i v => (if inArmed i d then controllerStore i [v] d else d, [])

/-- The iteration of the main loop is its three branches in a row: with `open_flag` zero none of
    them does anything. -/
theorem mainPass_eq (b : Build) (d : Device) :
    (mainPass b d).1 = Run.final (step b) d [.readPass, .writePass, .feedbackPass] ∧
    (mainPass b d).2 = (Run.outputs (step b) d [.readPass, .writePass, .feedbackPass]).flatten := by
  unfold mainPass
  by_cases h : d.openFlag = 0
  · rw [if_neg (by simp [h])]
    have hr : readPass d = (d, []) := by simp [readPass, h]
    have hw : writePass b d = (d, []) := by simp [writePass, h]
    have hf : feedbackPass b d = (d, []) := by simp [feedbackPass, h]
    constructor
    · simp [step, hr, hw, hf]
    · simp [step, hr, hw, hf]
  · rw [if_pos h]
    constructor
    · simp [step]
    · simp [step]

end AudioCard
