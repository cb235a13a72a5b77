import AudioCard.Boot
import AudioCard.Lib.FixedPoint

/-! The feedback value that tells the host how many samples to send.

    `set_feedback_value` divides the frequency by 1000 before it shifts, so what it stores is a
    whole number of kilohertz; at full speed that is the number of samples in a frame of 1 ms, at
    high speed it is twice the number of samples in a microframe of 125 µs. And it is called only
    when the host sets a frequency: until then the value is the one the source was compiled with. -/

namespace AudioCard
open Segment Run FixedPoint

/-! ### The value and the bytes -/

/-- The bytes that `usbd_audio_in_fb_callback` sends among the calls `io`. -/
def sentFeedback (io : List Io) : Option (List UInt8) :=
  io.findSome? fun
    | .startWrite ep _ _ _ data => if ep = audioOfbEp then some data else none
    | _ => none

/-- The value that `set_feedback_value` makes of the frequency `f`. -/
def feedbackOf (f : UInt32) : UInt32 := (f / 1000) <<< 14

theorem setFeedbackValue_eq (d : Device) :
    (setFeedbackValue d).curFeedbackRate = feedbackOf d.curOutFreq := rfl

theorem toNat_feedbackOf {f : UInt32} (h : f.toNat < 262144000) :
    (feedbackOf f).toNat = 16384 * (f.toNat / 1000) := by
  have hdiv : (f / 1000).toNat = f.toNat / 1000 := UInt32.toNat_div f 1000
  rw [feedbackOf, UInt32.toNat_shiftLeft, hdiv, show (14 : UInt32).toNat % 32 = 14 from rfl,
    Nat.shiftLeft_eq, Nat.mod_eq_of_lt (by omega)]
  omega

/-- At full speed the three low bytes are sent. -/
theorem feedbackBytes_fs (rate : UInt32) : feedbackBytes .fs rate = toBytes 3 rate.toNat := by
  have h8 : (rate >>> 8).toNat = rate.toNat / 256 := by
    rw [UInt32.toNat_shiftRight, Nat.shiftRight_eq_div_pow]
    rfl
  have h16 : (rate >>> 16).toNat = rate.toNat / 256 / 256 := by
    rw [UInt32.toNat_shiftRight, Nat.shiftRight_eq_div_pow, Nat.div_div_eq_div_mul]
    rfl
  have hlow : ∀ x : UInt32, x.toUInt8 = x.toNat.toUInt8 := fun _ => rfl
  simp only [feedbackBytes, toBytes]
  rw [hlow, hlow, hlow, h8, h16]

/-- `in_fb_callback` sends the current value. -/
theorem sentFeedback_fs (d : Device) :
    sentFeedback (step .fs d .inFbCallback).2 = some (toBytes 3 d.curFeedbackRate.toNat) := by
  have hslice := slice_overlay (d.mem .feedbackBuffer) 0 (toBytes 3 d.curFeedbackRate.toNat)
  have hlen : (toBytes 3 d.curFeedbackRate.toNat).length.toUInt32.toNat =
      (toBytes 3 d.curFeedbackRate.toNat).length := by
    rw [length_toBytes]
    rfl
  simp only [step, Build.hasFeedback, if_true, usbdAudioInFbCallback, usbdEpStartWrite,
    feedbackBytes_fs, Function.update_self, hlen, hslice]
  rfl

/-! ### Precision -/

/-- The event sets the output frequency. -/
def Event.SetsOut (b : Build) : Event → Prop
  | .setSamplingFreq entityId epCh _ => selectsOut b entityId epCh = true
  | _ => False

/-- Setting the output frequency makes the value anew. -/
theorem rates_setsOut {b : Build} {r : Rates} {e : Event} (h : e.SetsOut b) :
    (r.step b e).curFeedbackRate = feedbackOf (r.step b e).curOutFreq := by
  cases e with
  | setSamplingFreq entityId epCh f =>
    rw [Event.SetsOut] at h
    rw [Rates.step, if_pos h]
    rfl
  | _ => exact h.elim

/-- Nothing else touches the value or the frequency. -/
theorem rates_not_setsOut {b : Build} {r : Rates} {e : Event} (h : ¬ e.SetsOut b) :
    (r.step b e).curOutFreq = r.curOutFreq ∧ (r.step b e).curFeedbackRate = r.curFeedbackRate := by
  cases e with
  | setSamplingFreq entityId epCh f =>
    rw [Event.SetsOut] at h
    rw [Rates.step, if_neg h]
    split <;> exact ⟨rfl, rfl⟩
  | _ => exact ⟨rfl, rfl⟩

theorem feedbackRate_final {b : Build} {es : List Event} (h : ∀ e ∈ es, ¬ e.SetsOut b)
    (d : Device) : (final (step b) d es).curFeedbackRate = d.curFeedbackRate := by
  refine invariant_of_forall (I := fun d' : Device => d'.curFeedbackRate = d.curFeedbackRate) ?_ rfl
  intro e he d' hd'
  have hkeep := (@rates_not_setsOut b d'.rates e (h e he)).2
  rw [← rates_step] at hkeep
  exact hkeep.trans hd'

/-- The frequencies that the format of the build can express: up to 1023 samples in a frame, up to
    4095 in a microframe. -/
def outFreqBound : Build → ℕ
  | .fs => 1024000
  | .hs => 32768000

/-- In state `d` the feedback is frequency `f` in the format that the source quotes. At full speed
    three bytes are sent, with 14 binary places, and are the samples in 1 ms to within one part in
    `2^10`. At high speed the value has 16 binary places and four leading zeros, and is the samples
    in 125 µs to within one part in `2^13`. -/
def FeedbackPrecise (b : Build) (f : UInt32) (d : Device) : Prop :=
  match b with
  | .fs => ∃ data, sentFeedback (step .fs d .inFbCallback).2 = some data ∧ data.length = 3 ∧
      Encodes 16384 1024 (ofBytes data) ((f.toNat : ℚ) / 1000)
  | .hs => d.curFeedbackRate >>> 28 = 0 ∧
      Encodes 65536 8192 d.curFeedbackRate.toNat ((f.toNat : ℚ) / 8000)

/-- The frequency is a whole number of kilohertz; at high speed, it is zero. -/
def FeedbackExact (b : Build) (f : UInt32) : Prop :=
  match b with
  | .fs => f.toNat % 1000 = 0
  | .hs => f = 0

instance (b : Build) (f : UInt32) : Decidable (FeedbackExact b f) :=
  match b with
  | .fs => inferInstanceAs (Decidable (f.toNat % 1000 = 0))
  | .hs => inferInstanceAs (Decidable (f = 0))

/-- Where the current value is the one made of `f`. -/
theorem feedbackPrecise_iff {b : Build} {f : UInt32} {d : Device} (hf : f.toNat < outFreqBound b)
    (hd : d.curFeedbackRate = feedbackOf f) : FeedbackPrecise b f d ↔ FeedbackExact b f := by
  cases b with
  | fs =>
    have hf' : f.toNat < 1024000 := hf
    have hvalue := @toNat_feedbackOf f (by omega)
    have hbytes : ofBytes (toBytes 3 (feedbackOf f).toNat) = 16384 * (f.toNat / 1000) := by
      rw [ofBytes_toBytes, hvalue, Nat.mod_eq_of_lt (by omega)]
    have hencodes := @encodes_iff 16384 (16384 * (f.toNat / 1000)) (1000 * (f.toNat / 1000)) f.toNat
      1000 1024 (by omega) (by omega) (by omega) (by omega)
    rw [FeedbackPrecise, FeedbackExact, sentFeedback_fs, hd]
    constructor
    · rintro ⟨data, hdata, -, henc⟩
      cases hdata
      rw [hbytes] at henc
      have := hencodes.mp henc
      omega
    · intro hexact
      refine ⟨_, rfl, length_toBytes 3 _, ?_⟩
      rw [hbytes]
      exact hencodes.mpr (by omega)
  | hs =>
    have hf' : f.toNat < 32768000 := hf
    have hvalue := @toNat_feedbackOf f (by omega)
    have hencodes := @encodes_iff 65536 (16384 * (f.toNat / 1000)) (2000 * (f.toNat / 1000)) f.toNat
      8000 8192 (by omega) (by omega) (by omega) (by omega)
    rw [FeedbackPrecise, FeedbackExact, hd, hvalue]
    constructor
    · rintro ⟨-, henc⟩
      have := hencodes.mp henc
      exact UInt32.toNat_inj.mp (by rw [UInt32.toNat_zero]; omega)
    · rintro rfl
      exact ⟨rfl, hencodes.mpr rfl⟩

/-- EXACT: after the host has set the output frequency to `f`, and until it sets another one, the
    feedback has the precision that its format asks for if and only if `f` is a multiple of 1000, at
    full speed; at high speed, only if it is zero. -/
theorem feedback_precise_iff (b : Build) (d : Device) (entityId epCh : UInt8) (f : UInt32)
    (es : List Event) (hsel : selectsOut b entityId epCh = true) (hf : f.toNat < outFreqBound b)
    (hes : ∀ e ∈ es, ¬ e.SetsOut b) :
    FeedbackPrecise b f (final (step b) d (.setSamplingFreq entityId epCh f :: es)) ↔
      FeedbackExact b f := by
  refine feedbackPrecise_iff hf ?_
  rw [final_cons, feedbackRate_final hes]
  change (step b d (.setSamplingFreq entityId epCh f)).1.rates.curFeedbackRate = _
  rw [rates_step, Rates.step, if_pos hsel]
  rfl

theorem feedback_precise_iff_48000 :
    FeedbackPrecise .fs 48000 (final (step .fs) (initial .fs)
      [.setSamplingFreq 0 audioOutEp 48000, .openIntf 1]) :=
  (feedback_precise_iff .fs (initial .fs) 0 audioOutEp 48000 [.openIntf 1] (by decide) (by decide)
    (by simp [Event.SetsOut])).mpr (by decide)

/-- The host asks for 44.1 kHz at full speed and is told 44 samples in a millisecond; it asks for
    48 kHz at high speed and is told 12 samples in 125 µs, where six are needed. -/
theorem feedback_imprecise :
    let d := final (step .fs) (initial .fs) [.setSamplingFreq 0 audioOutEp 44100]
    let d' := final (step .hs) (initial .hs) [.setSamplingFreq acClockOutSourceId 0 48000]
    (sentFeedback (step .fs d .inFbCallback).2 = some [0, 0, 11] ∧
      ofBytes [0, 0, 11] = 44 * 16384 ∧ ¬ FeedbackPrecise .fs 44100 d) ∧
    (d'.curFeedbackRate.toNat = 12 * 65536 ∧ ¬ FeedbackPrecise .hs 48000 d') := by
  intro d d'
  refine ⟨⟨?_, rfl, ?_⟩, rfl, ?_⟩
  · rw [sentFeedback_fs]
    decide
  · rw [feedbackPrecise_iff (by decide) (by decide)]
    decide
  · rw [feedbackPrecise_iff (by decide) (by decide)]
    decide

/-! ### The value and the frequency -/

/-- A step of the main loop sets no frequency. -/
theorem rates_main (b : Build) (d : Device) (pc : Pc) : (mainStep b d pc).1.rates = d.rates := by
  obtain ⟨rb, mem, n, busy, hdev⟩ := main_dev b d pc
  rw [hdev]
  rfl

/-- The host has set the output frequency. -/
def OutFreqSet (b : Build) (es : List BootEvent) : Prop :=
  ∃ e h, .irq e h ∈ es ∧ e.SetsOut b

theorem outFreqSet_concat {b : Build} {es : List BootEvent} {e : BootEvent} :
    OutFreqSet b (es ++ [e]) ↔ OutFreqSet b es ∨ OutFreqSet b [e] := by
  simp only [OutFreqSet, List.mem_append]
  grind

/-- The frequencies after one event of the program: unless the host has set the output frequency,
    they are what they were. -/
theorem rates_bootStep (b : Build) (s : Boot) (e : BootEvent) :
    OutFreqSet b [e] ∧
        (s.step b e).1.dev.curFeedbackRate = feedbackOf (s.step b e).1.dev.curOutFreq ∨
      ¬ OutFreqSet b [e] ∧ (s.step b e).1.dev.curOutFreq = s.dev.curOutFreq ∧
        (s.step b e).1.dev.curFeedbackRate = s.dev.curFeedbackRate := by
  cases e with
  | configure => exact Or.inr ⟨by simp [OutFreqSet], rfl, rfl⟩
  | main =>
    refine Or.inr ⟨by simp [OutFreqSet], ?_⟩
    obtain ⟨d, configured, pc⟩ := s
    cases pc with
    | poll => exact ⟨rfl, rfl⟩
    | setup a => cases a <;> exact ⟨rfl, rfl⟩
    | loop pc =>
      have hrates := rates_main b d pc
      exact ⟨congrArg Rates.curOutFreq hrates, congrArg Rates.curFeedbackRate hrates⟩
  | irq e he =>
    have hrates := rates_step b s.dev e
    have hset : OutFreqSet b [.irq e he] ↔ e.SetsOut b := by simp [OutFreqSet, he]
    rw [hset]
    by_cases hs : e.SetsOut b
    · have hnew := @rates_setsOut b s.dev.rates e hs
      rw [← hrates] at hnew
      exact Or.inl ⟨hs, hnew⟩
    · have hold := @rates_not_setsOut b s.dev.rates e hs
      rw [← hrates] at hold
      exact Or.inr ⟨hs, hold⟩

/-- RUN: the value belongs to the frequency from the first set on; before it both are as compiled.
    -/
theorem rates_boot (b : Build) (es : List BootEvent) :
    let d := (final (Boot.step b) (Boot.start b) es).dev
    OutFreqSet b es ∧ d.curFeedbackRate = feedbackOf d.curOutFreq ∨
      ¬ OutFreqSet b es ∧ d.curOutFreq = (static b).curOutFreq ∧
        d.curFeedbackRate = (static b).curFeedbackRate := by
  induction es using List.reverseRecOn with
  | nil => exact Or.inr ⟨by simp [OutFreqSet], rfl, rfl⟩
  | append_singleton es e ih =>
    simp only [final_concat, outFreqSet_concat]
    rcases rates_bootStep b (final (Boot.step b) (Boot.start b) es) e with
      ⟨hset, hnew⟩ | ⟨hno, hfreq, hrate⟩
    · exact Or.inl ⟨Or.inr hset, hnew⟩
    · rw [hfreq, hrate]
      rcases ih with ⟨hset, hold⟩ | ⟨hunset, hold⟩
      · exact Or.inl ⟨Or.inl hset, hold⟩
      · exact Or.inr ⟨not_or.mpr ⟨hunset, hno⟩, hold⟩

/-- EXACT: in every state the program can reach, from its static start on, the feedback value is the
    one that `set_feedback_value` makes of the output frequency, and at full speed the packet sent
    next is its three low bytes, if and only if the build is for high speed or the host has set the
    output frequency. -/
theorem feedback_belongs_iff (b : Build) (es : List BootEvent) :
    let d := (final (Boot.step b) (Boot.start b) es).dev
    (d.curFeedbackRate = (setFeedbackValue d).curFeedbackRate ↔ b = .hs ∨ OutFreqSet b es) ∧
      (b = .fs → (sentFeedback (step .fs d .inFbCallback).2 =
        some (toBytes 3 (setFeedbackValue d).curFeedbackRate.toNat) ↔ OutFreqSet b es)) := by
  intro d
  rw [setFeedbackValue_eq, sentFeedback_fs, Option.some.injEq]
  rcases rates_boot b es with ⟨hset, hvalue⟩ | ⟨hunset, hfreq, hrate⟩
  · rw [show d.curFeedbackRate = feedbackOf d.curOutFreq from hvalue]
    simp [hset]
  · rw [show d.curOutFreq = (static b).curOutFreq from hfreq,
      show d.curFeedbackRate = (static b).curFeedbackRate from hrate]
    cases b with
    | fs => exact ⟨iff_of_false (by decide) (by simp [hunset]),
        fun _ => iff_of_false (by decide) hunset⟩
    | hs => exact ⟨iff_of_true rfl (Or.inl rfl), fun h => by cases h⟩

/-- At full speed the host configures the device and opens the speaker without setting a frequency:
    the card runs at 96 kHz and the feedback asks for 48 samples in a millisecond. -/
theorem feedback_of_default :
    let d := (final (Boot.step .fs) (Boot.start .fs)
      (.configure :: List.replicate 15 .main ++ [.irq (.openIntf 1) rfl])).dev
    d.curOutFreq = 96000 ∧
      sentFeedback (step .fs d .inFbCallback).2 = some (toBytes 3 (48 * 16384)) ∧
      toBytes 3 (setFeedbackValue d).curFeedbackRate.toNat = toBytes 3 (96 * 16384) ∧
      d.curFeedbackRate ≠ (setFeedbackValue d).curFeedbackRate := by
  intro d
  rw [sentFeedback_fs]
  exact ⟨rfl, rfl, by decide, by decide⟩

end AudioCard
