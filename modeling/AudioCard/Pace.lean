import AudioCard.Feedback
import AudioCard.Reopen
import AudioCard.Throughput
import AudioCard.Lib.Stock

/-! Whether a host that follows the feedback keeps pace with the microphone.

    The feedback is all that tells the host how fast to send, and the microphone takes bytes away at
    a rate of its own: `set_feedback_value` divides the output frequency by 1000 and drops the rest,
    `get_inp_packet_size` multiplies the input frequency by six first. With one packet in either
    direction in each frame the difference adds up, and the ring pays for it
    (`paced_lossless_iff`). -/

namespace AudioCard
open Run FixedPoint Stock

/-! ### The value in use -/

/-- The event sets no frequency. -/
def Event.KeepsRates : Event → Prop
  | .setSamplingFreq _ _ _ => False
  | _ => True

instance : (e : Event) → Decidable e.KeepsRates
  | .setSamplingFreq _ _ _ => inferInstanceAs (Decidable False)
  | .openIntf _ | .closeIntf _ | .outCallback _ | .inCallback | .inFbCallback | .readPass
  | .writePass | .feedbackPass | .dma _ _ => inferInstanceAs (Decidable True)

theorem rates_keeps {b : Build} {d : Device} {e : Event} (he : e.KeepsRates) :
    (step b d e).1.rates = d.rates := by
  rw [rates_step]
  cases e with
  | setSamplingFreq entityId epCh freq => cases he
  | _ => rfl

/-- While no frequency is set, the packets asked for are of one size. -/
theorem asks_of_keeps {b : Build} {s : Device} {es : List Event} (h : ∀ e ∈ es, e.KeepsRates) :
    Along (step b) (Asks b (s.needLen b)) s es := by
  refine along_of_invariant (I := fun d => d.rates = s.rates) ?_ ?_ rfl (along_of_mem h s)
  · exact fun d e hd he => (rates_keeps he).trans hd
  · exact fun d e hd _ _ => needLen_congr hd

/-- The value has no fraction, whatever has been set: its 14 low bits are zero. -/
theorem feedbackRate_whole (b : Build) (es : List Event) :
    16384 ∣ (final (step b) (initial b) es).curFeedbackRate.toNat := by
  refine invariant_of_forall (I := fun d : Device => 16384 ∣ d.curFeedbackRate.toNat) ?_ ?_
  · intro e _ d hd
    have hrates := congrArg Rates.curFeedbackRate (rates_step b d e)
    change (step b d e).1.curFeedbackRate = _ at hrates
    rw [hrates]
    by_cases hset : e.SetsOut b
    · rw [rates_setsOut hset, feedbackOf, UInt32.toNat_shiftLeft,
        show (14 : UInt32).toNat % 32 = 14 from rfl, Nat.shiftLeft_eq]
      omega
    · rw [(rates_not_setsOut hset).2]
      exact hd
  · cases b <;> decide

/-! ### The host -/

/-- The host follows the feedback `data`: in as many frames as there are packets they have brought
    the whole samples of six bytes that its value, with 14 binary places, asks for in that time. -/
def Paced (b : Build) (s : Device) (data : List UInt8) (es : List Event) : Prop :=
  ∀ p r, es = p ++ r → (drainedPackets b s p).flatten.length =
    6 * ((drainedPackets b s p).length * ofBytes data / 16384)

/-- In each frame a packet is drained and then one is built. -/
def InTurn (b : Build) (s : Device) (es : List Event) : Prop :=
  ∀ p r, es = p ++ r → (builtPackets b s p).length ≤ (drainedPackets b s p).length ∧
    (drainedPackets b s p).length ≤ (builtPackets b s p).length + 1

instance (b : Build) (s : Device) (data : List UInt8) (es : List Event) :
    Decidable (Paced b s data es) := decidable_of_iff' _ forall_prefix_iff_take

instance (b : Build) (s : Device) (es : List Event) : Decidable (InTurn b s es) :=
  decidable_of_iff' _ forall_prefix_iff_take

/-- No event both drains a packet and builds one. -/
theorem counters_packets {b : Build} {s : Device} (h : Running b s) :
    Counters (fun p => (drainedPackets b s p).length) (fun p => (builtPackets b s p).length) := by
  refine ⟨⟨rfl, rfl⟩, fun p e => ?_⟩
  obtain ⟨hw, q, hq⟩ := running_final h p
  simp only [drainedPackets, builtPackets, collect_concat, List.length_append]
  rcases traffic_cases hw hq e with ⟨hd, hb, -⟩ | ⟨data, ret, hio, -⟩ | ⟨off, stores, hio, -⟩
  · exact Or.inl (by rw [hd, hb]; exact ⟨rfl, rfl⟩)
  · exact Or.inr (Or.inl (by rw [hio]; exact ⟨rfl, rfl⟩))
  · exact Or.inr (Or.inr (by rw [hio]; exact ⟨rfl, rfl⟩))

/-- EXACT: at full speed, from any reachable state, while fills fit their halves, no frequency is
    set, the host follows the feedback the card sends, and in each frame a packet is drained and
    then one is built: no byte is refused and no zero put in if and only if the `q` bytes in the
    ring at first make up for what the host's packets have less than the microphone's, in all the
    packets built, and the room above them takes what they have more, in all the packets drained. -/
theorem paced_lossless_iff (pre es : List Event) (data : List UInt8)
    (hfit : Along (step .fs) (FillFits .fs) (initial .fs) (pre ++ es))
    (hdata : sentFeedback (step .fs (final (step .fs) (initial .fs) pre) .inFbCallback).2 =
      some data)
    (hkeep : ∀ e ∈ es, e.KeepsRates)
    (hpace : Paced .fs (final (step .fs) (initial .fs) pre) data es)
    (hturn : InTurn .fs (final (step .fs) (initial .fs) pre) es) :
    let s := final (step .fs) (initial .fs) pre
    let m := 6 * (ofBytes data / 16384)
    let n := s.needLen .fs
    ∃ q, s.Queued q ∧ (Along (step .fs) (Lossless .fs) s es ↔
      (n - m) * (builtPackets .fs s es).length ≤ q.length ∧
        (0 < (drainedPackets .fs s es).length →
          q.length + m + (m - n) * ((drainedPackets .fs s es).length - 1) ≤ 2048)) := by
  intro s m n
  obtain ⟨q, h⟩ := carrying_final hfit
  refine ⟨q, h.2, ?_⟩
  -- the value has no fraction, so all packets have the same size
  have hwhole : 16384 ∣ ofBytes data := by
    rw [sentFeedback_fs, Option.some.injEq] at hdata
    have hrate := feedbackRate_whole .fs pre
    rw [← hdata, ofBytes_toBytes]
    omega
  have hin : ∀ p r, es = p ++ r → (drainedPackets .fs s p).flatten.length =
      m * (drainedPackets .fs s p).length := by
    intro p r heq
    rw [hpace p r heq, Nat.mul_div_assoc _ hwhole, Nat.mul_assoc, Nat.mul_comm (_ / 16384)]
  have hout : ∀ p r, es = p ++ r → (builtPackets .fs s p).flatten.length =
      n * (builtPackets .fs s p).length := by
    rintro p r rfl
    have hasks : Along (step .fs) (Asks .fs n) s p :=
      asks_of_keeps fun e he => hkeep e (List.mem_append_left _ he)
    exact Groups.length_flatten_of_forall (length_of_mem_builtPackets h hasks)
  rw [lossless_iff_inWindow h]
  have hlasts := lasts_iff (m := m) (n := n) (counters_packets ⟨h.1, q, h.2⟩) h.length_le hturn
  refine Iff.trans ?_ hlasts
  refine forall₃_congr fun p r heq => ?_
  rw [hin p r heq, hout p r heq]
  exact Iff.rfl

/-- With both frequencies at `f` the host's packets are never the longer ones, and fall behind by
    what `f` has above a whole number of kilohertz, in bytes for each frame. -/
theorem shortfall_of_freq {f : UInt32} (hf : f.toNat < 1024000) :
    let m := 6 * (ofBytes (feedbackBytes .fs (feedbackOf f)) / 16384)
    let n := (getInpPacketSize .fs f).toNat
    m ≤ n ∧ n - m = 6 * (f.toNat % 1000) / 1000 := by
  have hm : ofBytes (feedbackBytes .fs (feedbackOf f)) = 16384 * (f.toNat / 1000) := by
    rw [feedbackBytes_fs, ofBytes_toBytes, toNat_feedbackOf (by omega)]
    omega
  have hn : (getInpPacketSize .fs f).toNat = 6 * f.toNat / 1000 := by
    simp only [getInpPacketSize, audioInpFrameSizeByte, audioInpChannelNum, UInt32.toNat_div,
      UInt32.toNat_mul, UInt32.reduceToNat]
    omega
  rw [hm, hn]
  omega

/-- Both frequencies are 1500 Hz: the feedback asks for one sample in a frame, and the microphone
    for one and a half. -/
theorem paced_lossless_iff_drift :
    let s := final (step .fs) (initial .fs) [.setSamplingFreq 0 audioOutEp 1500,
      .setSamplingFreq 0 audioInpEp 1500, .openIntf 1, .openIntf 2]
    let es : List Event := [.outCallback [1, 2, 3, 4, 5, 6], .readPass, .writePass]
    let m := 6 * (ofBytes [0, 64, 0] / 16384)
    let n := s.needLen .fs
    ∃ q, s.Queued q ∧ (Along (step .fs) (Lossless .fs) s es ↔
      (n - m) * (builtPackets .fs s es).length ≤ q.length ∧
        (0 < (drainedPackets .fs s es).length →
          q.length + m + (m - n) * ((drainedPackets .fs s es).length - 1) ≤ 2048)) := by
  exact paced_lossless_iff [.setSamplingFreq 0 audioOutEp 1500,
    .setSamplingFreq 0 audioInpEp 1500, .openIntf 1, .openIntf 2]
    [.outCallback [1, 2, 3, 4, 5, 6], .readPass, .writePass] [0, 64, 0] (by decide)
    (by rw [sentFeedback_fs]; decide) (by decide) (by decide) (by decide)

end AudioCard
