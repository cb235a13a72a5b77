import AudioCard.Jitter
import AudioCard.Lib.Groups
import AudioCard.Lib.Transit

/-! What the ring between the two streams does to the sound, over whole runs.

    A pass that drains brings a packet, a pass that fills asks for one of `get_inp_packet_size()`
    bytes, and nothing else moves a byte. So the run is lossless exactly as long as the bytes
    drained and the bytes built stay within a window of the size of the ring (`lossless_iff`), equal
    packets then come through one for one (`packets_pass_through`), and how long a byte waits
    depends only on where it is in the ring (`ring_delay`). -/

namespace AudioCard
open Run

/-- The packets drained in the run `es`, in order. -/
def drainedPackets (b : Build) : Device → List Event → List (List UInt8) :=
  collect (step b) fun d e => (drained (step b d e).2).toList

/-- The packets built in the run `es`, in order. -/
def builtPackets (b : Build) : Device → List Event → List (List UInt8) :=
  collect (step b) fun d e => (built (step b d e).2).toList

/-- The call is not a fill that put zeros behind the bytes off the ring. -/
def Io.Unpadded : Io → Prop
  | .fill _ carried data _ => carried = data.length
  | _ => True

/-- The event loses no byte and makes none up. -/
def Lossless (b : Build) (d : Device) (e : Event) : Prop :=
  ∀ io ∈ (step b d e).2, io.Accepted ∧ io.Unpadded

/-- Everything an event can do to the ring: nothing, or it drains a packet, of which the ring takes
    what fits, or it builds one from the oldest bytes. -/
theorem traffic_cases {b : Build} {d : Device} {q : List UInt8} (h : Wired b d) (hq : d.Queued q)
    (e : Event) :
    (drained (step b d e).2 = none ∧ built (step b d e).2 = none ∧ queueStep b d q e = q) ∨
    (∃ data ret, (step b d e).2 = [.ringWrite data ret] ∧
      ret.toNat = data.length - (2048 - q.length) ∧
      queueStep b d q e = q ++ data.take (2048 - q.length)) ∨
    (∃ off stores, (step b d e).2 = [.fill off (min (d.needLen b) q.length)
        (micPacket q (d.needLen b)) stores] ∧ queueStep b d q e = q.drop (d.needLen b)) := by
  have hrun : Running b d := ⟨h, q, hq⟩
  rcases eq_or_ne e .readPass with rfl | hr
  · cases hd : (d.speaker.step .readPass).2 with
    | none =>
      refine Or.inl ⟨(speaker_step h .readPass).2.trans hd, built_eq_none hrun (by simp), ?_⟩
      simp only [queueStep, hd]
    | some data =>
      obtain ⟨-, ret, hio, hret⟩ := readPass_drains h hq hd
      refine Or.inr (Or.inl ⟨data, ret, hio, hret, ?_⟩)
      simp only [queueStep, hd]
      rfl
  · rcases eq_or_ne e .writePass with rfl | hw
    · have hio := writePass_io h hq.holds
      by_cases hf : d.mic.filling = true
      · rw [if_pos hf] at hio
        exact Or.inr (Or.inr ⟨_, _, hio, if_pos hf⟩)
      · rw [if_neg hf] at hio
        refine Or.inl ⟨drained_eq_none h hr, ?_, if_neg hf⟩
        rw [step, hio]
        rfl
    · refine Or.inl ⟨drained_eq_none h hr, built_eq_none hrun hw, ?_⟩
      cases e with
      | readPass => exact absurd rfl hr
      | writePass => exact absurd rfl hw
      | _ => rfl

/-- The ring of a running card holds `q`. -/
def Carrying (b : Build) (d : Device) (q : List UInt8) : Prop := Wired b d ∧ d.Queued q

theorem Carrying.length_le {b : Build} {d : Device} {q : List UInt8} (h : Carrying b d q) :
    q.length ≤ 2048 := by
  have hle := h.2.holds.length_le
  rw [h.2.size] at hle
  exact hle

theorem carrying_step {b : Build} {d : Device} {q : List UInt8} (h : Carrying b d q) (e : Event) :
    Carrying b (step b d e).1 (queueStep b d q e) :=
  ⟨wired_step h.1 e, queue_step h.1 h.2 e⟩

/-! ### Lossless runs -/

/-- The bytes that an event drains. -/
def drainedBytes (b : Build) (d : Device) (e : Event) : List UInt8 :=
  (drained (step b d e).2).toList.flatten

/-- The bytes of the packet that an event builds. -/
def builtBytes (b : Build) (d : Device) (e : Event) : List UInt8 :=
  (built (step b d e).2).toList.flatten

/-- STEP: an event is lossless exactly when what it drains fits, and what it builds is there. -/
theorem lossless_step {b : Build} {d : Device} {q : List UInt8} (h : Carrying b d q) (e : Event) :
    (Lossless b d e ↔ (builtBytes b d e).length ≤ q.length + (drainedBytes b d e).length ∧
      q.length + (drainedBytes b d e).length ≤ (builtBytes b d e).length + 2048) ∧
    (Lossless b d e →
      q ++ drainedBytes b d e = builtBytes b d e ++ queueStep b d q e) := by
  have hle := h.length_le
  rw [Lossless, drainedBytes, builtBytes]
  rcases traffic_cases h.1 h.2 e with ⟨hd, hb, hq⟩ | ⟨data, ret, hio, hret, hq⟩ |
      ⟨off, stores, hio, hq⟩
  · rw [hd, hb, hq]
    constructor
    · refine iff_of_true (fun io hio => ?_) (by simpa using hle)
      have hd' := List.findSome?_eq_none_iff.mp hd io hio
      have hb' := List.findSome?_eq_none_iff.mp hb io hio
      cases io with
      | ringWrite data ret => cases hd'
      | fill off carried data stores => cases hb'
      | _ => exact ⟨trivial, trivial⟩
    · intro
      simp
  · rw [hio, hq, List.forall_mem_singleton]
    have hzero : ret = 0 ↔ q.length + data.length ≤ 2048 := by
      rw [← UInt32.toNat_inj, hret, UInt32.toNat_zero]
      omega
    simp only [Io.Accepted, Io.Unpadded, and_true, drained, built, List.findSome?_cons,
      List.findSome?_nil, Option.toList_some, Option.toList_none, List.flatten_cons,
      List.flatten_nil, List.append_nil, List.nil_append, List.length_nil, Nat.zero_le, true_and,
      Nat.zero_add, hzero]
    intro hfit
    rw [List.take_of_length_le (by omega)]
  · rw [hio, hq, List.forall_mem_singleton]
    simp only [Io.Accepted, Io.Unpadded, true_and, drained, built, List.findSome?_cons,
      List.findSome?_nil, Option.toList_some, Option.toList_none, List.flatten_cons,
      List.flatten_nil, List.append_nil, List.length_nil, Nat.add_zero, length_micPacket]
    refine ⟨by omega, fun hfull => ?_⟩
    rw [micPacket, Nat.sub_eq_zero_of_le (by omega), List.replicate_zero, List.append_nil,
      List.take_append_drop]

theorem collect_drainedBytes (b : Build) (s : Device) (es : List Event) :
    collect (step b) (drainedBytes b) s es = (drainedPackets b s es).flatten :=
  collect_flatten _ s es

theorem collect_builtBytes (b : Build) (s : Device) (es : List Event) :
    collect (step b) (builtBytes b) s es = (builtPackets b s es).flatten :=
  collect_flatten _ s es

/-- After every prefix of the run the ring has room for the bytes drained, and had the bytes built.
    -/
def InWindow (b : Build) (s : Device) (q : List UInt8) (es : List Event) : Prop :=
  ∀ p r, es = p ++ r →
    (builtPackets b s p).flatten.length ≤ q.length + (drainedPackets b s p).flatten.length ∧
    q.length + (drainedPackets b s p).flatten.length ≤
      (builtPackets b s p).flatten.length + 2048

theorem lossless_iff_inWindow {b : Build} {s : Device} {q : List UInt8} (h : Carrying b s q)
    (es : List Event) : Along (step b) (Lossless b) s es ↔ InWindow b s q es := by
  have hwindow := along_iff_window h (fun _ _ h => h.length_le)
    (fun _ e _ h => (lossless_step h e).1)
    (fun _ e _ h hG => ⟨_, (lossless_step h e).2 hG, carrying_step h e⟩) es
  simp only [collect_drainedBytes, collect_builtBytes] at hwindow
  exact hwindow

theorem lossless_stream {b : Build} {s : Device} {q : List UInt8} (h : Carrying b s q)
    {es : List Event} (hes : Along (step b) (Lossless b) s es) :
    ∃ q', q ++ (drainedPackets b s es).flatten = (builtPackets b s es).flatten ++ q' ∧
      Carrying b (final (step b) s es) q' := by
  have hstream := collect_conserved hes h
    fun _ e _ h hG => ⟨_, (lossless_step h e).2 hG, carrying_step h e⟩
  simp only [collect_drainedBytes, collect_builtBytes] at hstream
  exact hstream

/-- After a run in which fills fit the ring holds some bytes. -/
theorem carrying_final {b : Build} {pre es : List Event}
    (h : Along (step b) (FillFits b) (initial b) (pre ++ es)) :
    ∃ q, Carrying b (final (step b) (initial b) pre) q := by
  obtain ⟨⟨hw, q, hq⟩, -⟩ := countFits_final (countFits_initial b) ((along_append _ _ _).mp h).1
  exact ⟨q, hw, hq⟩

/-- EXACT: from any reachable state, in every order of events in which packets fit, no byte drained
    is refused and no zero is put into a packet if and only if after every prefix of the run the
    bytes built do not exceed the bytes in the ring at first and those drained, nor fall behind them
    by more than 2048; the packets built, joined, are then the bytes in the ring at first and the
    packets drained, less what the ring still holds. -/
theorem lossless_iff (b : Build) (pre es : List Event)
    (hfit : Along (step b) (PacketsFit b) (initial b) (pre ++ es)) :
    let s := final (step b) (initial b) pre
    ∃ q, s.Queued q ∧ (Along (step b) (Lossless b) s es ↔ InWindow b s q es) ∧
      (Along (step b) (Lossless b) s es → ∃ q', (final (step b) s es).Queued q' ∧
        q ++ (drainedPackets b s es).flatten = (builtPackets b s es).flatten ++ q') := by
  intro s
  obtain ⟨q, h⟩ := carrying_final (along_mono (fun _ _ h => h.2) hfit)
  refine ⟨q, h.2, lossless_iff_inWindow h es, fun hes => ?_⟩
  obtain ⟨q', heq, -, hq'⟩ := lossless_stream h hes
  exact ⟨q', hq', heq⟩

/-- From a ring with two bytes in it, a packet is drained and one of three bytes is built. -/
theorem lossless_iff_two :
    let pre : List Event := [.setSamplingFreq 0 audioInpEp 500, .openIntf 1, .openIntf 2,
      .outCallback [1, 2], .readPass]
    let es : List Event := [.outCallback [3, 4], .readPass, .writePass]
    let s := final (step .fs) (initial .fs) pre
    ∃ q, s.Queued q ∧ (Along (step .fs) (Lossless .fs) s es ↔ InWindow .fs s q es) ∧
      (Along (step .fs) (Lossless .fs) s es → ∃ q', (final (step .fs) s es).Queued q' ∧
        q ++ (drainedPackets .fs s es).flatten = (builtPackets .fs s es).flatten ++ q') := by
  intro pre es
  exact lossless_iff .fs pre es (by decide)

/-! ### Equal packets -/

/-- When a packet to send is built, it is to have `n` bytes. -/
def Asks (b : Build) (n : ℕ) (d : Device) (e : Event) : Prop := e = .writePass → d.needLen b = n

instance (b : Build) (n : ℕ) (d : Device) (e : Event) : Decidable (Asks b n d e) :=
  inferInstanceAs (Decidable (e = .writePass → d.needLen b = n))

theorem length_of_built {b : Build} {d : Device} {q : List UInt8} (h : Carrying b d q) {e : Event}
    {n : ℕ} (hn : Asks b n d e) {data : List UInt8} (hb : built (step b d e).2 = some data) :
    data.length = n := by
  obtain ⟨rfl, -, rfl⟩ := built_some h.1 h.2.holds hb
  rw [length_micPacket]
  exact hn rfl

/-- All packets built are of the size asked for. -/
theorem length_of_mem_builtPackets {b : Build} {s : Device} {q : List UInt8} {es : List Event}
    {n : ℕ} (h : Carrying b s q) (hneed : Along (step b) (Asks b n) s es) :
    ∀ x ∈ builtPackets b s es, x.length = n := by
  refine forall_mem_collect (along_of_invariant (I := fun d => ∃ q, Carrying b d q) ?_ ?_ ⟨q, h⟩
    hneed)
  · rintro d e ⟨q, hd⟩ -
    exact ⟨_, carrying_step hd e⟩
  · rintro d e ⟨q, hd⟩ hn x hx
    exact length_of_built hd hn (Option.mem_toList.mp hx)

/-- The packets built do not run ahead of those drained, nor fall behind by more than the ring has
    room for. -/
def InStep (b : Build) (s : Device) (n : ℕ) (es : List Event) : Prop :=
  ∀ p r, es = p ++ r →
    (builtPackets b s p).length ≤ (drainedPackets b s p).length ∧
    (drainedPackets b s p).length ≤ (builtPackets b s p).length + 2048 / n

instance (b : Build) (s : Device) (n : ℕ) (es : List Event) : Decidable (InStep b s n es) :=
  decidable_of_iff' _ forall_prefix_iff_take

/-- Equal packets come out as they went in. -/
theorem built_isPrefix {b : Build} {s : Device} {n : ℕ} {es : List Event} (hn : 0 < n)
    (h : Carrying b s []) (hneed : Along (step b) (Asks b n) s es)
    (hdrained : ∀ x ∈ drainedPackets b s es, x.length = n) (hstep : InStep b s n es) :
    builtPackets b s es <+: drainedPackets b s es := by
  have hbuilt : ∀ p r, es = p ++ r → ∀ x ∈ builtPackets b s p, x.length = n := by
    rintro p r rfl
    exact length_of_mem_builtPackets h ((along_append _ _ _).mp hneed).1
  have hdrained' : ∀ p r, es = p ++ r → ∀ x ∈ drainedPackets b s p, x.length = n := by
    rintro p r rfl x hx
    refine hdrained x ?_
    rw [drainedPackets, collect_append]
    exact List.mem_append_left _ hx
  have hin : InWindow b s [] es := by
    intro p r heq
    obtain ⟨hle, hge⟩ := hstep p r heq
    rw [Groups.length_flatten_of_forall (hdrained' p r heq),
      Groups.length_flatten_of_forall (hbuilt p r heq)]
    have hmul := Nat.mul_le_mul_left n hge
    rw [Nat.mul_add] at hmul
    have hroom : n * (2048 / n) ≤ 2048 := Nat.mul_div_le 2048 n
    refine ⟨?_, ?_⟩
    · simpa using Nat.mul_le_mul_left n hle
    · simpa using Nat.le_trans hmul (Nat.add_le_add_left hroom _)
  obtain ⟨q', heq, -⟩ := lossless_stream h ((lossless_iff_inWindow h es).mpr hin)
  rw [List.nil_append] at heq
  exact Groups.isPrefix_of_flatten hn (hbuilt es [] (by simp)) hdrained ⟨q', heq.symm⟩

/-- CORRECT: from any reachable state with an empty ring, when fills fit their halves, the packets
    built are to have `n` bytes and every packet drained has `n`, if after every prefix of the run
    the packets built are no more than those drained, and at most `2048 / n` fewer, then the packets
    built are the packets drained, one for one and in order. -/
theorem packets_pass_through (b : Build) (pre es : List Event) (n : ℕ) (hn : 0 < n)
    (hfit : Along (step b) (FillFits b) (initial b) (pre ++ es))
    (hempty : ringBufEmpty (final (step b) (initial b) pre).outRb = true)
    (hneed : Along (step b) (Asks b n) (final (step b) (initial b) pre) es)
    (hdrain : Along (step b) (fun d e => ∀ data, drained (step b d e).2 = some data →
      data.length = n) (final (step b) (initial b) pre) es)
    (hstep : InStep b (final (step b) (initial b) pre) n es) :
    let s := final (step b) (initial b) pre
    builtPackets b s es = (drainedPackets b s es).take (builtPackets b s es).length := by
  intro s
  obtain ⟨q, hw, hq⟩ := carrying_final hfit
  have h : Carrying b s [] := ⟨hw, queued_nil_of_empty ⟨hw, q, hq⟩ hempty⟩
  refine List.prefix_iff_eq_take.mp (built_isPrefix hn h hneed (forall_mem_collect ?_) hstep)
  rw [along_iff_forall_split] at hdrain ⊢
  exact fun p e r heq x hx => hdrain p e r heq x (Option.mem_toList.mp hx)

/-- Packets of two bytes; the second is drained before the first is built. -/
theorem packets_pass_through_two :
    let s := final (step .fs) (initial .fs)
      [.setSamplingFreq 0 audioInpEp 334, .openIntf 1, .openIntf 2]
    let es : List Event := [.outCallback [1, 2], .readPass, .outCallback [3, 4], .readPass,
      .writePass]
    builtPackets .fs s es = (drainedPackets .fs s es).take (builtPackets .fs s es).length := by
  exact packets_pass_through .fs [.setSamplingFreq 0 audioInpEp 334, .openIntf 1, .openIntf 2]
    [.outCallback [1, 2], .readPass, .outCallback [3, 4], .readPass, .writePass] 2 (by decide)
    (by decide) rfl (by decide) ⟨by decide, by decide, by decide, by decide, by decide, trivial⟩
    (by decide)

/-! ### How long a byte waits -/

/-- BOUND: when the packets built are to have `n` bytes, in every order of events in which packets
    fit, the byte at place `i` of the ring is byte `i % n` of packet `i / n` of those built from
    then on, whatever is drained in the meantime. -/
theorem ring_delay (b : Build) (pre es : List Event) (n : ℕ) (hn : 0 < n)
    (hfit : Along (step b) (PacketsFit b) (initial b) (pre ++ es))
    (hneed : Along (step b) (Asks b n) (final (step b) (initial b) pre) es) :
    let s := final (step b) (initial b) pre
    ∃ q, s.Queued q ∧ q.length ≤ 2048 ∧ ∀ i < q.length, ∀ p,
      (builtPackets b s es)[i / n]? = some p → p[i % n]? = q[i]? := by
  intro s
  obtain ⟨q, h⟩ := carrying_final (along_mono (fun _ _ h => h.2) hfit)
  refine ⟨q, h.2, h.length_le, fun i hi p hp => ?_⟩
  refine delay (C := Carrying b) hn hneed h ?_ hi hp
  intro d e q hd hdn
  refine ⟨_, carrying_step hd e, ?_, ?_⟩
  · intro hnone
    rcases traffic_cases hd.1 hd.2 e with ⟨-, -, hq⟩ | ⟨data, ret, -, -, hq⟩ | ⟨off, stores, hio, -⟩
    · exact ⟨[], (List.append_nil q).trans hq.symm⟩
    · exact ⟨_, hq.symm⟩
    · rw [hio] at hnone
      cases hnone
  · intro p hsome
    have he : e = .writePass := (built_some hd.1 hd.2.holds hsome).1
    rcases traffic_cases hd.1 hd.2 e with ⟨-, hb, -⟩ | ⟨data, ret, hio, -, -⟩ |
        ⟨off, stores, hio, hq⟩
    · rw [hb] at hsome
      cases hsome
    · rw [hio] at hsome
      cases hsome
    · rw [hio] at hsome
      cases hsome
      rw [hq, hdn he]
      exact ⟨List.prefix_append _ _, List.prefix_rfl⟩

/-- Five bytes wait, and two packets of three bytes are built; a sixth byte comes between them. -/
theorem ring_delay_three :
    let pre : List Event := [.setSamplingFreq 0 audioInpEp 500, .openIntf 1,
      .outCallback [1, 2, 3, 4, 5], .readPass, .openIntf 2]
    let es : List Event := [.writePass, .outCallback [6], .readPass, .inCallback, .writePass]
    let s := final (step .fs) (initial .fs) pre
    ∃ q, s.Queued q ∧ q.length ≤ 2048 ∧ ∀ i < q.length, ∀ p,
      (builtPackets .fs s es)[i / 3]? = some p → p[i % 3]? = q[i]? := by
  intro pre es s
  exact ring_delay .fs pre es 3 (by decide) (by decide) (by decide)

end AudioCard
