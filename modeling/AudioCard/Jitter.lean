import AudioCard.Loopback
import AudioCard.Lib.Backlog

/-! How much jitter the ring between the two streams absorbs.

    A pass that drains brings a packet of at most `n` bytes, a pass that fills takes `n` bytes away,
    or all there are. Counted in packets the ring is a queue that serves one job at a time, so its
    backlog is bounded by the excess of drains over fills in any segment of the run. -/

namespace AudioCard
open Run

/-- The calls drain a packet into the ring. -/
def drains (io : List Io) : Bool := (drained io).isSome

/-- The calls fill a half of `write_buffer` from the ring. -/
def fills (io : List Io) : Bool := (built io).isSome

/-- The backlog of the ring, in packets, after the calls `ios`. -/
def backlog (ios : List (List Io)) : ℕ := Backlog.level drains fills ios

/-- A packet that is drained has at most `n` bytes. -/
def DrainsUpTo (b : Build) (n : ℕ) (d : Device) (e : Event) : Prop :=
  ∀ data, drained (step b d e).2 = some data → data.length ≤ n

instance (b : Build) (n : ℕ) (d : Device) (e : Event) : Decidable (DrainsUpTo b n d e) :=
  inferInstanceAs (Decidable (∀ data ∈ drained (step b d e).2, data.length ≤ n))

theorem drained_eq_none {b : Build} {d : Device} (h : Wired b d) {e : Event} (he : e ≠ .readPass) :
    drained (step b d e).2 = none :=
  (speaker_step h e).2.trans (speaker_out_eq_none d.speaker he)

theorem built_eq_none {b : Build} {d : Device} (h : Running b d) {e : Event} (he : e ≠ .writePass) :
    built (step b d e).2 = none := by
  obtain ⟨hw, q, hq⟩ := h
  cases hb : built (step b d e).2 with
  | none => rfl
  | some data => exact absurd (built_some hw hq.holds hb).1 he

/-- Calls that drain nothing have nothing refused. -/
theorem accepted_of_drained_eq_none {ios : List Io} (h : drained ios = none) :
    ∀ io ∈ ios, io.Accepted := by
  intro io hio
  have hnone := List.findSome?_eq_none_iff.mp h io hio
  cases io with
  | ringWrite data ret => cases hnone
  | _ => trivial

/-- A pass that drains: the queue grows by the packet at most, and the packet is accepted if the
    ring has room for `n` bytes more. -/
theorem readPass_backlog {b : Build} {d : Device} {q data : List UInt8} {n : ℕ} (h : Wired b d)
    (hq : d.Queued q) (hd : drained (step b d .readPass).2 = some data) (hlen : data.length ≤ n) :
    (queueStep b d q .readPass).length ≤ q.length + n ∧
      (q.length + n ≤ outRbSize.toNat → ∀ io ∈ (step b d .readPass).2, io.Accepted) := by
  rw [(speaker_step h .readPass).2] at hd
  obtain ⟨-, ret, hio, hret⟩ := readPass_drains h hq hd
  constructor
  · simp only [queueStep, hd, List.length_append, List.length_take]
    omega
  · intro hroom
    have hzero : ret.toNat = 0 := by omega
    rw [step, hio]
    exact List.forall_mem_singleton.mpr (UInt32.toNat_inj.mp hzero)

/-- STEP: the queue is no longer than the backlog of packets, and while the backlog fits the ring
    nothing is refused. -/
theorem backlog_step {b : Build} {d : Device} {e : Event} {q : List UInt8} {n m : ℕ}
    (h : Running b d) (hq : d.Queued q) (hneed : d.needLen b = n) (hdrain : DrainsUpTo b n d e)
    (hlen : q.length ≤ n * m) :
    (queueStep b d q e).length ≤ n * Backlog.next drains fills m (step b d e).2 ∧
      (n * Backlog.next drains fills m (step b d e).2 ≤ outRbSize.toNat →
        ∀ io ∈ (step b d e).2, io.Accepted) := by
  rcases eq_or_ne e .readPass with rfl | hr
  · have hb := built_eq_none h (e := .readPass) (by simp)
    cases hd : drained (step b d .readPass).2 with
    | none =>
      have hnext : Backlog.next drains fills m (step b d .readPass).2 = m := by
        simp [Backlog.next, drains, fills, hd, hb]
      rw [(speaker_step h.1 .readPass).2] at hd
      rw [hnext]
      refine ⟨?_, fun _ => accepted_of_drained_eq_none ((speaker_step h.1 .readPass).2.trans hd)⟩
      simpa only [queueStep, hd] using hlen
    | some data =>
      have hnext : Backlog.next drains fills m (step b d .readPass).2 = m + 1 := by
        simp [Backlog.next, drains, fills, hd, hb]
      obtain ⟨hgrow, hroom⟩ := readPass_backlog h.1 hq hd (hdrain data hd)
      rw [hnext, Nat.mul_succ]
      exact ⟨by omega, fun hfit => hroom (by omega)⟩
  · have hd := drained_eq_none h.1 hr
    refine ⟨?_, fun _ => accepted_of_drained_eq_none hd⟩
    rcases eq_or_ne e .writePass with rfl | hw
    · have hio : fills (step b d .writePass).2 = d.mic.filling := by
        rw [fills, step, writePass_io h.1 hq.holds]
        cases d.mic.filling <;> rfl
      rw [Backlog.next, hio, drains, hd, queueStep]
      cases d.mic.filling with
      | false => simpa using hlen
      | true =>
        -- a fill takes `n` bytes, or all there are
        simp only [if_true, List.length_drop, hneed, Option.isSome_none, Bool.toNat_false,
          Bool.toNat_true, Nat.add_zero]
        rw [Nat.mul_sub_one]
        exact Nat.sub_le_sub_right hlen n
    · have hnext : Backlog.next drains fills m (step b d e).2 = m := by
        simp [Backlog.next, drains, fills, hd, built_eq_none h hw]
      rw [hnext]
      cases e with
      | readPass => exact absurd rfl hr
      | writePass => exact absurd rfl hw
      | _ => exact hlen

/-- RUN: after every run the queue is no longer than the backlog of packets. -/
theorem queued_backlog {b : Build} {s : Device} {n : ℕ} {es : List Event} (hs : Running b s)
    (hempty : s.Queued []) (hneed : Along (step b) (fun d _ => d.needLen b = n) s es)
    (hdrain : Along (step b) (DrainsUpTo b n) s es) :
    ∃ q, (final (step b) s es).Queued q ∧ q.length ≤ n * backlog (outputs (step b) s es) := by
  induction es using List.reverseRecOn with
  | nil => exact ⟨[], hempty, Nat.zero_le _⟩
  | append_singleton es e ih =>
    rw [along_concat] at hneed hdrain
    obtain ⟨q, hq, hlen⟩ := ih hneed.1 hdrain.1
    have hrun := running_final hs es
    refine ⟨_, by rw [final_concat]; exact queue_step hrun.1 hq e, ?_⟩
    rw [outputs_concat, backlog, Backlog.level_concat]
    exact (backlog_step hrun hq hneed.2 hdrain.2 hlen).1

/-- In no segment of the run do the drains exceed the fills by more than `k`. -/
def Jitter (b : Build) (s : Device) (es : List Event) (k : ℕ) : Prop :=
  ∀ p q r, es = p ++ q ++ r →
    (outputs (step b) (final (step b) s p) q).countP drains ≤
      (outputs (step b) (final (step b) s p) q).countP fills + k

theorem Jitter.left {b : Build} {s : Device} {es fs : List Event} {k : ℕ}
    (h : Jitter b s (es ++ fs) k) : Jitter b s es k := by
  rintro p q r rfl
  exact h p q (r ++ fs) (by simp)

theorem Jitter.backlog_le {b : Build} {s : Device} {es : List Event} {k : ℕ}
    (h : Jitter b s es k) : backlog (outputs (step b) s es) ≤ k := by
  refine Backlog.level_le drains fills fun ps qs heq => ?_
  obtain ⟨p, q, rfl, rfl⟩ := outputs_split (step b) heq
  exact h p q [] (by simp)

theorem queued_nil_of_empty {b : Build} {d : Device} (h : Running b d)
    (hempty : ringBufEmpty d.outRb = true) : d.Queued [] := by
  obtain ⟨-, q, hq⟩ := h
  have hcount := hq.holds.count
  rw [(ringBufEmpty_iff d.outRb).mp hempty] at hcount
  rw [List.eq_nil_of_length_eq_zero hcount.symm] at hq
  exact hq

/-- CORRECT: from any state the card can reach with an empty ring, while `get_inp_packet_size()`
    stays `n`, no packet drained has more than `n` bytes, and in no segment of the run the drains
    exceed the fills by more than `k`, where `k * n` bytes fit the ring: no byte is refused by
    `ring_buf_write`, and the ring never holds more than `k * n`. -/
theorem jitter_absorbed (b : Build) (pre es : List Event) (n k : ℕ)
    (hempty : ringBufEmpty (final (step b) (initial b) pre).outRb = true)
    (hk : k * n ≤ (final (step b) (initial b) pre).outRb.size.toNat)
    (hneed : Along (step b) (fun d _ => d.needLen b = n) (final (step b) (initial b) pre) es)
    (hdrain : Along (step b) (DrainsUpTo b n) (final (step b) (initial b) pre) es)
    (hjitter : Jitter b (final (step b) (initial b) pre) es k) :
    let s := final (step b) (initial b) pre
    Along (step b) (fun d e => ∀ io ∈ (step b d e).2, io.Accepted) s es ∧
      ∀ p q, es = p ++ q → (final (step b) s p).outRb.count.toNat ≤ k * n := by
  intro s
  have hs : Running b s := running_final (running_initial b) pre
  have hq₀ := queued_nil_of_empty hs hempty
  rw [hq₀.size, Nat.mul_comm] at hk
  -- the queue before each step, with the backlog of packets that bounds it
  have hbound : ∀ p q, es = p ++ q → ∃ r, (final (step b) s p).Queued r ∧
      r.length ≤ n * backlog (outputs (step b) s p) ∧
      n * backlog (outputs (step b) s p) ≤ n * k := by
    rintro p q rfl
    rw [along_append] at hneed hdrain
    obtain ⟨r, hr, hlen⟩ := queued_backlog hs hq₀ hneed.1 hdrain.1
    exact ⟨r, hr, hlen, Nat.mul_le_mul_left n hjitter.left.backlog_le⟩
  constructor
  · rw [along_iff_forall_split] at hneed hdrain ⊢
    intro p e q heq
    obtain ⟨r, hr, hlen, -⟩ := hbound p (e :: q) heq
    obtain ⟨-, -, -, hfit⟩ := hbound (p ++ [e]) q (by simp [heq])
    rw [outputs_concat, backlog, Backlog.level_concat] at hfit
    exact (backlog_step (running_final hs p) hr (hneed p e q heq) (hdrain p e q heq) hlen).2
      (Nat.le_trans hfit hk)
  · intro p q heq
    obtain ⟨r, hr, hlen, hle⟩ := hbound p q heq
    rw [hr.holds.count, Nat.mul_comm]
    exact Nat.le_trans hlen hle

/-- Two packets are drained before the first is filled, into a ring with room for two. -/
theorem jitter_absorbed_two :
    let s := final (step .fs) (initial .fs) [.openIntf 1, .openIntf 2]
    let es := [.outCallback [1, 2, 3], .readPass, .outCallback [4], .readPass, .writePass]
    Along (step .fs) (fun d e => ∀ io ∈ (step .fs d e).2, io.Accepted) s es ∧
      ∀ p q, es = p ++ q → (final (step .fs) s p).outRb.count.toNat ≤ 2 * 576 := by
  refine jitter_absorbed .fs [.openIntf 1, .openIntf 2]
    [.outCallback [1, 2, 3], .readPass, .outCallback [4], .readPass, .writePass] 576 2
    rfl (by decide) ⟨rfl, rfl, rfl, rfl, rfl, trivial⟩
    ⟨by decide, by decide, by decide, by decide, by decide, trivial⟩ ?_
  rintro p q r heq
  have hcount : (outputs (step .fs) (final (step .fs) (initial .fs) [.openIntf 1, .openIntf 2])
      (p ++ q ++ r)).countP drains = 2 := by
    rw [← heq]
    decide
  rw [outputs_append, outputs_append, List.countP_append, List.countP_append] at hcount
  omega

end AudioCard
