import AudioCard.MicBounds
import AudioCard.RingTraffic

/-! Every access lies in its array, in every interleaving.

    `write_bf.count` is volatile, and `memset(data + write_bf.count, 0, need_len - write_bf.count)`
    loads it twice, after the comparison has loaded it once: three steps, where `mainStep` takes
    one. `Fine` has them all, with the order of the two arguments, which C leaves open, as a
    parameter. An `open(2)` resets the count, and between the load for the address and the load for
    the length it makes `memset` run past its half (`memset_overrun`); `accesses_in_bounds` says
    that nothing else goes out of bounds. -/

namespace AudioCard
open Segment Run

/-- Where the main loop is, with the loads of `write_bf.count` one by one. -/
inductive FinePc
  | plain (pc : Pc)
  /-- the arguments of `memset`, before the first load -/
  | padFirst (data : ℕ) (needLen : UInt32)
  /-- between the two loads; the first gave `v` -/
  | padSecond (data : ℕ) (needLen v : UInt32)
  deriving DecidableEq

/-- The card and its main loop. -/
structure Fine where
  dev : Device
  pc : FinePc

/-- One step of the main loop. With `addrFirst` the address is evaluated before the length. -/
def fineStep (b : Build) (addrFirst : Bool) (d : Device) : FinePc → Device × FinePc
  | .plain (.wsPad data needLen) =>
    (d, if d.writeBf.count < needLen then .padFirst data needLen else .plain (.load .tx))
  | .plain pc => ((mainStep b d pc).1, .plain (mainStep b d pc).2)
  | .padFirst data needLen => (d, .padSecond data needLen d.writeBf.count)
  | .padSecond data needLen v =>
    (d, .plain (if addrFirst then
      .wsZero data needLen (data + v.toNat) (needLen - d.writeBf.count).toNat
    else .wsZero data needLen (data + d.writeBf.count.toNat) (needLen - v).toNat))

def Fine.step (b : Build) (addrFirst : Bool) (s : Fine) : CpuEvent → Fine × List Io
  | .main => (⟨(fineStep b addrFirst s.dev s.pc).1, (fineStep b addrFirst s.dev s.pc).2⟩, [])
  | .irq e _ => (⟨(AudioCard.step b s.dev e).1, s.pc⟩, (AudioCard.step b s.dev e).2)

def Fine.start (b : Build) : Fine := ⟨initial b, .plain .top⟩

/-- The state as the coarser machine has it, where the loads are one step. -/
def Fine.coarse (s : Fine) : Cpu :=
  match s.pc with
  | .plain pc => ⟨s.dev, pc⟩
  | .padFirst data needLen | .padSecond data needLen _ => ⟨s.dev, .wsPad data needLen⟩

/-! ### The accesses -/

/-- The static arrays. -/
inductive Store
  | ring
  | region (r : Region)

/-- `len` bytes from `off` on. -/
structure Access where
  store : Store
  off : ℕ
  len : ℕ

/-- The size of the array. -/
def Store.size (b : Build) : Store → ℕ
  | .ring => outRbSize.toNat
  | .region .writeBuffer => 2 * (audioInpPacketSz b).toNat
  | .region .readBuffer => 2 * (audioOutPacketSz b).toNat
  | .region .feedbackBuffer => 4
  | .region .null => 0

def Access.InBounds (b : Build) (a : Access) : Prop := a.off + a.len ≤ a.store.size b

/-- The bytes that a transfer is started on. -/
def Io.access : Io → List Access
  | .startRead _ buf off len => [⟨.region buf, off, len.toNat⟩]
  | .startWrite _ buf off len _ => [⟨.region buf, off, len.toNat⟩]
  | _ => []

/-- The bytes that the controller has stored when it reports the event. -/
def Event.received (d : Device) : Event → List Access
  | .outCallback pkt => d.armed.toList.map fun t => ⟨.region t.buf, t.off, pkt.length⟩
  | .dma i _ =>
    if inArmed i d then d.armed.toList.map fun t => ⟨.region t.buf, t.off + i, 1⟩ else []
  | _ => []

/-- What a step reads or writes in the arrays: a byte copied or zeroed by the main loop, what the
    controller stores, and what a callback hands to it. -/
def Fine.accesses (b : Build) (s : Fine) : CpuEvent → List Access
  | .main =>
    match s.pc with
    | .plain (.rsCopy _ end_ src (_ + 1)) =>
      [⟨.region s.dev.readBf.buffer, src, 1⟩, ⟨.ring, end_.toNat, 1⟩]
    | .plain (.wsCopy _ _ _ start dst (_ + 1)) =>
      [⟨.ring, start.toNat, 1⟩, ⟨.region s.dev.writeBf.buffer, dst, 1⟩]
    | .plain (.wsZero _ _ dst (_ + 1)) => [⟨.region s.dev.writeBf.buffer, dst, 1⟩]
    | _ => []
  | .irq e _ => e.received s.dev ++ (AudioCard.step b s.dev e).2.flatMap Io.access

/-! ### The list is complete -/

/-- The cells of an array. -/
def Device.cell (d : Device) : Store → ℕ → UInt8
  | .ring => d.outRb.buff
  | .region r => d.mem r

/-- The globals with the cells `c` in the arrays. -/
def Device.withCells (d : Device) (c : Store → ℕ → UInt8) : Device :=
  { d with outRb := { d.outRb with buff := c .ring }, mem := fun r => c (.region r) }

/-- Cell `i` of the array is in the list of the step. -/
def Fine.Touches (b : Build) (s : Fine) (e : CpuEvent) (st : Store) (i : ℕ) : Prop :=
  ∃ acc ∈ s.accesses b e, acc.store = st ∧ acc.off ≤ i ∧ i < acc.off + acc.len

/-- A store to one array changes only the cells it covers. -/
theorem cell_store_or (m : Region → Bytes) (r₀ : Region) (off : ℕ) (l : List UInt8) (r : Region)
    (i : ℕ) : Function.update m r₀ (overlay (m r₀) off l) r i = m r i ∨
      r₀ = r ∧ off ≤ i ∧ i < off + l.length := by
  rcases eq_or_ne r r₀ with rfl | hr
  · rw [Function.update_self]
    exact (overlay_eq_or _ _ _ _).imp_right fun hin => ⟨rfl, hin⟩
  · exact Or.inl (congrFun (Function.update_of_ne hr _ _) i)

/-- What the controller stores changes only what it has received. -/
theorem received_of_changed {d : Device} {k : ℕ} {l : List UInt8} {st : Store} {i : ℕ}
    (h : (controllerStore k l d).cell st i ≠ d.cell st i) :
    ∃ t, d.armed = some t ∧ .region t.buf = st ∧ t.off + k ≤ i ∧ i < t.off + k + l.length := by
  unfold controllerStore at h
  split at h
  · rename_i t ht
    cases st with
    | ring => exact absurd rfl h
    | region r =>
      obtain ⟨rfl, hin⟩ := (cell_store_or d.mem t.buf (t.off + k) l r i).resolve_left h
      exact ⟨t, ht, rfl, hin⟩
  · exact absurd rfl h

/-- STEP: a cell that a step changes is in its list. -/
theorem touches_of_changed {b : Build} {a : Bool} {s : Fine} {e : CpuEvent} {st : Store} {i : ℕ}
    (h : (s.step b a e).1.dev.cell st i ≠ s.dev.cell st i) : s.Touches b e st i := by
  obtain ⟨d, pc⟩ := s
  cases e with
  | main =>
    cases pc with
    | padFirst | padSecond => exact absurd rfl h
    | plain pc =>
      cases pc with
      | rsCopy data end_ src n =>
        cases n with
        | zero => cases st <;> exact absurd rfl h
        | succ n =>
          cases st with
          | region r => exact absurd rfl h
          | ring =>
            have hin := (overlay_eq_or d.outRb.buff end_.toNat [_] i).resolve_left h
            exact ⟨⟨.ring, end_.toNat, 1⟩, by simp [Fine.accesses], rfl, hin⟩
      | wsCopy data needLen ret start dst n =>
        cases n with
        | zero => cases st <;> exact absurd rfl h
        | succ n =>
          cases st with
          | ring => exact absurd rfl h
          | region r =>
            obtain ⟨hr, hin⟩ := (cell_store_or d.mem d.writeBf.buffer dst [_] r i).resolve_left h
            exact ⟨⟨.region _, dst, 1⟩, by simp [Fine.accesses], congrArg _ hr, hin⟩
      | wsZero data needLen dst n =>
        cases n with
        | zero => cases st <;> exact absurd rfl h
        | succ n =>
          cases st with
          | ring => exact absurd rfl h
          | region r =>
            obtain ⟨hr, hin⟩ := (cell_store_or d.mem d.writeBf.buffer dst [0] r i).resolve_left h
            exact ⟨⟨.region _, dst, 1⟩, by simp [Fine.accesses], congrArg _ hr, hin⟩
      | rsHead data len =>
        simp only [Fine.step, fineStep, mainStep] at h
        split at h <;> cases st <;> exact absurd rfl h
      | wsHead data needLen =>
        simp only [Fine.step, fineStep, mainStep] at h
        split at h <;> cases st <;> exact absurd rfl h
      | _ => exact absurd rfl h
  | irq e he =>
    change (step b d e).1.cell st i ≠ d.cell st i at h
    cases e with
    | openIntf intf =>
      simp only [step, usbdAudioOpen] at h
      split_ifs at h <;> exact absurd rfl h
    | closeIntf intf =>
      simp only [step, usbdAudioClose] at h
      split_ifs at h <;> exact absurd rfl h
    | outCallback pkt =>
      obtain ⟨t, ht, hst, hin⟩ := received_of_changed (k := 0) (l := pkt) h
      refine ⟨⟨.region t.buf, t.off, pkt.length⟩, List.mem_append_left _ ?_, hst, hin⟩
      simp [Event.received, ht]
    | inCallback => exact absurd rfl h
    | inFbCallback =>
      by_cases hfb : b.hasFeedback = true
      swap
      · rw [step, if_neg hfb] at h
        exact absurd rfl h
      rw [step, if_pos hfb] at h
      cases st with
      | ring => exact absurd rfl h
      | region r =>
        obtain ⟨hr, hin⟩ := (cell_store_or d.mem .feedbackBuffer 0
          (feedbackBytes b d.curFeedbackRate) r i).resolve_left h
        refine ⟨⟨.region .feedbackBuffer, 0, (feedbackBytes b d.curFeedbackRate).length⟩,
          List.mem_append_right _ ?_, congrArg _ hr, hin⟩
        cases b <;> simp [step, hfb, usbdAudioInFbCallback, usbdEpStartWrite, Io.access,
          feedbackBytes]
    | setSamplingFreq entityId epCh freq =>
      simp only [step, usbdAudioSetSamplingFreq] at h
      cases b <;> simp only at h <;> split_ifs at h <;> exact absurd rfl h
    | dma k v =>
      simp only [step] at h
      split_ifs at h with hin
      · obtain ⟨t, ht, hst, hcov⟩ := received_of_changed (k := k) (l := [v]) h
        refine ⟨⟨.region t.buf, t.off + k, 1⟩, List.mem_append_left _ ?_, hst, hcov⟩
        simp [Event.received, ht, hin]
      · exact absurd rfl h
    | _ => cases he

/-- A store of `l` to one array leaves the same at cell `i` of array `r`, if the same was there. -/
theorem cell_congr_store {m m' : Region → Bytes} {r₀ r : Region} {off i : ℕ} (l : List UInt8)
    (h : m r i = m' r i) : Function.update m r₀ (overlay (m r₀) off l) r i =
      Function.update m' r₀ (overlay (m' r₀) off l) r i := by
  rcases eq_or_ne r r₀ with rfl | hr
  · rw [Function.update_self, Function.update_self]
    exact overlay_congr h
  · rw [Function.update_of_ne hr, Function.update_of_ne hr, h]

/-- `d'` is `d` but for cells of the arrays that are not among those of `T`. -/
structure SameOn (T : Store → ℕ → Prop) (d d' : Device) : Prop where
  rest : ∀ c, d'.withCells c = d.withCells c
  cells : ∀ st i, T st i → d'.cell st i = d.cell st i

theorem SameOn.eq_withCells {T : Store → ℕ → Prop} {d d' : Device} (h : SameOn T d d') :
    d' = d.withCells d'.cell :=
  h.rest d'.cell

/-- The controller stores without a look at the arrays. -/
theorem sameOn_store {T : Store → ℕ → Prop} {d d' : Device} (h : SameOn T d d') (k : ℕ)
    (l : List UInt8) : SameOn T (controllerStore k l d) (controllerStore k l d') := by
  obtain ⟨c, rfl⟩ : ∃ c, d' = d.withCells c := ⟨_, h.eq_withCells⟩
  have hcells := h.cells
  rcases d with ⟨_, _, _, _, _, _, _, _, _, - | t⟩
  · exact ⟨fun _ => rfl, hcells⟩
  · refine ⟨fun _ => rfl, fun st i hin => ?_⟩
    have hcell := hcells st i hin
    cases st with
    | ring => exact hcell
    | region r => exact cell_congr_store (m := fun r => c (.region r)) l hcell

/-- What is handed over is read where it is said to be. -/
theorem slice_of_sameOn {T : Store → ℕ → Prop} {d d' : Device} (h : SameOn T d d') {r : Region}
    {off n : ℕ} (hT : ∀ i, off ≤ i → i < off + n → T (.region r) i) :
    slice (d'.mem r) off n = slice (d.mem r) off n :=
  slice_congr fun i hlo hhi => h.cells (.region r) i (hT i hlo hhi)

/-- A callback looks at nothing in the arrays but what it hands to the controller. -/
theorem irq_of_sameOn {b : Build} {T : Store → ℕ → Prop} {d d' : Device} {e : Event}
    (h : SameOn T d d') (he : e.isPass = false)
    (hT : ∀ io ∈ (step b d e).2, ∀ acc ∈ io.access, ∀ i, acc.off ≤ i → i < acc.off + acc.len →
      T acc.store i) :
    (step b d' e).2 = (step b d e).2 ∧ SameOn T (step b d e).1 (step b d' e).1 := by
  cases e with
  | outCallback pkt =>
    have hstore := sameOn_store h 0 pkt
    obtain ⟨c, hc⟩ : ∃ c, controllerStore 0 pkt d' = (controllerStore 0 pkt d).withCells c :=
      ⟨_, hstore.eq_withCells⟩
    rw [hc] at hstore
    simp only [step, hc]
    exact ⟨rfl, fun _ => rfl, hstore.cells⟩
  | dma k v =>
    have hin : inArmed k d' = inArmed k d := by
      rw [h.eq_withCells]
      rfl
    simp only [step, hin]
    split_ifs
    · exact ⟨trivial, sameOn_store h k [v]⟩
    · exact ⟨trivial, h⟩
  | inCallback =>
    have hread : slice (d'.mem d.writeBf.buffer) d.writeBf.flip.usbHalf.toNat
        d.writeBf.count.toNat = slice (d.mem d.writeBf.buffer) d.writeBf.flip.usbHalf.toNat
        d.writeBf.count.toNat :=
      slice_of_sameOn h (hT _ (List.mem_singleton_self _) _ (List.mem_singleton_self _))
    obtain ⟨c, rfl⟩ : ∃ c, d' = d.withCells c := ⟨_, h.eq_withCells⟩
    refine ⟨?_, fun _ => rfl, h.cells⟩
    exact congrArg (fun data => [Io.startWrite audioInpEp d.writeBf.buffer
      d.writeBf.flip.usbHalf.toNat d.writeBf.count data]) hread
  | inFbCallback =>
    have hbytes : ∀ f : Bytes, slice (overlay f 0 (feedbackBytes b d.curFeedbackRate)) 0
        (feedbackBytes b d.curFeedbackRate).length.toUInt32.toNat =
          feedbackBytes b d.curFeedbackRate := by
      intro f
      cases b <;> exact slice_overlay f 0 _
    obtain ⟨c, rfl⟩ : ∃ c, d' = d.withCells c := ⟨_, h.eq_withCells⟩
    simp only [step]
    split_ifs
    · refine ⟨?_, fun _ => rfl, fun st i hin => ?_⟩
      · simp only [usbdAudioInFbCallback, usbdEpStartWrite, Function.update_self]
        rw [hbytes]
        exact congrArg (fun data => [Io.startWrite _ _ _ _ data]) (hbytes _)
      · have hcell := h.cells st i hin
        cases st with
        | ring => exact hcell
        | region r => exact cell_congr_store (m := fun r => c (.region r)) _ hcell
    · exact ⟨rfl, h⟩
  | readPass | writePass | feedbackPass => cases he
  | openIntf intf =>
    obtain ⟨c, rfl⟩ : ∃ c, d' = d.withCells c := ⟨_, h.eq_withCells⟩
    simp only [step, usbdAudioOpen]
    split_ifs <;> exact ⟨rfl, fun _ => rfl, h.cells⟩
  | closeIntf intf =>
    obtain ⟨c, rfl⟩ : ∃ c, d' = d.withCells c := ⟨_, h.eq_withCells⟩
    simp only [step, usbdAudioClose]
    split_ifs <;> exact ⟨rfl, fun _ => rfl, h.cells⟩
  | setSamplingFreq entityId epCh freq =>
    obtain ⟨c, rfl⟩ : ∃ c, d' = d.withCells c := ⟨_, h.eq_withCells⟩
    simp only [step, usbdAudioSetSamplingFreq]
    cases b <;> simp only <;> split_ifs <;> exact ⟨trivial, fun _ => rfl, h.cells⟩

/-- STEP: of the arrays, a step looks at nothing but the cells in its list. Whatever the other cells
    hold, it makes the same calls, comes to the same place, changes the rest of the globals in the
    same way and leaves the same bytes in these cells. -/
theorem step_of_sameOn {b : Build} {a : Bool} {s : Fine} {d' : Device} {e : CpuEvent}
    (h : SameOn (s.Touches b e) s.dev d') :
    (Fine.step b a ⟨d', s.pc⟩ e).2 = (s.step b a e).2 ∧
      (Fine.step b a ⟨d', s.pc⟩ e).1.pc = (s.step b a e).1.pc ∧
      SameOn (s.Touches b e) (s.step b a e).1.dev (Fine.step b a ⟨d', s.pc⟩ e).1.dev := by
  obtain ⟨d, pc⟩ := s
  obtain ⟨c, rfl⟩ : ∃ c, d' = d.withCells c := ⟨_, h.eq_withCells⟩
  have hcells := h.cells
  cases e with
  | irq e he =>
    obtain ⟨hio, hsame⟩ := irq_of_sameOn (b := b) h he fun io hio acc hacc i hlo hhi =>
      ⟨acc, List.mem_append_right _ (List.mem_flatMap.mpr ⟨io, hio, hacc⟩), rfl, hlo, hhi⟩
    exact ⟨hio, rfl, hsame⟩
  | main =>
    cases pc with
    | padFirst | padSecond => exact ⟨rfl, rfl, fun _ => rfl, hcells⟩
    | plain pc =>
      cases pc with
      | rsCopy data end_ src n =>
        cases n with
        | zero => exact ⟨rfl, rfl, fun _ => rfl, hcells⟩
        | succ n =>
          have hsrc : c (.region d.readBf.buffer) src = d.mem d.readBf.buffer src :=
            hcells _ _ ⟨⟨.region d.readBf.buffer, src, 1⟩, by simp [Fine.accesses], rfl,
              Nat.le_refl _, Nat.lt_succ_self _⟩
          refine ⟨rfl, rfl, fun _ => rfl, fun st i hin => ?_⟩
          cases st with
          | region r => exact hcells _ i hin
          | ring =>
            change Function.update (c .ring) end_.toNat (c (.region d.readBf.buffer) src) i =
              Function.update d.outRb.buff end_.toNat (d.mem d.readBf.buffer src) i
            rw [hsrc, Function.update_apply, Function.update_apply]
            exact congrArg _ (hcells .ring i hin)
      | wsCopy data needLen ret start dst n =>
        cases n with
        | zero => exact ⟨rfl, rfl, fun _ => rfl, hcells⟩
        | succ n =>
          have hsrc : c .ring start.toNat = d.outRb.buff start.toNat :=
            hcells _ _ ⟨⟨.ring, start.toNat, 1⟩, by simp [Fine.accesses], rfl, Nat.le_refl _,
              Nat.lt_succ_self _⟩
          refine ⟨rfl, rfl, fun _ => rfl, fun st i hin => ?_⟩
          cases st with
          | ring => exact hcells _ i hin
          | region r =>
            have hcell : c (.region r) i = d.mem r i := hcells _ i hin
            change Function.update (fun r => c (.region r)) d.writeBf.buffer
              (Function.update (c (.region d.writeBf.buffer)) dst (c .ring start.toNat)) r i = _
            rw [hsrc]
            exact cell_congr_store [d.outRb.buff start.toNat] hcell
      | wsZero data needLen dst n =>
        cases n with
        | zero => exact ⟨rfl, rfl, fun _ => rfl, hcells⟩
        | succ n =>
          refine ⟨rfl, rfl, fun _ => rfl, fun st i hin => ?_⟩
          cases st with
          | ring => exact hcells _ i hin
          | region r =>
            have hcell : c (.region r) i = d.mem r i := hcells _ i hin
            exact cell_congr_store (m := fun r => c (.region r)) [0] hcell
      | rsHead data len =>
        have hfull : ringBufFull (d.withCells c).outRb = ringBufFull d.outRb := rfl
        simp only [Fine.step, fineStep, mainStep, hfull]
        split <;> exact ⟨trivial, rfl, fun _ => rfl, hcells⟩
      | wsHead data needLen =>
        have hempty : ringBufEmpty (d.withCells c).outRb = ringBufEmpty d.outRb := rfl
        simp only [Fine.step, fineStep, mainStep, hempty]
        split <;> exact ⟨trivial, rfl, fun _ => rfl, hcells⟩
      | _ => exact ⟨rfl, rfl, fun _ => rfl, hcells⟩

/-- What the bounds rest on: a packet fits the half it is received in, the size of the packets to
    send fits a half where it is looked up, and no `open(2)` comes between the load for the address
    and the load for the length. -/
def Bounded (b : Build) (addrFirst : Bool) (s : Fine) : CpuEvent → Prop
  | .main => ∀ data, s.pc = .plain (.wsNeed data) → FreqFits b s.dev.curInpFreq
  | .irq e _ => e.Fits b ∧ (addrFirst = true → e = .openIntf 2 →
      ∀ data needLen v, s.pc ≠ .padSecond data needLen v)

/-- One of the two loads has been made. -/
def FinePc.between : FinePc → Bool
  | .padSecond _ _ _ => true
  | _ => false

theorem between_iff {pc : FinePc} :
    pc.between = true ↔ ∃ data needLen v, pc = .padSecond data needLen v := by
  cases pc <;> simp [FinePc.between]

/-- The event opens interface `i`. -/
def Event.opens (i : UInt8) : Event → Bool
  | .openIntf intf => intf == i
  | _ => false

theorem opens_iff {i : UInt8} {e : Event} : e.opens i = true ↔ e = .openIntf i := by
  cases e <;> simp [Event.opens]

instance (b : Build) (addrFirst : Bool) (s : Fine) :
    (e : CpuEvent) → Decidable (Bounded b addrFirst s e)
  | .main =>
    decidable_of_iff (SizesFit b s.coarse .main) (by
      obtain ⟨d, pc⟩ := s
      cases pc <;> simp [SizesFit, Bounded, Fine.coarse])
  | .irq e _ =>
    decidable_of_iff (e.Fits b ∧ (addrFirst = true → e.opens 2 = true → ¬ s.pc.between = true))
      (by simp only [Bounded, opens_iff, between_iff, not_exists, ne_eq])

/-- `data` is the offset of a half of `write_buffer`, and `needLen` bytes fit it. -/
def Chosen (b : Build) (data : ℕ) (needLen : UInt32) : Prop :=
  data ≤ (audioInpPacketSz b).toNat ∧ needLen.toNat ≤ (audioInpPacketSz b).toNat

/-- Where the main loop is, the places it has chosen and the lengths it has loaded fit. -/
def FinePc.Fits (b : Build) (addrFirst : Bool) (count : UInt32) : FinePc → Prop
  | .plain pc => pc.Placed b
  | .padFirst data needLen => Chosen b data needLen ∧ count.toNat ≤ needLen.toNat
  | .padSecond data needLen v => Chosen b data needLen ∧ v.toNat ≤ needLen.toNat ∧
      (count = v ∨ count = 0 ∧ addrFirst = false)

/-- INVARIANT: what keeps every access in its array. -/
structure Safe (b : Build) (addrFirst : Bool) (s : Fine) : Prop where
  wired : Wired b s.dev
  armed : ∀ t, s.dev.armed = some t →
    t.off ≤ (audioOutPacketSz b).toNat ∧ t.len = audioOutPacketSz b
  readCount : s.dev.readBf.count ≤ audioOutPacketSz b
  writeCount : s.dev.writeBf.count ≤ audioInpPacketSz b
  ring : ∃ q, s.coarse.Carries q
  fits : s.pc.Fits b addrFirst s.dev.writeBf.count

theorem safe_start (b : Build) (addrFirst : Bool) : Safe b addrFirst (Fine.start b) where
  wired := wired_initial b
  armed := by
    intro t ht
    simp [Fine.start, initial, audioTestInit, static] at ht
  readCount := UInt32.zero_le
  writeCount := UInt32.zero_le
  ring := ⟨[], carries_start b⟩
  fits := (placed_start b).pc

/-! ### The main loop -/

theorem chosen_of_placed {b : Build} {data : ℕ} {needLen : UInt32}
    (h : (Pc.wsPad data needLen).Placed b) : Chosen b data needLen :=
  ⟨h.writeHalf data rfl, h.inHalf⟩

/-- What `memset` is given fits, if it begins behind `v` bytes of the packet and ends with it. -/
theorem placed_wsZero {b : Build} {data : ℕ} {needLen v w : UInt32} (h : Chosen b data needLen)
    (hw : w.toNat ≤ needLen.toNat) (hv : v.toNat ≤ w.toNat) :
    (Pc.wsZero data needLen (data + v.toNat) (needLen - w).toNat).Placed b where
  readHalf := by rintro _ ⟨⟩
  writeHalf := by
    rintro _ ⟨⟩
    exact h.1
  inHalf := by
    have hneed := h.2
    have hsub := UInt32.toNat_sub_of_le _ _ (UInt32.le_iff_toNat_le.mpr hw)
    exact ⟨hneed, Nat.le_add_right _ _, by omega⟩

/-- The length of the packet to send stays within a half. -/
theorem writeCount_main {b : Build} {d : Device} {pc : Pc}
    (hcount : d.writeBf.count ≤ audioInpPacketSz b) (h : pc.InHalf b) :
    (mainStep b d pc).1.writeBf.count ≤ audioInpPacketSz b := by
  cases pc with
  | wsCount data needLen ret =>
    obtain ⟨hneed, hret⟩ := h
    exact UInt32.le_iff_toNat_le.mpr (Nat.le_trans hret hneed)
  | wsZero data needLen dst k =>
    cases k with
    | zero => exact UInt32.le_iff_toNat_le.mpr h.1
    | succ k => exact hcount
  | rsHead data len => simp only [mainStep]; split <;> exact hcount
  | wsHead data needLen => simp only [mainStep]; split <;> exact hcount
  | rsCopy data end_ src k => cases k <;> exact hcount
  | wsCopy data needLen ret start dst k => cases k <;> exact hcount
  | _ => exact hcount

theorem fineStep_plain {b : Build} {a : Bool} {d : Device} {pc : Pc}
    (h : ∀ data needLen, pc ≠ .wsPad data needLen) :
    fineStep b a d (.plain pc) = ((mainStep b d pc).1, .plain (mainStep b d pc).2) := by
  cases pc with
  | wsPad data needLen => exact absurd rfl (h data needLen)
  | _ => rfl

theorem safe_main {b : Build} {a : Bool} {s : Fine} (h : Safe b a s) (hb : Bounded b a s .main) :
    Safe b a (s.step b a .main).1 := by
  obtain ⟨d, pc⟩ := s
  obtain ⟨hw, harmed, hread, hwrite, ⟨q, hq⟩, hfits⟩ := h
  cases pc with
  | padFirst data needLen =>
    exact ⟨hw, harmed, hread, hwrite, ⟨q, hq⟩, hfits.1, hfits.2, Or.inl rfl⟩
  | padSecond data needLen v =>
    obtain ⟨hchosen, hv, hcount⟩ := hfits
    dsimp only at hcount
    have hq' : ∀ pc : Pc, pc.copying = false → Cpu.Carries ⟨d, pc⟩ q := by
      intro pc hpc
      refine ⟨hq.size, ?_, canMove_of_not_copying hpc⟩
      rw [settled_of_not_copying hpc]
      exact hq.holds
    refine ⟨hw, harmed, hread, hwrite, ⟨q, ?_⟩, ?_⟩
    · simp only [Fine.step, fineStep, Fine.coarse]
      exact hq' _ (by split <;> rfl)
    · simp only [Fine.step, fineStep]
      split_ifs with ha
      · rcases hcount with rfl | ⟨-, hfalse⟩
        · exact placed_wsZero hchosen hv (Nat.le_refl _)
        · rw [ha] at hfalse
          cases hfalse
      · refine placed_wsZero hchosen hv ?_
        rcases hcount with rfl | ⟨h0, -⟩
        · exact Nat.le_refl _
        · rw [h0]
          exact Nat.zero_le _
  | plain pc =>
    by_cases hpc : ∃ data needLen, pc = .wsPad data needLen
    · obtain ⟨data, needLen, rfl⟩ := hpc
      by_cases hlt : d.writeBf.count < needLen
      · have hd : fineStep b a d (.plain (.wsPad data needLen)) = (d, .padFirst data needLen) := by
          rw [fineStep, if_pos hlt]
        rw [Fine.step, hd]
        exact ⟨hw, harmed, hread, hwrite, ⟨q, hq⟩, chosen_of_placed hfits,
          Nat.le_of_lt (UInt32.lt_iff_toNat_lt.mp hlt)⟩
      · have hd : fineStep b a d (.plain (.wsPad data needLen)) = (d, .plain (.load .tx)) := by
          rw [fineStep, if_neg hlt]
        rw [Fine.step, hd]
        exact ⟨hw, harmed, hread, hwrite, ⟨q, hq.size, hq.holds, trivial⟩,
          by rintro _ ⟨⟩, by rintro _ ⟨⟩, trivial⟩
    · have hne : ∀ data needLen, pc ≠ .wsPad data needLen :=
        fun data needLen heq => hpc ⟨data, needLen, heq⟩
      obtain ⟨-, ha, hbf, -⟩ := main_keeps b d pc
      obtain ⟨q', -, hq'⟩ := carries_main (b := b) hq
      rw [Fine.step, fineStep_plain hne]
      refine ⟨wired_main hw pc, ?_, ?_, writeCount_main hwrite hfits.inHalf, ⟨q', hq'⟩, ?_⟩
      · rw [ha]
        exact harmed
      · rw [hbf]
        exact hread
      · exact placed_main hw hfits hread fun data heq => hb data (congrArg _ heq)

/-! ### The callbacks -/

/-- A callback resets the count of `write_bf`, or leaves it alone. -/
theorem writeCount_irq {b : Build} {d : Device} {e : Event} (hw : Wired b d)
    (he : e.isPass = false) : (step b d e).1.writeBf.count = d.writeBf.count ∨
      e = .openIntf 2 ∧ (step b d e).1.writeBf.count = 0 := by
  have hne : e ≠ .writePass := by
    rintro rfl
    cases he
  change (step b d e).1.mic.bf.count = d.mic.bf.count ∨ _ ∧ (step b d e).1.mic.bf.count = 0
  rw [mic_step_of_ne hw hne []]
  cases e with
  | openIntf intf =>
    rcases eq_or_ne intf 2 with rfl | hi
    · exact Or.inr ⟨rfl, rfl⟩
    · exact Or.inl (by rw [Mic.step, if_neg hi])
  | closeIntf intf =>
    simp only [Mic.step]
    split_ifs <;> exact Or.inl rfl
  | writePass => cases he
  | _ => exact Or.inl rfl

/-- A callback arms halves of `read_buffer`. -/
theorem armed_irq {b : Build} {d : Device} {e : Event} (hw : Wired b d)
    (harmed : ∀ t, d.armed = some t →
      t.off ≤ (audioOutPacketSz b).toNat ∧ t.len = audioOutPacketSz b) :
    ∀ t, (step b d e).1.armed = some t →
      t.off ≤ (audioOutPacketSz b).toNat ∧ t.len = audioOutPacketSz b := by
  change ∀ t, (step b d e).1.speaker.armed = some t → _
  rw [(speaker_step hw e).1]
  have hhalf : d.speaker.bf.halfsize = audioOutPacketSz b := hw.readHalf
  cases e with
  | openIntf intf =>
    simp only [Speaker.step]
    split_ifs
    · rintro t ⟨⟩
      exact ⟨Nat.zero_le _, hhalf⟩
    · exact harmed
  | closeIntf intf =>
    simp only [Speaker.step]
    split_ifs <;> exact harmed
  | outCallback pkt =>
    simp only [Speaker.step, store_bf]
    rintro t ⟨⟩
    refine ⟨?_, hhalf⟩
    rw [flip_usbHalf]
    exact mainHalf_le hhalf
  | readPass =>
    simp only [Speaker.step]
    split_ifs <;> exact harmed
  | dma i v =>
    simp only [Speaker.step]
    split_ifs
    · rw [store_armed]
      exact harmed
    · exact harmed
  | _ => exact harmed

theorem safe_irq {b : Build} {a : Bool} {s : Fine} (h : Safe b a s) {e : Event}
    (he : e.isPass = false) (hb : Bounded b a s (.irq e he)) :
    Safe b a (s.step b a (.irq e he)).1 := by
  obtain ⟨d, pc⟩ := s
  obtain ⟨hw, harmed, hread, hwrite, ⟨q, hq⟩, hfits⟩ := h
  obtain ⟨hfit, hopen⟩ := hb
  have harmed' := armed_irq (e := e) hw harmed
  have hread' := readCount_irq hw he hfit hread
  obtain ⟨q', -, hq'⟩ := carries_step (b := b) hq (.irq e he)
  have hcoarse : (Fine.step b a ⟨d, pc⟩ (.irq e he)).1.coarse =
      ((Fine.coarse ⟨d, pc⟩).step b (.irq e he)).1 := by cases pc <;> rfl
  refine ⟨wired_step hw e, harmed', hread', ?_, ⟨q', hcoarse ▸ hq'⟩, ?_⟩
  · rcases writeCount_irq hw he with heq | ⟨-, h0⟩
    · exact heq ▸ hwrite
    · exact h0 ▸ UInt32.zero_le
  · change pc.Fits b a (step b d e).1.writeBf.count
    rcases writeCount_irq hw he with heq | ⟨he2, h0⟩
    · rw [heq]
      exact hfits
    · rw [h0]
      cases pc with
      | plain pc => cases pc <;> exact hfits
      | padFirst data needLen => exact ⟨hfits.1, Nat.zero_le _⟩
      | padSecond data needLen v =>
        refine ⟨hfits.1, hfits.2.1, Or.inr ⟨rfl, ?_⟩⟩
        by_contra ha
        exact hopen (by simpa using ha) he2 data needLen v rfl

/-! ### In bounds -/

/-- The index that a pass of a loop uses is one of the ring. -/
theorem slot_in_ring {s : Cpu} {q : List UInt8} (h : s.Carries q) {n : ℕ}
    (hn : n < outRbSize.toNat) :
    CircularIndex.slot outRbSize.toNat s.settled.start.toNat n + 1 ≤ outRbSize.toNat := by
  have hsize : s.settled.size = outRbSize := (settled_size s).trans h.size
  have hstart : s.settled.start.toNat < outRbSize.toNat := by
    rcases h.holds.start with hlt | h0
    · rw [hsize, UInt32.lt_iff_toNat_lt] at hlt
      exact hlt
    · rw [hsize] at h0
      exact absurd h0 (by decide)
  exact CircularIndex.slot_lt hstart (Nat.le_of_lt hn)

/-- STEP: what a step of the main loop touches lies in its array. -/
theorem inBounds_main {b : Build} {a : Bool} {s : Fine} (h : Safe b a s) :
    ∀ acc ∈ s.accesses b .main, acc.InBounds b := by
  obtain ⟨d, pc⟩ := s
  obtain ⟨hw, -, -, -, ⟨q, hq⟩, hfits⟩ := h
  have hreadBuf : d.readBf.buffer = .readBuffer := hw.readPtr
  have hwriteBuf : d.writeBf.buffer = .writeBuffer := hw.writePtr
  intro acc hacc
  cases pc with
  | padFirst data needLen => cases hacc
  | padSecond data needLen v => cases hacc
  | plain pc =>
    cases pc with
    | rsCopy data end_ src n =>
      cases n with
      | zero => cases hacc
      | succ n =>
        have hmove : q.length + (n + 1) ≤ outRbSize.toNat := hq.announced
        have hslot := slot_in_ring hq (n := q.length) (by omega)
        have hend := hq.holds.end_
        rw [settled_size, hq.size] at hend
        rcases List.mem_pair.mp hacc with rfl | rfl
        · simp only [Access.InBounds, hreadBuf, Store.size]
          exact reading_lt hfits rfl
        · rw [← hend] at hslot
          exact hslot
    | wsCopy data needLen ret start dst n =>
      cases n with
      | zero => cases hacc
      | succ n =>
        rcases List.mem_pair.mp hacc with rfl | rfl
        · exact slot_in_ring hq (n := 0) (by decide)
        · simp only [Access.InBounds, hwriteBuf, Store.size]
          exact writing_lt hfits rfl
    | wsZero data needLen dst n =>
      cases n with
      | zero => cases hacc
      | succ n =>
        cases List.mem_singleton.mp hacc
        simp only [Access.InBounds, hwriteBuf, Store.size]
        exact writing_lt hfits rfl
    | _ => cases hacc

/-- What a callback hands to the controller lies in its array. -/
theorem inBounds_transfer {b : Build} {d : Device} {e : Event} (hw : Wired b d)
    (hwrite : d.writeBf.count ≤ audioInpPacketSz b) (he : e.isPass = false) :
    ∀ io ∈ (step b d e).2, ∀ acc ∈ io.access, acc.InBounds b := by
  have hread : ∀ bf : DblBuffer, bf.buffer = .readBuffer → bf.halfsize = audioOutPacketSz b →
      ∀ off, off ≤ (audioOutPacketSz b).toNat →
      ∀ acc ∈ (Io.startRead audioOutEp bf.buffer off bf.halfsize).access, acc.InBounds b := by
    intro bf hbuf hhalf off hoff acc hacc
    cases List.mem_singleton.mp hacc
    simp only [Access.InBounds, hbuf, hhalf, Store.size]
    omega
  cases e with
  | openIntf intf =>
    simp only [step, usbdAudioOpen, usbdEpStartRead]
    split_ifs
    · exact List.forall_mem_singleton.mpr (hread _ hw.readPtr hw.readHalf 0 (Nat.zero_le _))
    · exact List.forall_mem_singleton.mpr (hread _ hw.readPtr hw.readHalf 0 (Nat.zero_le _))
    · simp
    · simp
  | closeIntf intf =>
    simp only [step, usbdAudioClose]
    split_ifs <;> simp
  | outCallback pkt =>
    obtain ⟨-, -, hbuf, hhalf⟩ := Layout.mk.inj
      ((layout_store 0 pkt d).trans (wired_iff.mp hw).1)
    refine List.forall_mem_singleton.mpr (hread { (controllerStore 0 pkt d).readBf with
      count := pkt.length.toUInt32 }.flip hbuf hhalf _ ?_)
    rw [flip_usbHalf]
    exact mainHalf_le hhalf
  | inCallback =>
    rw [step, inCallback_io hw]
    refine List.forall_mem_singleton.mpr fun acc hacc => ?_
    cases List.mem_singleton.mp hacc
    have hhalf : d.mic.bf.mainHalf.toNat ≤ (audioInpPacketSz b).toNat := mainHalf_le hw.writeHalf
    have hcount : d.mic.bf.count.toNat ≤ (audioInpPacketSz b).toNat :=
      UInt32.le_iff_toNat_le.mp hwrite
    simp only [Access.InBounds, Store.size]
    omega
  | inFbCallback =>
    simp only [step]
    split_ifs
    · refine List.forall_mem_singleton.mpr fun acc hacc => ?_
      cases List.mem_singleton.mp hacc
      cases b <;> simp [Access.InBounds, feedbackBytes, Store.size]
    · simp
  | setSamplingFreq entityId epCh freq => simp [step]
  | dma i v => simp [step]
  | _ => cases he

/-- STEP: what the controller has stored, and what a callback hands to it, lies in its array. -/
theorem inBounds_irq {b : Build} {a : Bool} {s : Fine} (h : Safe b a s) {e : Event}
    (he : e.isPass = false) (hb : Bounded b a s (.irq e he)) :
    ∀ acc ∈ s.accesses b (.irq e he), acc.InBounds b := by
  obtain ⟨d, pc⟩ := s
  obtain ⟨hw, harmed, -, hwrite, -, -⟩ := h
  obtain ⟨hfit, -⟩ := hb
  dsimp only at hw harmed hwrite
  intro acc hacc
  rcases List.mem_append.mp hacc with hrec | hio
  · -- stored by the controller
    have hstore : ∀ i n, i + n ≤ (audioOutPacketSz b).toNat →
        acc ∈ d.armed.toList.map (fun t => (⟨.region t.buf, t.off + i, n⟩ : Access)) →
        acc.InBounds b := by
      intro i n hle hmem
      obtain ⟨t, ht, rfl⟩ := List.mem_map.mp hmem
      have ha : d.armed = some t := by simpa using ht
      obtain ⟨hoff, -⟩ := harmed t ha
      simp only [Access.InBounds, hw.armed t ha, Store.size]
      omega
    cases e with
    | outCallback pkt =>
      refine hstore 0 pkt.length (by rw [Nat.zero_add]; exact hfit) hrec
    | dma i v =>
      simp only [Event.received] at hrec
      split_ifs at hrec with hin
      · refine hstore i 1 ?_ hrec
        simp only [inArmed] at hin
        rcases ha : d.armed with - | t
        · simp [ha] at hin
        · simp only [ha, Option.map_some, Option.getD_some, decide_eq_true_eq,
            (harmed t ha).2] at hin
          exact hin
      · cases hrec
    | _ => cases hrec
  · -- handed to it
    obtain ⟨io, hmem, hacc⟩ := List.mem_flatMap.mp hio
    exact inBounds_transfer hw hwrite he io hmem acc hacc

/-- CORRECT: in every interleaving of the callbacks with the accesses of the main loop, however they
    come, no access leaves its array: neither the bytes that the main loop copies and zeroes, nor
    what the controller stores and is told to send. It takes that packets fit, received ones and
    those asked for, and, where the address of `memset` is evaluated before its length, that no
    `open(2)` comes between the two loads. -/
theorem accesses_in_bounds (b : Build) (addrFirst : Bool) (es : List CpuEvent)
    (h : Along (Fine.step b addrFirst) (Bounded b addrFirst) (Fine.start b) es) :
    Along (Fine.step b addrFirst) (fun s e => ∀ acc ∈ s.accesses b e, acc.InBounds b)
      (Fine.start b) es := by
  refine along_of_invariant (I := Safe b addrFirst) ?_ ?_ (safe_start b addrFirst) h
  · rintro s (_ | ⟨e, he⟩) hs hb
    · exact safe_main hs hb
    · exact safe_irq hs he hb
  · rintro s (_ | ⟨e, he⟩) hs hb
    · exact inBounds_main hs
    · exact inBounds_irq hs he hb

/-- The microphone is opened, a packet of zeros is built for 96 kHz up to its first byte, and the
    interface is set again. -/
theorem accesses_in_bounds_reopened :
    let es : List CpuEvent := [.irq (.openIntf 2) rfl, .main, .main, .main, .main, .main, .main,
      .main, .main, .main, .main, .main, .main, .irq (.openIntf 2) rfl]
    Along (Fine.step .fs true) (fun s e => ∀ acc ∈ s.accesses .fs e, acc.InBounds .fs)
      (Fine.start .fs) es := by
  exact accesses_in_bounds .fs true _ (by decide)

/-- One byte is in the ring when the packet is padded, at 96 kHz. The microphone is opened again
    between the two loads, and `memset` is about to zero 576 bytes from the 577th byte of a buffer
    of 1152 on, one more than there are. -/
theorem memset_overrun :
    (final (Fine.step .fs true) (Fine.start .fs)
      ([.irq (.openIntf 1) rfl, .irq (.openIntf 2) rfl, .irq (.outCallback [7]) rfl] ++
        List.replicate 20 .main ++ [.irq (.openIntf 2) rfl, .main])).pc =
      .plain (.wsZero 576 576 577 576) ∧
    ¬ Access.InBounds .fs ⟨.region .writeBuffer, 577, 576⟩ := by
  constructor
  · rfl
  · simp only [Access.InBounds, Store.size]
    decide

/-! ### The two loads as one step -/

/-- No `open(2)` comes between the two loads. -/
def Unreset (s : Fine) : CpuEvent → Prop
  | .main => True
  | .irq e _ => e = .openIntf 2 → ∀ data needLen v, s.pc ≠ .padSecond data needLen v

/-- The coarser machine is still before its step, and the comparison would come out as it has. -/
def Matches (b : Build) (s : Fine) (t : Cpu) : Prop :=
  t = s.coarse ∧ Wired b s.dev ∧ match s.pc with
    | .plain _ => True
    | .padFirst _ needLen => s.dev.writeBf.count < needLen
    | .padSecond _ needLen v => s.dev.writeBf.count = v ∧ v < needLen

/-- STEP: the loads are no step of the coarser machine, and the call of `memset` is its step. -/
theorem matches_main {b : Build} {a : Bool} {s : Fine} {t : Cpu} (h : Matches b s t) :
    ∃ as : List CpuEvent, Matches b (s.step b a .main).1 (final (Cpu.step b) t as) ∧
      as.flatMap CpuEvent.callback = [] ∧ (outputs (Cpu.step b) t as).flatMap id = [] := by
  obtain ⟨d, pc⟩ := s
  obtain ⟨rfl, hw, hpc⟩ := h
  cases pc with
  | padFirst data needLen => exact ⟨[], ⟨rfl, hw, rfl, hpc⟩, rfl, rfl⟩
  | padSecond data needLen v =>
    obtain ⟨hv, hlt⟩ := hpc
    dsimp only at hv hlt
    subst hv
    refine ⟨[.main], ⟨?_, hw, ?_⟩, rfl, rfl⟩
    · simp only [final_cons, final_nil, Fine.coarse, Cpu.step, Fine.step, fineStep, mainStep,
        if_pos hlt]
      split <;> rfl
    · simp only [Fine.step, fineStep]
  | plain pc =>
    by_cases hpad : ∃ data needLen, pc = .wsPad data needLen
    · obtain ⟨data, needLen, rfl⟩ := hpad
      by_cases hlt : d.writeBf.count < needLen
      · refine ⟨[], ?_, rfl, rfl⟩
        rw [Fine.step, fineStep, if_pos hlt]
        exact ⟨rfl, hw, hlt⟩
      · refine ⟨[.main], ?_, rfl, rfl⟩
        rw [Fine.step, fineStep, if_neg hlt]
        refine ⟨?_, hw, trivial⟩
        simp only [final_cons, final_nil, Fine.coarse, Cpu.step, mainStep, if_neg hlt]
    · refine ⟨[.main], ?_, rfl, rfl⟩
      rw [Fine.step, fineStep_plain fun data needLen heq => hpad ⟨data, needLen, heq⟩]
      exact ⟨rfl, wired_main hw pc, trivial⟩

/-- STEP: a callback is the same step of both machines. -/
theorem matches_irq {b : Build} {a : Bool} {s : Fine} {t : Cpu} (h : Matches b s t) {e : Event}
    (he : e.isPass = false) (hu : Unreset s (.irq e he)) :
    Matches b (s.step b a (.irq e he)).1 (t.step b (.irq e he)).1 ∧
      (t.step b (.irq e he)).2 = (s.step b a (.irq e he)).2 := by
  obtain ⟨d, pc⟩ := s
  obtain ⟨rfl, hw, hpc⟩ := h
  have hdev : (Fine.coarse ⟨d, pc⟩).dev = d := by cases pc <;> rfl
  refine ⟨⟨by cases pc <;> rfl, wired_step hw e, ?_⟩, by simp only [Cpu.step, Fine.step, hdev]⟩
  cases pc with
  | plain pc => trivial
  | padFirst data needLen =>
    have hlt : d.writeBf.count < needLen := hpc
    change (step b d e).1.writeBf.count < needLen
    rcases writeCount_irq hw he with heq | ⟨-, h0⟩
    · exact heq ▸ hlt
    · rw [h0]
      exact UInt32.lt_of_le_of_lt UInt32.zero_le hlt
  | padSecond data needLen v =>
    obtain ⟨hv, hlt⟩ := hpc
    refine ⟨?_, hlt⟩
    change (step b d e).1.writeBf.count = v
    rcases writeCount_irq hw he with heq | ⟨he2, -⟩
    · exact heq.trans hv
    · exact absurd rfl (hu he2 data needLen v)

theorem matches_step {b : Build} {a : Bool} {s : Fine} {t : Cpu} {e : CpuEvent}
    (h : Matches b s t) (hu : Unreset s e) : ∃ as : List CpuEvent,
      Matches b (s.step b a e).1 (final (Cpu.step b) t as) ∧
      as.flatMap CpuEvent.callback = e.callback ∧
      (outputs (Cpu.step b) t as).flatMap id = id (s.step b a e).2 := by
  cases e with
  | main => exact matches_main h
  | irq e he =>
    obtain ⟨h', hout⟩ := matches_irq (a := a) h he hu
    exact ⟨[.irq e he], h', rfl, by simpa using hout⟩

/-- REFINEMENT: in every run in which no `open(2)` comes between the two loads, the comparison and
    the loads are as good as one step, in whichever order the arguments are evaluated: the coarser
    machine, given the same callbacks, starts the same transfers and comes to the same state. -/
theorem loads_are_atomic (b : Build) (addrFirst : Bool) (es : List CpuEvent)
    (h : Along (Fine.step b addrFirst) Unreset (Fine.start b) es) : ∃ as : List CpuEvent,
      as.flatMap CpuEvent.callback = es.flatMap CpuEvent.callback ∧
      (outputs (Cpu.step b) (Cpu.start b) as).flatten =
        (outputs (Fine.step b addrFirst) (Fine.start b) es).flatten ∧
      final (Cpu.step b) (Cpu.start b) as =
        (final (Fine.step b addrFirst) (Fine.start b) es).coarse := by
  have hstart : Matches b (Fine.start b) (Cpu.start b) := ⟨rfl, wired_initial b, trivial⟩
  obtain ⟨as, ⟨hfinal, -⟩, hkeys, houts⟩ :=
    stuttering h hstart fun _ _ _ hmatches hu => matches_step hmatches hu
  exact ⟨as, hkeys, by simpa [List.flatMap_def] using houts, hfinal⟩

/-- The microphone is opened again while a packet of zeros is built, before either load. -/
theorem loads_are_atomic_reopened :
    let es : List CpuEvent := [.irq (.openIntf 2) rfl] ++ List.replicate 9 .main ++
      [.irq (.openIntf 2) rfl, .main, .main, .main]
    ∃ as : List CpuEvent, as.flatMap CpuEvent.callback = es.flatMap CpuEvent.callback ∧
      (outputs (Cpu.step .fs) (Cpu.start .fs) as).flatten =
        (outputs (Fine.step .fs false) (Fine.start .fs) es).flatten ∧
      final (Cpu.step .fs) (Cpu.start .fs) as =
        (final (Fine.step .fs false) (Fine.start .fs) es).coarse := by
  refine loads_are_atomic .fs false _ ⟨?_, trivial, trivial, trivial, trivial, trivial, trivial,
    trivial, trivial, trivial, ?_, trivial, trivial, trivial, trivial⟩
  · rintro - data needLen v ⟨⟩
  · rintro - data needLen v ⟨⟩

end AudioCard
