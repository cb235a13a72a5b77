import AudioCard.MicBounds

/-! The ends of speaker sessions, with the test of `open_flag` and the call of `read_samples` as two
    steps.

    `close(1)` may come between the two. It clears the busy bit, which `read_samples` takes for a
    packet to drain; what it finds is the latest packet, of a session that is over: once more, or
    for the first time. `Poll` keeps account of the latest packet, and `packets_once_iff` says that
    a late call is the only way in which a packet is queued again or after its session. -/

namespace AudioCard
open Segment Flags Run

/-- The latest packet since the last `open(1)`, whether a `close(1)` has come since that `open(1)`,
    and whether the packet has been given to `ring_buf_write`. Before the first `open(1)` there is
    no session, as after a `close(1)`. -/
structure Latest where
  packet : Option (List UInt8)
  ended : Bool
  passed : Bool

def Latest.step (l : Latest) : Event → Latest
  | .openIntf intf => if intf = 1 then ⟨none, false, false⟩ else l
  | .closeIntf intf => if intf = 1 then { l with ended := true } else l
  | .outCallback pkt => { l with packet := some pkt, passed := false }
  | _ => l

/-- The card and its main loop: `due` after a test that found the speaker open, when the call of
    `read_samples` comes next. -/
structure Poll where
  dev : Device
  due : Bool
  latest : Latest

/-- The next step of the main loop, a test or a call; or any other event, which may come between the
    two. -/
inductive PollEvent
  | main
  | other (e : Event) (h : e ≠ .readPass)

def Poll.step (b : Build) (s : Poll) : PollEvent → Poll × List Io
  | .main =>
    if s.due then
      let r := readSamples s.dev
      (⟨r.1, false, { s.latest with passed := s.latest.passed || (drained r.2).isSome }⟩, r.2)
    else ({ s with due := isSet s.dev.openFlag EpFlag.rx.mask }, [])
  | .other e _ =>
    let r := AudioCard.step b s.dev e
    (⟨r.1, s.due, s.latest.step e⟩, r.2)

def Poll.start (b : Build) : Poll := ⟨initial b, false, none, true, false⟩

/-- A packet received or built fits its half. -/
def PollEvent.Fits (b : Build) (s : Poll) : PollEvent → Prop
  | .main => True
  | .other e _ => PacketsFit b s.dev e

instance (b : Build) (s : Poll) : (e : PollEvent) → Decidable (e.Fits b s)
  | .main => inferInstanceAs (Decidable True)
  | .other e _ => inferInstanceAs (Decidable (PacketsFit b s.dev e))

/-- A `ring_buf_write` of `read_samples` is given the latest packet, for the first time and with no
    `close(1)` since the `open(1)` of its session; it is given nothing when there is no packet since
    `open(1)`. -/
def Once (b : Build) (s : Poll) (e : PollEvent) : Prop :=
  ∀ data, drained (s.step b e).2 = some data →
    match s.latest.packet with
    | none => data = []
    | some pkt => data = pkt ∧ s.latest.ended = false ∧ s.latest.passed = false

/-- A call comes while the speaker is open, or with no packet since the last `open(1)`. -/
def InTime (s : Poll) (e : PollEvent) : Prop :=
  e = .main → s.due = true →
    isSet s.dev.openFlag EpFlag.rx.mask = true ∨ s.latest.packet = none

/-- A test and its call, with nothing in between, are the pass of the main loop. -/
theorem test_call {b : Build} {s : Poll} (h : s.due = false) :
    (final (Poll.step b) s
      (.main :: if isSet s.dev.openFlag EpFlag.rx.mask then [.main] else [])).dev =
        (readPass s.dev).1 := by
  rw [readPass]
  split_ifs with hopen
  · simp [Poll.step, h, hopen]
  · simp [Poll.step, h]

/-! ### The account -/

/-- What the speaker stream holds of the latest packet. -/
structure Speaker.Tracks (b : Build) (s : Speaker) (due : Bool) (l : Latest) : Prop where
  half : s.bf.halfsize = audioOutPacketSz b
  armed : ∀ t, s.armed = some t → t.off = s.bf.usbHalf.toNat ∧ t.len = s.bf.halfsize
  isArmed : s.opened = true ∨ due = true → s.armed.isSome = true
  unsent : l.packet = none → s.bf.count = 0
  count : ∀ pkt, l.packet = some pkt →
    s.bf.count.toNat = pkt.length ∧ pkt.length ≤ s.bf.halfsize.toNat
  bytes : ∀ pkt, l.packet = some pkt → s.opened = true ∨ due = true →
    slice s.bytes s.bf.mainHalf.toNat pkt.length = pkt
  waiting : s.opened = true → s.busy = false → l.packet.isSome = true
  session : l.ended = !s.opened
  fresh : s.busy = false → l.ended = false → l.passed = false
  late : due = true → s.opened = false → s.busy = false

theorem tracks_initial (b : Build) :
    (initial b).speaker.Tracks b false ⟨none, true, false⟩ where
  half := rfl
  armed := by intro t ht; simp [Device.speaker, initial, audioTestInit, static] at ht
  isArmed := by simp [Device.speaker, initial, audioTestInit, static]
  unsent := fun _ => rfl
  count := by intro pkt h; cases h
  bytes := by intro pkt h; cases h
  waiting := by simp [Device.speaker, initial, audioTestInit, static]
  session := by simp [Device.speaker, initial, audioTestInit, static]
  fresh := fun _ _ => rfl
  late := by intro h; cases h

/-- The test. -/
theorem tracks_test {b : Build} {s : Speaker} {l : Latest} (h : s.Tracks b false l) :
    s.Tracks b s.opened l where
  half := h.half
  armed := h.armed
  isArmed := fun ho => h.isArmed (Or.inl (or_self_iff.mp ho))
  unsent := h.unsent
  count := h.count
  bytes := fun pkt hp ho => h.bytes pkt hp (Or.inl (or_self_iff.mp ho))
  waiting := h.waiting
  session := h.session
  fresh := h.fresh
  late := fun ho hc => absurd (ho.symm.trans hc) (by simp)

/-- The call. -/
theorem tracks_call {b : Build} {s : Speaker} {due : Bool} {l : Latest} (h : s.Tracks b due l)
    (passed : Bool) :
    ({ s with busy := true } : Speaker).Tracks b false { l with passed := passed } where
  half := h.half
  armed := h.armed
  isArmed := fun ho => h.isArmed (Or.inl (ho.resolve_right (by simp)))
  unsent := h.unsent
  count := h.count
  bytes := fun pkt hp ho => h.bytes pkt hp (Or.inl (ho.resolve_right (by simp)))
  waiting := fun _ hb => by cases hb
  session := h.session
  fresh := fun hb => by cases hb
  late := fun hd => by cases hd

/-- Any other event. -/
theorem tracks_other {b : Build} {s : Speaker} {due : Bool} {l : Latest} (h : s.Tracks b due l)
    {e : Event} (hr : e ≠ .readPass) (he : e.Fits b) :
    (s.step e).1.Tracks b due (l.step e) := by
  cases e with
  | openIntf intf =>
    simp only [Speaker.step, Latest.step]
    split_ifs
    · refine ⟨h.half, ?_, fun _ => rfl, fun _ => rfl, fun pkt hp => (by cases hp),
        fun pkt hp => (by cases hp), fun _ hb => (by cases hb), rfl, fun _ _ => rfl,
        fun _ hc => (by cases hc)⟩
      rintro t ⟨⟩
      exact ⟨rfl, rfl⟩
    · exact h
  | closeIntf intf =>
    simp only [Speaker.step, Latest.step]
    split_ifs
    · refine ⟨h.half, h.armed, ?_, h.unsent, h.count, ?_, fun ho => (by cases ho), rfl,
        fun _ he => (by cases he), fun _ _ => rfl⟩
      · rintro (ho | hd)
        · cases ho
        · exact h.isArmed (Or.inr hd)
      · rintro pkt hp (ho | hd)
        · cases ho
        · exact h.bytes pkt hp (Or.inr hd)
    · exact h
  | outCallback pkt =>
    simp only [Speaker.step, Latest.step, store_bf, store_opened]
    refine ⟨h.half, ?_, fun _ => rfl, fun hp => (by cases hp), ?_, ?_, fun _ _ => rfl, h.session,
      fun _ _ => rfl, fun _ _ => rfl⟩
    · rintro t ⟨⟩
      exact ⟨rfl, rfl⟩
    · rintro pkt' ⟨⟩
      have hsize := s.bf.halfsize.toNat_lt
      have hlen : pkt.length ≤ s.bf.halfsize.toNat := by rw [h.half]; exact he
      refine ⟨?_, hlen⟩
      simp only [Nat.toUInt32_eq]
      exact Nat.mod_eq_of_lt (by omega)
    · rintro pkt' ⟨⟩ hlive
      rcases Option.isSome_iff_exists.mp (h.isArmed hlive) with ⟨t, ht⟩
      rw [flip_mainHalf, store_bytes ht, (h.armed t ht).1]
      exact slice_overlay _ _ _
  | dma i v =>
    simp only [Speaker.step, Latest.step]
    split_ifs with hi
    · refine ⟨by simpa using h.half, by simpa using h.armed, by simpa using h.isArmed,
        by simpa using h.unsent, by simpa using h.count, ?_, by simpa using h.waiting,
        by simpa using h.session, by simpa using h.fresh, by simpa using h.late⟩
      intro pkt hp hlive
      rw [store_opened] at hlive
      rw [store_bf, slice_store_dma h.armed (h.count pkt hp).2 hi]
      exact h.bytes pkt hp hlive
    · exact h
  | readPass => exact absurd rfl hr
  | _ => exact h

/-! ### The card -/

/-- The account is right. -/
structure Poll.Inv (b : Build) (s : Poll) : Prop where
  wired : Wired b s.dev
  tracks : s.dev.speaker.Tracks b s.due s.latest

theorem inv_start (b : Build) : (Poll.start b).Inv b := ⟨wired_initial b, tracks_initial b⟩

theorem inv_step {b : Build} (s : Poll) (e : PollEvent) (h : s.Inv b) (he : e.Fits b s) :
    (s.step b e).1.Inv b := by
  rcases h with ⟨hw, ht⟩
  cases e with
  | main =>
    cases hd : s.due with
    | true =>
      rw [Poll.step, if_pos hd]
      refine ⟨wired_readSamples hw, ?_⟩
      rw [(speaker_readSamples hw).1]
      exact tracks_call ht _
    | false =>
      rw [Poll.step, if_neg (by simp [hd])]
      rw [hd] at ht
      exact ⟨hw, tracks_test ht⟩
  | other e hr =>
    refine ⟨wired_step hw e, ?_⟩
    change (step b s.dev e).1.speaker.Tracks b s.due (s.latest.step e)
    rw [(speaker_step hw e).1]
    exact tracks_other ht hr he.1

/-- In one state: what a call queues is the latest packet, for the first time and in its session,
    exactly when the call is in time. -/
theorem once_iff {b : Build} {s : Poll} (h : s.Inv b) (e : PollEvent) :
    Once b s e ↔ InTime s e := by
  rcases h with ⟨hw, ht⟩
  cases e with
  | other e hr =>
    constructor
    · intro _ he
      cases he
    · intro _ data hdata
      have hnone := (speaker_step hw e).2.trans (speaker_out_eq_none s.dev.speaker hr)
      cases hnone.symm.trans hdata
  | main =>
    cases hd : s.due with
    | false =>
      constructor
      · intro _ _ hdue
        exact absurd (hdue.symm.trans hd) (by simp)
      · intro _ data hdata
        rw [Poll.step, if_neg (by simp [hd])] at hdata
        cases hdata
    | true =>
      rw [hd] at ht
      have hout : drained (s.step b .main).2 = if s.dev.speaker.busy then none
          else some (slice s.dev.speaker.bytes s.dev.readBf.mainHalf.toNat
            s.dev.readBf.count.toNat) := by
        rw [Poll.step, if_pos hd]
        exact (speaker_readSamples hw).2
      constructor
      · -- a late call finds the busy bit clear, and queues the packet
        intro honce _ _
        by_contra hlate
        simp only [not_or] at hlate
        rcases hlate with ⟨hopen, hpacket⟩
        rcases Option.ne_none_iff_exists'.mp hpacket with ⟨pkt, hpkt⟩
        have hclosed : s.dev.speaker.opened = false := Bool.eq_false_iff.mpr hopen
        have hbusy := ht.late rfl hclosed
        rw [hbusy, if_neg (by simp)] at hout
        have := honce _ hout
        rw [hpkt] at this
        exact absurd this.2.1 (by simp [ht.session, hclosed])
      · intro htime data hdata
        rw [hout] at hdata
        cases hbusy : s.dev.speaker.busy with
        | true => rw [hbusy, if_pos rfl] at hdata; cases hdata
        | false =>
          rw [hbusy, if_neg (by simp)] at hdata
          cases hdata
          cases hpkt : s.latest.packet with
          | none =>
            have hcount : s.dev.readBf.count = 0 := ht.unsent hpkt
            simp [hcount]
          | some pkt =>
            have hended : s.latest.ended = false := by
              rcases htime rfl hd with hopen | hnone
              · have hopen' : s.dev.speaker.opened = true := hopen
                simp [ht.session, hopen']
              · exact absurd (hpkt.symm.trans hnone) (by simp)
            have hcount : s.dev.readBf.count.toNat = pkt.length := (ht.count pkt hpkt).1
            rw [hcount]
            exact ⟨ht.bytes pkt hpkt (Or.inr rfl), hended, ht.fresh hbusy hended⟩

/-! ### What the condition says of a whole run -/

/-- The packet that the event reports. -/
def PollEvent.packet : PollEvent → Option (List UInt8)
  | .other (.outCallback pkt) _ => some pkt
  | _ => none

/-- The latest packet, as long as it has not been queued. -/
def Latest.waiting (l : Latest) : List (List UInt8) := if l.passed then [] else l.packet.toList

theorem waiting_step (l : Latest) {e : Event} (h : e ≠ .readPass) :
    (l.step e).waiting.Sublist (l.waiting ++ (PollEvent.other e h).packet.toList) := by
  cases e with
  | openIntf intf =>
    simp only [Latest.step]
    split_ifs
    · exact List.nil_sublist _
    · exact List.sublist_append_left _ _
  | closeIntf intf =>
    simp only [Latest.step]
    split_ifs
    · exact List.sublist_append_left _ _
    · exact List.sublist_append_left _ _
  | outCallback pkt => exact List.sublist_append_right _ _
  | _ => exact List.sublist_append_left _ _

/-- A step of the main loop that is in time queues the packet that waits, or no bytes. -/
theorem waiting_main {b : Build} {s : Poll} (h : Once b s .main) :
    ((drained (s.step b .main).2).toList.filter (· ≠ []) ++
      (s.step b .main).1.latest.waiting).Sublist s.latest.waiting := by
  by_cases hdue : s.due = true
  · have hstep : s.step b .main = (⟨(readSamples s.dev).1, false, { s.latest with
        passed := s.latest.passed || (drained (readSamples s.dev).2).isSome }⟩,
        (readSamples s.dev).2) := if_pos hdue
    rw [Once, hstep] at h
    rw [hstep]
    simp only [Latest.waiting]
    cases hout : drained (readSamples s.dev).2 with
    | none => simp
    | some data =>
      have hdata := h data hout
      cases hpkt : s.latest.packet with
      | none =>
        rw [hpkt] at hdata
        simp [show data = [] from hdata]
      | some pkt =>
        rw [hpkt] at hdata
        rcases hdata with ⟨rfl, -, hpassed⟩
        rw [hpassed, Option.isSome_some, Bool.or_true, if_pos rfl, List.append_nil]
        exact List.filter_sublist
  · rw [Poll.step, if_neg hdue]
    exact List.Sublist.refl _

theorem filterMap_cons_toList {α β : Type*} (f : α → Option β) (a : α) (l : List α) :
    (a :: l).filterMap f = (f a).toList ++ l.filterMap f := by
  cases h : f a <;> simp [h]

/-- Leaving calls with no bytes aside, the packets queued are packets received, in their order and
    none of them twice. -/
theorem queued_sublist {b : Build} (es : List PollEvent) {s : Poll} (hI : s.Inv b)
    (hfit : Along (Poll.step b) (fun s e => e.Fits b s) s es)
    (honce : Along (Poll.step b) (Once b) s es) :
    (((outputs (Poll.step b) s es).filterMap drained).filter (· ≠ [])).Sublist
      (s.latest.waiting ++ es.filterMap PollEvent.packet) := by
  induction es generalizing s with
  | nil => exact List.nil_sublist _
  | cons e es ih =>
    have ih := ih (inv_step s e hI hfit.1) hfit.2 honce.2
    have hstep : ((drained (s.step b e).2).toList.filter (· ≠ []) ++
        (s.step b e).1.latest.waiting).Sublist (s.latest.waiting ++ e.packet.toList) := by
      cases e with
      | main => exact (waiting_main honce.1).trans (List.sublist_append_left _ _)
      | other e hr =>
        have hnone := (speaker_step hI.wired e).2.trans (speaker_out_eq_none s.dev.speaker hr)
        have hout : drained (s.step b (.other e hr)).2 = none := hnone
        rw [hout]
        exact waiting_step s.latest hr
    rw [outputs_cons, filterMap_cons_toList, filterMap_cons_toList, List.filter_append,
      ← List.append_assoc]
    have hrest := ih.append_left ((drained (s.step b e).2).toList.filter (· ≠ []))
    rw [← List.append_assoc] at hrest
    exact hrest.trans (hstep.append_right _)

/-! ### Late calls -/

/-- EXACT: in every run, with any number of sessions, each `ring_buf_write` of `read_samples` is
    given the latest packet, for the first time and in its session, or nothing, if and only if no
    call comes when the speaker is closed and a packet has come since the last `open(1)`. -/
theorem packets_once_iff (b : Build) (es : List PollEvent)
    (hfit : Along (Poll.step b) (fun s e => e.Fits b s) (.start b) es) :
    Along (Poll.step b) (Once b) (.start b) es ↔ Along (Poll.step b) InTime (.start b) es :=
  along_congr inv_step (fun _ e hI _ => once_iff hI e) (inv_start b) hfit

/-- Two sessions: in the first the call is late, but no packet has come; in the second it is in
    time. -/
theorem packets_once_iff_sessions :
    let es : List PollEvent := [.other (.openIntf 1) nofun, .main, .other (.closeIntf 1) nofun,
      .main, .other (.openIntf 1) nofun, .other (.outCallback [1, 2]) nofun, .main, .main]
    Along (Poll.step .fs) (Once .fs) (.start .fs) es := by
  intro es
  refine (packets_once_iff .fs es (by decide)).mpr ?_
  refine ⟨nofun, ?_, nofun, ?_, nofun, nofun, ?_, ?_, trivial⟩
  · intro _ hdue
    cases hdue
  · exact fun _ _ => Or.inr rfl
  · intro _ hdue
    cases hdue
  · exact fun _ _ => Or.inl (by decide)

/-- A packet completed after `close(1)` is queued too, when the test came before. -/
example : (Run.outputs (Poll.step .fs) (.start .fs) [.other (.openIntf 1) nofun, .main,
    .other (.closeIntf 1) nofun, .other (.outCallback [9, 8, 7]) nofun, .main]).map drained =
      [none, none, none, none, some [9, 8, 7]] := by decide

/-- The packet has been drained; then the test, `close(1)`, and the call, which drains it once
    more. -/
theorem packet_queued_after_close :
    let pre : List PollEvent := [.other (.openIntf 1) nofun, .other (.outCallback [1, 2]) nofun,
      .main, .main, .main, .other (.closeIntf 1) nofun]
    (Run.outputs (Poll.step .fs) (.start .fs) (pre ++ [.main])).map drained =
        [none, none, none, some [1, 2], none, none, some [1, 2]] ∧
      ¬ Along (Poll.step .fs) (Once .fs) (.start .fs) (pre ++ [.main]) := by
  intro pre
  constructor
  · decide
  · rw [along_concat]
    rintro ⟨-, honce⟩
    exact absurd (honce [1, 2] (by decide)).2.1 (by decide)

end AudioCard
