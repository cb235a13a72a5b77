import AudioCard.Streams

/-! What the host's requests do to the sessions of the three endpoints.

    `open(i)` names the interfaces 1 and 2 and ignores every other one. `close(i)` names interface 1
    only: a close of anything else, the control interface 0 among them, ends the microphone's
    session. `SparesMic`, on the requests, is the exact condition under which this does not show. -/

namespace AudioCard
open Flags Run

/-- The interface that an endpoint belongs to: 1 is the speaker, 2 the microphone. -/
def EpFlag.intf : EpFlag → UInt8
  | .tx => 2
  | .rx => 1
  | .fb => 1

/-- The session state of one endpoint: its bits in the two flag bytes, and its double buffer. -/
structure Session where
  opened : Bool
  busy : Bool
  bf : Option DblBuffer

def Device.session (d : Device) (f : EpFlag) : Session where
  opened := isSet d.openFlag f.mask
  busy := isSet d.epBusyFlag f.mask
  bf := match f with
    | .tx => some d.writeBf
    | .rx => some d.readBf
    | .fb => none

/-- The interface that a request names. -/
def Event.request : Event → Option UInt8
  | .openIntf intf => some intf
  | .closeIntf intf => some intf
  | _ => none

def Event.isOpen : Event → Bool
  | .openIntf _ => true
  | _ => false

/-- What the host wants of interface `i` after one more event. -/
def wantedStep (i : UInt8) (w : Bool) (e : Event) : Bool :=
  if e.request = some i then e.isOpen else w

/-- The last request naming interface `i` was an open. -/
def wanted (i : UInt8) (es : List Event) : Bool := es.foldl (wantedStep i) false

@[simp] theorem wanted_concat (i : UInt8) (es : List Event) (e : Event) :
    wanted i (es ++ [e]) = wantedStep i (wanted i es) e := by
  simp [wanted, List.foldl_append]

/-- Along the run `es` the two streams follow the requests, each its own. -/
structure FollowsRequests (b : Build) (es : List Event) : Prop where
  speaker : ∀ pre post, es = pre ++ post →
    ((final (step b) (initial b) pre).session .rx).opened = wanted 1 pre
  mic : ∀ pre post, es = pre ++ post →
    ((final (step b) (initial b) pre).session .tx).opened = wanted 2 pre
  frame : ∀ pre e post intf, es = pre ++ e :: post → e.request = some intf →
    ∀ f, EpFlag.intf f ≠ intf → let d := final (step b) (initial b) pre
      (step b d e).1.session f = d.session f

/-- A close of some other interface comes when the last request naming interface 2 was no open. -/
def SparesMic (pre : List Event) (e : Event) : Prop :=
  ∀ intf, e = .closeIntf intf → intf ≠ 1 → intf ≠ 2 → wanted 2 pre = false

/-- The same for the card: the microphone has no session to lose. -/
def SparesSession (d : Device) (e : Event) : Prop :=
  ∀ intf, e = .closeIntf intf → intf ≠ 1 → intf ≠ 2 →
    (d.session .tx).opened = false ∧ (d.session .tx).busy = false

/-! ### One event -/

/-- Nothing but a request opens or closes a session. -/
theorem opened_step_of_not_request {b : Build} {d : Device} {e : Event} (h : e.request = none)
    (f : EpFlag) : ((step b d e).1.session f).opened = (d.session f).opened := by
  have hopen : (d.flags.step b e).openFlag = d.openFlag := by
    cases e with
    | openIntf intf => cases h
    | closeIntf intf => cases h
    | inFbCallback =>
      rw [FlagBytes.step]
      split_ifs <;> rfl
    | readPass => exact pass_openFlag d.flags .rx
    | writePass => exact pass_openFlag d.flags .tx
    | feedbackPass =>
      rw [FlagBytes.step]
      split_ifs
      · exact pass_openFlag d.flags .fb
      · rfl
    | _ => rfl
  rw [← flags_step] at hopen
  exact congrArg (isSet · f.mask) hopen

/-- `open(i)` sets the bit of its own stream and touches no other. -/
theorem session_open {b : Build} {d : Device} {intf : UInt8} (f : EpFlag) :
    (f.intf = intf → f ≠ .fb → ((step b d (.openIntf intf)).1.session f).opened = true) ∧
      (f.intf ≠ intf → (step b d (.openIntf intf)).1.session f = d.session f) := by
  simp only [step, usbdAudioOpen]
  rcases eq_or_ne intf 1 with rfl | h1
  · cases b <;> cases f <;> simp [EpFlag.intf, Device.session, usbdEpStartRead, Build.hasFeedback]
  · rcases eq_or_ne intf 2 with rfl | h2
    · cases f <;> simp [EpFlag.intf, Device.session]
    · rw [if_neg h1, if_neg h2]
      refine ⟨fun h hfb => ?_, fun _ => rfl⟩
      cases f with
      | tx => exact absurd h.symm h2
      | rx => exact absurd h.symm h1
      | fb => exact absurd rfl hfb

/-- `close(i)` clears the bits of its own stream; of the others it leaves the speaker's and the
    feedback's as they are, and the microphone's too if `i` is 1 or they are clear already. -/
theorem session_close {b : Build} {d : Device} {intf : UInt8} (f : EpFlag) :
    (f.intf = intf → f ≠ .fb → ((step b d (.closeIntf intf)).1.session f).opened = false) ∧
      (f.intf ≠ intf → ((step b d (.closeIntf intf)).1.session f = d.session f ↔
        (f = .tx → intf ≠ 1 → (d.session .tx).opened = false ∧ (d.session .tx).busy = false))) := by
  simp only [step, usbdAudioClose]
  rcases eq_or_ne intf 1 with rfl | h1
  · cases b <;> cases f <;> simp [EpFlag.intf, Device.session, Build.hasFeedback]
  · rw [if_neg h1]
    cases f with
    | tx => simp [EpFlag.intf, Device.session, h1, @eq_comm Bool false]
    | rx => simp [EpFlag.intf, Device.session, Ne.symm h1]
    | fb => simp [EpFlag.intf, Device.session]

/-- A request leaves the sessions of the other interfaces alone exactly when it spares the
    microphone. -/
theorem session_frame_iff {b : Build} {d : Device} {e : Event} {intf : UInt8}
    (hreq : e.request = some intf) :
    (∀ f, EpFlag.intf f ≠ intf → (step b d e).1.session f = d.session f) ↔
      SparesSession d e := by
  cases e with
  | openIntf i =>
    cases hreq
    exact ⟨fun _ _ h => (nomatch h), fun _ f hf => (session_open f).2 hf⟩
  | closeIntf i =>
    cases hreq
    constructor
    · rintro hframe _ ⟨⟩ h1 h2
      exact ((session_close .tx).2 (Ne.symm h2)).mp (hframe .tx (Ne.symm h2)) rfl h1
    · intro hc f hf
      refine ((session_close f).2 hf).mpr ?_
      rintro rfl h1
      exact hc intf rfl h1 (Ne.symm hf)
  | _ => cases hreq

/-- The flag of a stream after one event is what the host wants of its interface. -/
theorem opened_step {b : Build} {d : Device} {e : Event} (hc : SparesSession d e) {f : EpFlag}
    (hf : f ≠ .fb) :
    ((step b d e).1.session f).opened = wantedStep f.intf (d.session f).opened e := by
  rw [wantedStep]
  cases hreq : e.request with
  | none => simpa using opened_step_of_not_request hreq f
  | some intf =>
    by_cases hi : f.intf = intf
    · rw [if_pos (by rw [hi])]
      cases e with
      | openIntf i => cases hreq; exact (session_open f).1 hi hf
      | closeIntf i => cases hreq; exact (session_close f).1 hi hf
      | _ => cases hreq
    · rw [if_neg (by simpa using Ne.symm hi)]
      exact congrArg Session.opened ((session_frame_iff hreq).mpr hc f hi)

/-- The microphone's busy bit is set in sessions only. -/
def BusyInSession (d : Device) : Prop :=
  (d.session .tx).busy = true → (d.session .tx).opened = true

theorem busyInSession_step {b : Build} {d : Device} (h : BusyInSession d) (e : Event) :
    BusyInSession (step b d e).1 := by
  change isSet (step b d e).1.flags.epBusyFlag _ = true →
    isSet (step b d e).1.flags.openFlag _ = true
  rw [flags_step]
  have hold : isSet d.flags.epBusyFlag EpFlag.tx.mask = true →
    isSet d.flags.openFlag EpFlag.tx.mask = true := h
  cases e with
  | openIntf intf =>
    simp only [FlagBytes.step]
    split_ifs
    · simpa using hold
    · simpa using hold
    · simp
    · exact hold
  | closeIntf intf =>
    simp only [FlagBytes.step]
    split_ifs
    · simpa using hold
    · simpa using hold
    · simp
  | outCallback pkt => simpa [FlagBytes.step] using hold
  | inCallback => simp [FlagBytes.step]
  | inFbCallback =>
    simp only [FlagBytes.step]
    split_ifs
    · simpa using hold
    · exact hold
  | readPass =>
    simp only [FlagBytes.step, FlagBytes.pass]
    split_ifs
    · simpa using hold
    · exact hold
  | writePass =>
    simp only [FlagBytes.step, FlagBytes.pass]
    split_ifs with hfill
    · exact fun _ => (Bool.and_eq_true_iff.mp hfill).1
    · exact hold
  | feedbackPass =>
    simp only [FlagBytes.step, FlagBytes.pass]
    split_ifs
    · simpa using hold
    · exact hold
    · exact hold
  | setSamplingFreq | dma => exact hold

/-! ### Runs -/

theorem busyInSession_final (b : Build) (es : List Event) :
    BusyInSession (final (step b) (initial b) es) :=
  invariant_of_forall (I := BusyInSession) (fun e _ _ h => busyInSession_step h e)
    (by cases b <;> exact fun h => absurd h (by decide))

/-- In a run whose closes spare the microphone the flags are what the host wants. -/
theorem opened_final {b : Build} {f : EpFlag} (hf : f ≠ .fb) {es : List Event}
    (hc : Along (step b) SparesSession (initial b) es) :
    ((final (step b) (initial b) es).session f).opened = wanted f.intf es := by
  induction es using List.reverseRecOn with
  | nil => cases b <;> cases f <;> rfl
  | append_singleton es e ih =>
    rw [along_concat] at hc
    rw [final_concat, wanted_concat, opened_step hc.2 hf, ih hc.1]

/-- Requests that spare the microphone find no session of it to end. -/
theorem spares_of_requests {b : Build} {es : List Event}
    (h : ∀ pre e post, es = pre ++ e :: post → SparesMic pre e) :
    Along (step b) SparesSession (initial b) es := by
  induction es using List.reverseRecOn with
  | nil => trivial
  | append_singleton es e ih =>
    rcases forall_split_concat.mp h with ⟨hpre, he⟩
    refine (along_concat _ _ _).mpr ⟨ih hpre, fun intf hclose h1 h2 => ?_⟩
    have hopened := opened_final (f := .tx) (by simp) (ih hpre)
    rw [EpFlag.intf, he intf hclose h1 h2] at hopened
    have hbusy := mt (busyInSession_final b es) (Bool.eq_false_iff.mp hopened)
    exact ⟨hopened, Bool.eq_false_iff.mpr hbusy⟩

/-- EXACT: in every run the two streams follow the host's requests, each its own, if and only if
    every close of an interface other than 1 and 2 comes when the last request naming interface 2
    was no open. -/
theorem follows_requests_iff (b : Build) (es : List Event) :
    FollowsRequests b es ↔ ∀ pre e post, es = pre ++ e :: post → SparesMic pre e := by
  constructor
  · rintro h pre e post hes intf rfl h1 h2
    rw [← h.mic pre _ hes]
    exact ((session_frame_iff rfl).mp (h.frame pre _ post intf hes rfl) intf rfl h1 h2).1
  · intro h
    have hc := spares_of_requests (b := b) h
    refine ⟨?_, ?_, ?_⟩
    · rintro pre post rfl
      exact opened_final (f := .rx) (by simp) ((along_append _ pre post).mp hc).1
    · rintro pre post rfl
      exact opened_final (f := .tx) (by simp) ((along_append _ pre post).mp hc).1
    · intro pre e post intf hes hreq
      exact (session_frame_iff hreq).mpr ((along_iff_forall_split _ _).mp hc pre e post hes)

/-- The host opens the microphone and then sets the control interface to its setting 0, which is
    reported as a close: the microphone's session is gone. -/
theorem control_close_ends_mic : ¬ FollowsRequests .fs [.openIntf 2, .closeIntf 0] := by
  intro h
  have hmic := h.mic [.openIntf 2, .closeIntf 0] [] rfl
  exact absurd hmic (by decide)

end AudioCard
