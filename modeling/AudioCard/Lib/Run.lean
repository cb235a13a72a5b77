import Mathlib.Data.List.Induction

/-! Runs of a deterministic machine that answers every event with an output.

    A machine is its step function `σ → ε → σ × ω`. `final` is the state after a list of events,
    `outputs` the answers given on the way, and `Along P` says that every step of the run was taken
    from a state and with an event that `P` allows. The rules below are the two inductions every
    development over such a machine needs: an invariant kept by one step holds after every run, and
    a relation kept by one step of two machines makes their outputs agree. -/

namespace Run

variable {σ ε ω : Type*} (step : σ → ε → σ × ω)

/-- The state after the events `es`. -/
def final (s : σ) (es : List ε) : σ := es.foldl (fun s e => (step s e).1) s

/-- The outputs of the events `es`, one for each event. -/
def outputs : σ → List ε → List ω
  | _, [] => []
  | s, e :: es => (step s e).2 :: outputs (step s e).1 es

/-- Every step of the run is taken from a state and with an event that `P` allows. -/
def Along (P : σ → ε → Prop) : σ → List ε → Prop
  | _, [] => True
  | s, e :: es => P s e ∧ Along P (step s e).1 es

@[simp] theorem final_nil (s : σ) : final step s [] = s := rfl

@[simp] theorem final_cons (s : σ) (e : ε) (es : List ε) :
    final step s (e :: es) = final step (step s e).1 es := rfl

theorem final_append (s : σ) (es fs : List ε) :
    final step s (es ++ fs) = final step (final step s es) fs := by
  simp [final, List.foldl_append]

@[simp] theorem final_concat (s : σ) (es : List ε) (e : ε) :
    final step s (es ++ [e]) = (step (final step s es) e).1 := by
  rw [final_append]; rfl

@[simp] theorem outputs_nil (s : σ) : outputs step s [] = [] := rfl

@[simp] theorem outputs_cons (s : σ) (e : ε) (es : List ε) :
    outputs step s (e :: es) = (step s e).2 :: outputs step (step s e).1 es := rfl

theorem outputs_append (s : σ) (es fs : List ε) :
    outputs step s (es ++ fs) = outputs step s es ++ outputs step (final step s es) fs := by
  induction es generalizing s with
  | nil => rfl
  | cons e es ih =>
    simp only [List.cons_append, outputs_cons, final_cons]
    rw [ih]

@[simp] theorem outputs_concat (s : σ) (es : List ε) (e : ε) :
    outputs step s (es ++ [e]) = outputs step s es ++ [(step (final step s es) e).2] := by
  rw [outputs_append]; rfl

/-- The outputs of a run are cut where its events are cut. -/
theorem outputs_split {s : σ} {es : List ε} {us vs : List ω}
    (h : outputs step s es = us ++ vs) :
    ∃ p q, es = p ++ q ∧ vs = outputs step (final step s p) q := by
  induction es generalizing s us with
  | nil =>
    obtain ⟨-, rfl⟩ := List.append_eq_nil_iff.mp h.symm
    exact ⟨[], [], rfl, rfl⟩
  | cons e es ih =>
    cases us with
    | nil => exact ⟨[], e :: es, rfl, h.symm⟩
    | cons u us =>
      obtain ⟨p, q, rfl, rfl⟩ := ih (List.cons.inj h).2
      exact ⟨e :: p, q, rfl, rfl⟩

/-! ### Conditions along a run -/

/-- The run can be tried. -/
instance decidableAlong {P : σ → ε → Prop} [∀ s e, Decidable (P s e)] :
    ∀ s es, Decidable (Along step P s es)
  | _, [] => isTrue trivial
  | s, e :: es =>
    have : Decidable (Along step P (step s e).1 es) := decidableAlong (step s e).1 es
    inferInstanceAs (Decidable (P s e ∧ Along step P (step s e).1 es))

variable {step} {P Q : σ → ε → Prop}

@[simp] theorem along_nil (s : σ) : Along step P s [] := trivial

@[simp] theorem along_cons (s : σ) (e : ε) (es : List ε) :
    Along step P s (e :: es) ↔ P s e ∧ Along step P (step s e).1 es := Iff.rfl

theorem along_append (s : σ) (es fs : List ε) :
    Along step P s (es ++ fs) ↔ Along step P s es ∧ Along step P (final step s es) fs := by
  induction es generalizing s with
  | nil => simp
  | cons e es ih =>
    simp only [List.cons_append, along_cons, final_cons, and_assoc]
    rw [ih]

@[simp] theorem along_concat (s : σ) (es : List ε) (e : ε) :
    Along step P s (es ++ [e]) ↔ Along step P s es ∧ P (final step s es) e := by
  rw [along_append]; simp

/-- What is said of every element of a list and those before it, for one more element. -/
theorem forall_split_concat {R : List ε → ε → Prop} {es : List ε} {e : ε} :
    (∀ p f q, es ++ [e] = p ++ f :: q → R p f) ↔
      (∀ p f q, es = p ++ f :: q → R p f) ∧ R es e := by
  constructor
  · intro h
    exact ⟨fun p f q heq => h p f (q ++ [e]) (by simp [heq]), h es e [] rfl⟩
  · rintro ⟨h, he⟩ p f q heq
    rcases List.eq_nil_or_concat q with rfl | ⟨q, g, rfl⟩
    · obtain ⟨rfl, hfe⟩ := List.append_inj' heq rfl
      cases hfe
      exact he
    · rw [List.concat_eq_append, ← List.cons_append, ← List.append_assoc] at heq
      exact h p f q (List.append_inj' heq rfl).1

/-- The condition read at one step: what precedes the event is a run to the state it is taken in. -/
theorem along_iff_forall_split (s : σ) (es : List ε) :
    Along step P s es ↔ ∀ pre e post, es = pre ++ e :: post → P (final step s pre) e := by
  induction es using List.reverseRecOn with
  | nil => simp
  | append_singleton es e ih => rw [along_concat, ih, forall_split_concat]

/-- INVARIANT RULE: what holds at the start and is kept by every event of the run holds at the end.
    -/
theorem invariant_of_forall {I : σ → Prop} {es : List ε}
    (hstep : ∀ e ∈ es, ∀ s, I s → I (step s e).1) {s : σ} (hI : I s) : I (final step s es) := by
  induction es generalizing s with
  | nil => exact hI
  | cons e es ih =>
    exact ih (fun f hf => hstep f (List.mem_cons_of_mem e hf)) (hstep e List.mem_cons_self s hI)

/-- INVARIANT RULE: what is kept by every allowed step holds after a run of such steps. -/
theorem invariant_of_along {I : σ → Prop} (hstep : ∀ s e, I s → P s e → I (step s e).1)
    {es : List ε} {s : σ} (hI : I s) (hP : Along step P s es) : I (final step s es) := by
  induction es generalizing s with
  | nil => exact hI
  | cons e es ih => exact ih (hstep s e hI hP.1) hP.2

/-- An invariant kept by the allowed steps turns one condition along the run into another. -/
theorem along_of_invariant {I : σ → Prop} (hstep : ∀ s e, I s → P s e → I (step s e).1)
    (hQ : ∀ s e, I s → P s e → Q s e) {es : List ε} {s : σ} (hI : I s)
    (hP : Along step P s es) : Along step Q s es := by
  induction es generalizing s with
  | nil => trivial
  | cons e es ih => exact ⟨hQ s e hI hP.1, ih (hstep s e hI hP.1) hP.2⟩

theorem along_mono (h : ∀ s e, P s e → Q s e) {es : List ε} {s : σ} (hP : Along step P s es) :
    Along step Q s es :=
  along_of_invariant (I := fun _ => True) (fun _ _ _ _ => trivial) (fun s e _ => h s e) trivial hP

/-- Two conditions that agree wherever an invariant holds agree along the run. -/
theorem along_congr {I : σ → Prop} {R : σ → ε → Prop}
    (hstep : ∀ s e, I s → P s e → I (step s e).1)
    (hiff : ∀ s e, I s → P s e → (Q s e ↔ R s e)) {es : List ε} {s : σ} (hI : I s)
    (hP : Along step P s es) : Along step Q s es ↔ Along step R s es := by
  induction es generalizing s with
  | nil => exact Iff.rfl
  | cons e es ih =>
    rw [along_cons, along_cons, hiff s e hI hP.1, ih (hstep s e hI hP.1) hP.2]

theorem along_true (h : ∀ s e, Q s e) (s : σ) (es : List ε) : Along step Q s es :=
  (along_iff_forall_split s es).mpr fun _ _ _ _ => h _ _

/-- A condition on the events alone. -/
theorem along_of_mem {R : ε → Prop} {es : List ε} (h : ∀ e ∈ es, R e) (s : σ) :
    Along step (fun _ e => R e) s es :=
  (along_iff_forall_split s es).mpr fun _ e _ heq => h e (by simp [heq])

theorem along_and {s : σ} {es : List ε} :
    Along step (fun s e => P s e ∧ Q s e) s es ↔ Along step P s es ∧ Along step Q s es := by
  induction es generalizing s with
  | nil => simp
  | cons e es ih =>
    simp only [along_cons]
    rw [ih, and_and_and_comm]

/-! ### Progress -/

/-- PROGRESS RULE: if every tick lowers a measure and no other event raises it, until the run does
    what it should (`T`), then it does so before the ticks have used the measure up. -/
theorem progress {I : σ → Prop} {T : σ → ε → Prop} {m : σ → ℕ} {tick : ε → Bool}
    {es : List ε} {s : σ} (hP : Along step P s es) (hI : I s)
    (hstep : ∀ s e, I s → P s e → ¬ T s e →
      I (step s e).1 ∧ m (step s e).1 + (if tick e then 1 else 0) ≤ m s)
    (hlong : m s < es.countP tick) :
    ∃ p e q, es = p ++ e :: q ∧ T (final step s p) e := by
  induction es generalizing s with
  | nil => exact absurd hlong (Nat.not_lt_zero _)
  | cons e es ih =>
    by_cases hT : T s e
    · exact ⟨[], e, es, rfl, hT⟩
    · obtain ⟨hI', hle⟩ := hstep s e hI hP.1 hT
      rw [List.countP_cons] at hlong
      obtain ⟨p, f, q, rfl, hf⟩ := ih hP.2 hI' (by omega)
      exact ⟨e :: p, f, q, rfl, hf⟩

/-! ### What goes through -/

/-- What `look` shows of the steps of a run, in order. -/
def collect {υ : Type*} (step : σ → ε → σ × ω) (look : σ → ε → List υ) : σ → List ε → List υ
  | _, [] => []
  | s, e :: es => look s e ++ collect step look (step s e).1 es

/-- QUEUE RULE: if every step puts its `ins` behind a list that the state carries and takes its
    `outs` from the front, then over a run what went in is what came out and what is left. -/
theorem collect_conserved {υ : Type*} {C : σ → List υ → Prop} {ins outs : σ → ε → List υ}
    {es : List ε} {s : σ} {q : List υ} (hP : Along step P s es) (hq : C s q)
    (hstep : ∀ s e q, C s q → P s e → ∃ q', q ++ ins s e = outs s e ++ q' ∧ C (step s e).1 q') :
    ∃ q', q ++ collect step ins s es = collect step outs s es ++ q' ∧ C (final step s es) q' := by
  induction es generalizing s q with
  | nil => exact ⟨q, by simp [collect], hq⟩
  | cons e es ih =>
    obtain ⟨q₁, heq, hq₁⟩ := hstep s e q hq hP.1
    obtain ⟨q₂, heq', hq₂⟩ := ih hP.2 hq₁
    refine ⟨q₂, ?_, hq₂⟩
    rw [collect, collect, ← List.append_assoc, heq, List.append_assoc, heq', List.append_assoc]

/-! ### Batches -/

/-- BATCH RULE: if a call of a second machine is a run of the first one over the data of the call,
    and answers what `h` makes of the answers on the way, then a list of calls is one run over all
    their data, and how the data is cut into calls does not matter to it. -/
theorem run_of_batches {κ α : Type*} {call : σ → κ → σ × α} {data : κ → List ε} {h : List ω → α}
    (hcall : ∀ s c, call s c = (final step s (data c), h (outputs step s (data c)))) (s : σ)
    (cs : List κ) :
    final call s cs = final step s (cs.flatMap data) ∧
      ∃ outs : List (List ω), outputs call s cs = outs.map h ∧
        outs.flatten = outputs step s (cs.flatMap data) := by
  induction cs generalizing s with
  | nil => exact ⟨rfl, [], rfl, rfl⟩
  | cons c cs ih =>
    obtain ⟨hfinal, outs, houts, hflat⟩ := ih (final step s (data c))
    rw [final_cons, outputs_cons, hcall, hfinal, houts, List.flatMap_cons, final_append,
      outputs_append]
    exact ⟨rfl, outputs step s (data c) :: outs, rfl, by rw [List.flatten_cons, hflat]⟩

/-! ### Simulation -/

variable {τ ε' ω' : Type*} {step' : τ → ε' → τ × ω'}

/-- SIMULATION RULE: a relation kept by one step, with equal visible outputs, is kept by a run, and
    the visible outputs of the two runs are the same list. -/
theorem simulation {R : σ → τ → Prop} {f : ε → ε'} {g : ω → ω'}
    (hstep : ∀ s t e, R s t → P s e →
      R (step s e).1 (step' t (f e)).1 ∧ g (step s e).2 = (step' t (f e)).2)
    {es : List ε} {s : σ} {t : τ} (hR : R s t) (hP : Along step P s es) :
    R (final step s es) (final step' t (es.map f)) ∧
      (outputs step s es).map g = outputs step' t (es.map f) := by
  induction es generalizing s t with
  | nil => exact ⟨hR, rfl⟩
  | cons e es ih =>
    obtain ⟨hR', hout⟩ := hstep s t e hR hP.1
    obtain ⟨hfin, houts⟩ := ih hR' hP.2
    exact ⟨hfin, by simp only [outputs_cons, List.map_cons, hout, houts]⟩

/-- STUTTERING RULE: if every step of the first machine is matched by some steps of the second, or
    by none, with the same marks on the events and the same visible outputs, then so is every run.
    -/
theorem stuttering {κ υ : Type*} {R : σ → τ → Prop} {key : ε → List κ} {key' : ε' → List κ}
    {see : ω → List υ} {see' : ω' → List υ} {es : List ε} {s : σ} {t : τ} (hP : Along step P s es)
    (hR : R s t)
    (hstep : ∀ s t e, R s t → P s e → ∃ fs, R (step s e).1 (final step' t fs) ∧
      fs.flatMap key' = key e ∧ (outputs step' t fs).flatMap see' = see (step s e).2) :
    ∃ fs, R (final step s es) (final step' t fs) ∧ fs.flatMap key' = es.flatMap key ∧
      (outputs step' t fs).flatMap see' = (outputs step s es).flatMap see := by
  induction es generalizing s t with
  | nil => exact ⟨[], hR, rfl, rfl⟩
  | cons e es ih =>
    obtain ⟨fs, hR', hkey, hsee⟩ := hstep s t e hR hP.1
    obtain ⟨gs, hR'', hkeys, hsees⟩ := ih hP.2 hR'
    refine ⟨fs ++ gs, ?_, ?_, ?_⟩
    · rw [final_append]
      exact hR''
    · rw [List.flatMap_append, List.flatMap_cons, hkey, hkeys]
    · rw [outputs_append, List.flatMap_append, outputs_cons, List.flatMap_cons, hsee, hsees]

/-! ### Independence -/

/-- UNWINDING RULE: if an event that is not one's own changes nothing in view and shows nothing, and
    an event of one's own changes the view, shows and is allowed as the view tells, then a run is
    seen as the run of one's own events alone, and that is a run of allowed steps too. -/
theorem unwinding {κ υ : Type*} {I : σ → Prop} {v : σ → κ} {own : ε → Bool} {see : ω → List υ}
    (hI : ∀ s e, I s → I (step s e).1)
    (hother : ∀ s e, I s → own e = false → v (step s e).1 = v s ∧ see (step s e).2 = [])
    (hown : ∀ s t e, I s → I t → v s = v t → own e = true → P s e →
      P t e ∧ v (step s e).1 = v (step t e).1 ∧ see (step s e).2 = see (step t e).2)
    {s t : σ} (hs : I s) (ht : I t) (hview : v s = v t) {es : List ε} (hP : Along step P s es) :
    Along step P t (es.filter own) ∧
      (outputs step s es).flatMap see = (outputs step t (es.filter own)).flatMap see := by
  induction es generalizing s t with
  | nil => exact ⟨trivial, rfl⟩
  | cons e es ih =>
    cases he : own e with
    | false =>
      obtain ⟨hstep, hsee⟩ := hother s e hs he
      rw [List.filter_cons_of_neg (by simp [he]), outputs_cons, List.flatMap_cons, hsee]
      exact ih (hI s e hs) ht (hstep.trans hview) hP.2
    | true =>
      obtain ⟨hallowed, hstep, hsee⟩ := hown s t e hs ht hview he hP.1
      obtain ⟨hrest, houts⟩ := ih (hI s e hs) (hI t e ht) hstep hP.2
      rw [List.filter_cons_of_pos he, outputs_cons, outputs_cons, List.flatMap_cons,
        List.flatMap_cons, hsee, houts]
      exact ⟨⟨hallowed, hrest⟩, rfl⟩

end Run
