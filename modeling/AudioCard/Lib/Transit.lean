import AudioCard.Lib.Run

/-! What goes through a machine that carries a queue.

    The state carries a list, which a step may lengthen at its end and shorten at its front. Two
    questions are answered for whole runs: when nothing is lost on the way in and nothing is missing
    on the way out (`along_iff_window`), and when an element that is in the list comes out
    (`delay`). -/

namespace Run

variable {σ ε ω υ : Type*} {step : σ → ε → σ × ω} {P : σ → ε → Prop} {C : σ → List υ → Prop}

theorem collect_flatten (look : σ → ε → List (List υ)) (s : σ) (es : List ε) :
    collect step (fun s e => (look s e).flatten) s es = (collect step look s es).flatten := by
  induction es generalizing s with
  | nil => rfl
  | cons e es ih => rw [collect, collect, List.flatten_append, ih]

theorem collect_append (look : σ → ε → List υ) (s : σ) (es fs : List ε) :
    collect step look s (es ++ fs) =
      collect step look s es ++ collect step look (final step s es) fs := by
  induction es generalizing s with
  | nil => rfl
  | cons e es ih =>
    rw [List.cons_append, collect, collect, ih, List.append_assoc]
    rfl

@[simp] theorem collect_concat (look : σ → ε → List υ) (s : σ) (es : List ε) (e : ε) :
    collect step look s (es ++ [e]) = collect step look s es ++ look (final step s es) e := by
  rw [collect_append, collect, collect, List.append_nil]

theorem forall_mem_collect {look : σ → ε → List υ} {p : υ → Prop} {s : σ} {es : List ε}
    (h : Along step (fun s e => ∀ x ∈ look s e, p x) s es) : ∀ x ∈ collect step look s es, p x := by
  induction es generalizing s with
  | nil => intro x hx; cases hx
  | cons e es ih =>
    intro x hx
    rcases List.mem_append.mp hx with hx | hx
    · exact h.1 x hx
    · exact ih h.2 x hx

/-- A condition on every prefix of a run, read at its first step. -/
theorem forall_prefix_cons {R : List ε → Prop} {e : ε} {es : List ε} :
    (∀ p r, e :: es = p ++ r → R p) ↔ R [] ∧ ∀ p r, es = p ++ r → R (e :: p) := by
  constructor
  · intro h
    exact ⟨h [] _ rfl, fun p r heq => h (e :: p) r (by rw [heq, List.cons_append])⟩
  · rintro ⟨hnil, hcons⟩ p r heq
    cases p with
    | nil => exact hnil
    | cons f p =>
      obtain ⟨rfl, hes⟩ := List.cons.inj heq
      exact hcons p r hes

/-- A condition on every prefix of a run, read at its last step. -/
theorem forall_prefix_concat {R : List ε → Prop} {es : List ε} {e : ε} :
    (∀ p r, es ++ [e] = p ++ r → R p) ↔ (∀ p r, es = p ++ r → R p) ∧ R (es ++ [e]) := by
  constructor
  · intro h
    exact ⟨fun p r heq => h p (r ++ [e]) (by rw [heq, List.append_assoc]), h _ [] (by simp)⟩
  · rintro ⟨hes, hlast⟩ p r heq
    rcases List.eq_nil_or_concat r with rfl | ⟨r, f, rfl⟩
    · rw [List.append_nil] at heq
      rw [← heq]
      exact hlast
    · rw [List.concat_eq_append, ← List.append_assoc] at heq
      exact hes p r (List.append_inj' heq rfl).1

/-- The prefixes of a list, counted off. -/
theorem forall_prefix_iff_take {R : List ε → Prop} {es : List ε} :
    (∀ p r, es = p ++ r → R p) ↔ ∀ k ≤ es.length, R (es.take k) := by
  constructor
  · exact fun h k _ => h _ (es.drop k) (List.take_append_drop k es).symm
  · intro h p r heq
    rw [List.prefix_iff_eq_take.mp ⟨r, heq.symm⟩]
    refine h p.length ?_
    rw [heq, List.length_append]
    exact Nat.le_add_right _ _

/-- WINDOW RULE: if a step is good (`G`) exactly when the list, with what the step brings and
    without what it asks for, is neither negative nor longer than `c`, and a good step puts all it
    brings behind the list and takes all it asks for from the front, then all steps of a run are
    good exactly when the total brought and the total asked for stay in the window after every
    prefix. -/
theorem along_iff_window {ins outs : σ → ε → List υ} {G : σ → ε → Prop} {c : ℕ}
    {s : σ} {q : List υ} (hq : C s q) (hfit : ∀ s q, C s q → q.length ≤ c)
    (hgood : ∀ s e q, C s q → (G s e ↔ (outs s e).length ≤ q.length + (ins s e).length ∧
      q.length + (ins s e).length ≤ (outs s e).length + c))
    (hstep : ∀ s e q, C s q → G s e → ∃ q', q ++ ins s e = outs s e ++ q' ∧ C (step s e).1 q')
    (es : List ε) :
    Along step G s es ↔ ∀ p r, es = p ++ r →
      (collect step outs s p).length ≤ q.length + (collect step ins s p).length ∧
      q.length + (collect step ins s p).length ≤ (collect step outs s p).length + c := by
  induction es generalizing s q with
  | nil =>
    refine iff_of_true trivial fun p r heq => ?_
    rw [(List.append_eq_nil_iff.mp heq.symm).1]
    simpa [collect] using hfit s q hq
  | cons e es ih =>
    -- the window of the rest is that of the whole, moved by the first step
    have hrest : G s e → (Along step G (step s e).1 es ↔ ∀ p r, es = p ++ r →
        (collect step outs s (e :: p)).length ≤ q.length + (collect step ins s (e :: p)).length ∧
        q.length + (collect step ins s (e :: p)).length ≤
          (collect step outs s (e :: p)).length + c) := by
      intro hG
      obtain ⟨q', heq, hq'⟩ := hstep s e q hq hG
      have hlen := congrArg List.length heq
      simp only [List.length_append] at hlen
      rw [ih hq']
      refine forall₃_congr fun p r _ => ?_
      simp only [collect, List.length_append]
      omega
    rw [along_cons, forall_prefix_cons]
    constructor
    · rintro ⟨hG, hes⟩
      refine ⟨?_, (hrest hG).mp hes⟩
      simpa [collect] using hfit s q hq
    · rintro ⟨-, hes⟩
      have hG : G s e := by
        rw [hgood s e q hq]
        simpa [collect] using hes [] es rfl
      exact ⟨hG, (hrest hG).mpr hes⟩

/-- DELAY RULE: if every packet begins with the `n` oldest elements of the list, which it removes,
    and nothing else is removed, then element `i` of the list is element `i % n` of packet `i / n`.
    -/
theorem delay {packet : σ → ε → Option (List υ)} {n : ℕ} {es : List ε} {s : σ} {q : List υ}
    (hn : 0 < n) (hP : Along step P s es) (hq : C s q)
    (hstep : ∀ s e q, C s q → P s e → ∃ q', C (step s e).1 q' ∧ (packet s e = none → q <+: q') ∧
      ∀ p, packet s e = some p → q.take n <+: p ∧ q.drop n <+: q')
    {i : ℕ} (hi : i < q.length) {p : List υ}
    (hp : (collect step (fun s e => (packet s e).toList) s es)[i / n]? = some p) :
    p[i % n]? = q[i]? := by
  induction es generalizing s q i with
  | nil => simp [collect] at hp
  | cons e es ih =>
    obtain ⟨q', hq', hnone, hsome⟩ := hstep s e q hq hP.1
    rw [collect] at hp
    cases hpkt : packet s e with
    | none =>
      obtain ⟨r, rfl⟩ := hnone hpkt
      rw [hpkt, Option.toList_none, List.nil_append] at hp
      rw [ih hP.2 hq' (by rw [List.length_append]; omega) hp, List.getElem?_append_left hi]
    | some p₀ =>
      obtain ⟨⟨t, rfl⟩, r, rfl⟩ := hsome p₀ hpkt
      rw [hpkt, Option.toList_some, List.singleton_append] at hp
      rcases Nat.lt_or_ge i n with hlt | hge
      · rw [Nat.div_eq_of_lt hlt, List.getElem?_cons_zero, Option.some.injEq] at hp
        have hlt' : i < (q.take n).length := by
          rw [List.length_take]
          omega
        rw [← hp, Nat.mod_eq_of_lt hlt, List.getElem?_append_left hlt',
          List.getElem?_take_of_lt hlt]
      · obtain ⟨j, rfl⟩ := Nat.exists_eq_add_of_le hge
        have hj : j < (q.drop n).length := by
          rw [List.length_drop]
          omega
        rw [Nat.add_div_left _ hn, List.getElem?_cons_succ] at hp
        rw [Nat.add_mod_left, ih hP.2 hq' (by rw [List.length_append]; omega) hp,
          List.getElem?_append_left hj, List.getElem?_drop]

end Run
