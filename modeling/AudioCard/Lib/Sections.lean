import Mathlib.Logic.Relation
import Mathlib.Tactic.ByContra

/-! Critical sections of a deterministic program that is interrupted.

    A program takes steps `tick : σ → σ`; the states in which it is inside a section are given by a
    predicate. An interrupt that commutes with every step of a section may be taken before the whole
    section instead (`within_move`), and a section that is not interrupted leads to one state only
    (`within_exit_unique`). Together they let a section be treated as one step: `Since` relates the
    state in which a section began, brought up to date with the interrupts, to the state it is in
    now, and `since_tick` and `since_move` say how the two move on. -/

namespace Sections
open Relation

variable {σ ω : Type*} {tick : σ → σ} {Inside : σ → Prop}

/-- Steps of the program, taken from states inside the section. -/
def Within (tick : σ → σ) (Inside : σ → Prop) : σ → σ → Prop :=
  ReflTransGen fun s t => Inside s ∧ tick s = t

theorem within_head {s t : σ} (hs : Inside s) (h : Within tick Inside (tick s) t) :
    Within tick Inside s t :=
  ReflTransGen.head ⟨hs, rfl⟩ h

theorem within_one {s : σ} (hs : Inside s) : Within tick Inside s (tick s) :=
  ReflTransGen.single ⟨hs, rfl⟩

theorem within_tick {s t : σ} (h : Within tick Inside s t) (ht : Inside t) :
    Within tick Inside s (tick t) :=
  ReflTransGen.tail h ⟨ht, rfl⟩

/-- Forgetting where the section is. -/
theorem reaches_of_within {s t : σ} (h : Within tick Inside s t) :
    ReflTransGen (fun s t => tick s = t) s t :=
  ReflTransGen.mono (fun _ _ hstep => hstep.2) _ _ h

/-- Where the program is outside, nothing is within. -/
theorem eq_of_within {s t : σ} (h : Within tick Inside s t) (hs : ¬ Inside s) : t = s := by
  rcases ReflTransGen.cases_head h with rfl | ⟨u, ⟨hin, -⟩, -⟩
  · rfl
  · exact absurd hin hs

/-- A section is left in one state only. -/
theorem within_exit_unique {s t u : σ} (ht : Within tick Inside s t) (hu : Within tick Inside s u)
    (hto : ¬ Inside t) (huo : ¬ Inside u) : t = u := by
  have hright : Relator.RightUnique fun s t => Inside s ∧ tick s = t := by
    rintro a b c ⟨-, rfl⟩ ⟨-, rfl⟩
    rfl
  rcases ReflTransGen.total_of_right_unique hright ht hu with htu | hut
  · exact (eq_of_within htu hto).symm
  · exact eq_of_within hut huo

/-- LEFT MOVER: an interrupt that commutes with each step of the section, and is answered the same
    before and after it, may be taken before the steps that led to it. `Safe` says where the
    interrupt may come: if it may after a step, it may before it. -/
theorem within_move {irq : σ → σ × ω} {I Safe : σ → Prop}
    (hI : ∀ s, I s → I (tick s))
    (hin : ∀ s, Inside s → Inside (irq s).1)
    (hmove : ∀ s, I s → Inside s → Inside (tick s) → Safe (tick s) →
      Safe s ∧ tick (irq s).1 = (irq (tick s)).1 ∧ (irq (tick s)).2 = (irq s).2)
    {s t : σ} (h : Within tick Inside s t) (hs : I s) (ht : Inside t) (hsafe : Safe t) :
    Safe s ∧ Within tick Inside (irq s).1 (irq t).1 ∧ (irq t).2 = (irq s).2 := by
  induction h using ReflTransGen.head_induction_on with
  | refl => exact ⟨hsafe, ReflTransGen.refl, rfl⟩
  | @head s u hstep hrest ih =>
    obtain ⟨hins, rfl⟩ := hstep
    obtain ⟨hsafe', hwithin, hans⟩ := ih (hI s hs)
    have hinu : Inside (tick s) := by
      by_contra hout
      exact hout (eq_of_within hrest hout ▸ ht)
    obtain ⟨hsafe'', hcomm, hans'⟩ := hmove s hs hins hinu hsafe'
    exact ⟨hsafe'', within_head (hin s hins) (hcomm ▸ hwithin), hans.trans hans'⟩

/-! ### A section as one step -/

/-- The program is in the state `o`, outside, or inside the section that begins with a step from
    `o`. -/
def Since (tick : σ → σ) (Inside : σ → Prop) (o s : σ) : Prop :=
  ¬ Inside o ∧ (s = o ∨ Inside s ∧ Within tick Inside (tick o) s)

theorem since_refl {o : σ} (h : ¬ Inside o) : Since tick Inside o o := ⟨h, Or.inl rfl⟩

theorem reaches_of_since {o s : σ} (h : Since tick Inside o s) :
    ReflTransGen (fun s t => tick s = t) o s := by
  rcases h with ⟨-, rfl | ⟨-, hw⟩⟩
  · exact ReflTransGen.refl
  · exact ReflTransGen.head rfl (reaches_of_within hw)

/-- Outside, the state is the one the section would begin in. -/
theorem eq_of_since {o s : σ} (h : Since tick Inside o s) (hs : ¬ Inside s) : s = o := by
  rcases h with ⟨-, rfl | ⟨hin, -⟩⟩
  · rfl
  · exact absurd hin hs

/-- A step of the program goes on in the section, or it completes it. -/
theorem since_tick {o s : σ} (h : Since tick Inside o s) :
    Since tick Inside o (tick s) ∨ ¬ Inside (tick s) ∧ Within tick Inside (tick o) (tick s) := by
  obtain ⟨ho, hs⟩ := h
  have hw : Within tick Inside (tick o) (tick s) := by
    rcases hs with rfl | ⟨hin, hw⟩
    · exact ReflTransGen.refl
    · exact within_tick hw hin
  by_cases hin : Inside (tick s)
  · exact Or.inl ⟨ho, Or.inr ⟨hin, hw⟩⟩
  · exact Or.inr ⟨hin, hw⟩

/-- An interrupt that may come where the program is may be taken in the state where the section
    began. The step that enters the section has to commute with it like those inside. -/
theorem since_move (irq : σ → σ × ω) (I Safe : σ → Prop)
    (hI : ∀ s, I s → I (tick s))
    (hin : ∀ s, Inside s ↔ Inside (irq s).1)
    (hmove : ∀ s, I s → Inside (tick s) → Safe (tick s) →
      Safe s ∧ tick (irq s).1 = (irq (tick s)).1 ∧ (irq (tick s)).2 = (irq s).2)
    {o s : σ} (h : Since tick Inside o s) (ho : I o) (hsafe : Safe s) :
    Safe o ∧ Since tick Inside (irq o).1 (irq s).1 ∧ (irq s).2 = (irq o).2 := by
  obtain ⟨hout, rfl | ⟨hins, hw⟩⟩ := h
  · exact ⟨hsafe, since_refl (mt (hin s).mpr hout), rfl⟩
  · obtain ⟨hsafe', hw', hans⟩ := within_move hI (fun s => (hin s).mp)
      (fun s hs _ => hmove s hs) hw (hI o ho) hins hsafe
    have hino : Inside (tick o) := by
      by_contra hno
      exact hno (eq_of_within hw hno ▸ hins)
    obtain ⟨hsafe'', hcomm, hans'⟩ := hmove o ho hino hsafe'
    refine ⟨hsafe'', ⟨mt (hin o).mpr hout, Or.inr ⟨(hin s).mp hins, ?_⟩⟩, hans.trans hans'⟩
    rw [hcomm]
    exact hw'

end Sections
