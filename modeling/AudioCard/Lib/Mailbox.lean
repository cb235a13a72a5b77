import AudioCard.Lib.Run
import Mathlib.Data.List.ReduceOption

/-! A mailbox with one slot.

    While the box is open, a put fills the slot and overwrites what was in it; a take empties the
    slot and returns its contents; opening and closing empty it. What is taken is the latest put,
    untouched since; a put is taken unless something overwrites or drops it first; and all that is
    ever taken is a sublist of what was put. -/

namespace Mailbox
open Run

variable {α : Type*}

structure State (α : Type*) where
  isOpen : Bool
  slot : Option α

inductive Op (α : Type*)
  | openBox
  | closeBox
  | put (a : α)
  | take
  | idle

def step (s : State α) : Op α → State α × Option α
  | .openBox => (⟨true, none⟩, none)
  | .closeBox => (⟨false, none⟩, none)
  | .put a => (⟨s.isOpen, if s.isOpen then some a else none⟩, none)
  | .take => (⟨s.isOpen, none⟩, s.slot)
  | .idle => (s, none)

/-- The closed, empty box. -/
def init : State α := ⟨false, none⟩

/-- The values put, in order. -/
def puts (ops : List (Op α)) : List α :=
  ops.filterMap fun
    | .put a => some a
    | _ => none

/-- What is in the slot was put while the box was open, and nothing has happened to it since. -/
theorem exists_put_of_slot (ops : List (Op α)) : ∀ {a : α}, (final step init ops).slot = some a →
    ∃ p q, ops = p ++ .put a :: q ∧ (final step init p).isOpen = true ∧ ∀ o ∈ q, o = .idle := by
  induction ops using List.reverseRecOn with
  | nil => intro a h; simp [init] at h
  | append_singleton ops o ih =>
    intro a h
    rw [final_concat] at h
    cases o with
    | openBox => simp [step] at h
    | closeBox => simp [step] at h
    | take => simp [step] at h
    | put a' =>
      simp only [step, Option.ite_none_right_eq_some, Option.some.injEq] at h
      obtain ⟨hopen, rfl⟩ := h
      exact ⟨ops, [], rfl, hopen, by simp⟩
    | idle =>
      obtain ⟨p, q, rfl, hopen, hq⟩ := ih h
      refine ⟨p, q ++ [.idle], by simp, hopen, ?_⟩
      intro o ho
      rcases List.mem_append.mp ho with ho | ho
      · exact hq o ho
      · exact List.mem_singleton.mp ho

/-- An open box has been opened, and not closed since. -/
theorem exists_open_of_isOpen (ops : List (Op α)) : (final step init ops).isOpen = true →
    ∃ p q, ops = p ++ .openBox :: q ∧ .closeBox ∉ q := by
  induction ops using List.reverseRecOn with
  | nil => intro h; simp [init] at h
  | append_singleton ops o ih =>
    intro h
    rw [final_concat] at h
    cases o with
    | openBox => exact ⟨ops, [], rfl, by simp⟩
    | closeBox => simp [step] at h
    | put a =>
      obtain ⟨p, q, rfl, hq⟩ := ih h
      exact ⟨p, q ++ [.put a], by simp, by simpa using hq⟩
    | take =>
      obtain ⟨p, q, rfl, hq⟩ := ih h
      exact ⟨p, q ++ [.take], by simp, by simpa using hq⟩
    | idle =>
      obtain ⟨p, q, rfl, hq⟩ := ih h
      exact ⟨p, q ++ [.idle], by simp, by simpa using hq⟩

/-- A box that has been opened and never closed is open. -/
theorem isOpen_of_mem {ops : List (Op α)} (hopen : .openBox ∈ ops) (hclose : .closeBox ∉ ops) :
    (final step init ops).isOpen = true := by
  induction ops using List.reverseRecOn with
  | nil => cases hopen
  | append_singleton ops o ih =>
    rw [List.mem_append, List.mem_singleton] at hopen hclose
    rw [not_or] at hclose
    rw [final_concat]
    rcases hopen with hopen | rfl
    · have := ih hopen hclose.1
      cases o with
      | openBox => rfl
      | closeBox => exact absurd rfl hclose.2
      | _ => exact this
    · rfl

/-- What is in the slot is returned by the next take, if nothing but takes and idle steps come
    before. -/
theorem mem_outputs_of_slot {a : α} (q : List (Op α)) {s : State α} (hs : s.slot = some a)
    (hq : ∀ o ∈ q, o = .take ∨ o = .idle) : some a ∈ outputs step s (q ++ [.take]) := by
  induction q generalizing s with
  | nil => simp [step, hs]
  | cons o q ih =>
    rw [List.cons_append, outputs_cons]
    rcases hq o (List.mem_cons_self ..) with rfl | rfl
    · rw [step, hs]
      exact List.mem_cons_self ..
    · refine List.mem_cons_of_mem _ (ih hs ?_)
      exact fun o ho => hq o (List.mem_cons_of_mem _ ho)

/-- Idle steps return nothing. -/
theorem outputs_idle (q : List (Op α)) (s : State α) (hq : ∀ o ∈ q, o = .idle) :
    ∀ x ∈ outputs step s q, x = none := by
  induction q with
  | nil => intro x hx; simp at hx
  | cons o q ih =>
    intro x hx
    obtain rfl := hq o (List.mem_cons_self ..)
    rcases List.mem_cons.mp hx with rfl | hx
    · rfl
    · exact ih (fun o ho => hq o (List.mem_cons_of_mem _ ho)) x hx

/-- What is taken is a sublist of what was in the slot and what is put. -/
theorem outputs_sublist (ops : List (Op α)) (s : State α) :
    (outputs step s ops).reduceOption.Sublist (s.slot.toList ++ puts ops) := by
  induction ops generalizing s with
  | nil => simp
  | cons o ops ih =>
    have ih := ih (step s o).1
    cases o with
    | openBox => simpa [step, puts] using ih.trans (List.sublist_append_right s.slot.toList _)
    | closeBox => simpa [step, puts] using ih.trans (List.sublist_append_right s.slot.toList _)
    | idle => simpa [step, puts] using ih
    | take =>
      cases hs : s.slot with
      | none => simpa [step, puts, hs] using ih
      | some a => simpa [step, puts, hs] using ih
    | put a =>
      have hput : (step s (.put a)).1.slot.toList.Sublist [a] := by
        simp only [step]
        split <;> simp
      have := (ih.trans (hput.append (List.Sublist.refl (puts ops)))).trans
        (List.sublist_append_right s.slot.toList _)
      simpa [step, puts] using this

end Mailbox
