import Mathlib.Logic.Function.Basic
import Mathlib.Data.List.Basic

/-! Segments of a flat memory.

    A memory is a function `ℕ → α`. `slice f off n` reads the `n` cells from `off` on as a list, and
    `overlay f off l` stores the list `l` from `off` on, one cell after the other. The lemmas say
    what a read returns after a store that covers it, misses it, or meets its end. -/

namespace Segment

variable {α : Type*}

/-- The `n` cells from `off` on. -/
def slice (f : ℕ → α) : ℕ → ℕ → List α
  | _, 0 => []
  | off, n + 1 => f off :: slice f (off + 1) n

/-- The memory after storing `l` from `off` on. -/
def overlay (f : ℕ → α) : ℕ → List α → (ℕ → α)
  | _, [] => f
  | off, a :: l => overlay (Function.update f off a) (off + 1) l

@[simp] theorem slice_zero (f : ℕ → α) (off : ℕ) : slice f off 0 = [] := rfl

theorem slice_succ (f : ℕ → α) (off n : ℕ) :
    slice f off (n + 1) = f off :: slice f (off + 1) n := rfl

@[simp] theorem length_slice (f : ℕ → α) : ∀ off n, (slice f off n).length = n
  | _, 0 => rfl
  | off, n + 1 => by rw [slice_succ, List.length_cons, length_slice f (off + 1) n]

theorem slice_append (f : ℕ → α) : ∀ off m n,
    slice f off (m + n) = slice f off m ++ slice f (off + m) n
  | _, 0, _ => by simp
  | off, m + 1, n => by
    rw [Nat.add_right_comm, slice_succ, slice_succ, slice_append f (off + 1) m n, List.cons_append]
    rw [Nat.add_right_comm off 1 m, Nat.add_assoc off m 1]

theorem take_slice (f : ℕ → α) (off : ℕ) {m n : ℕ} (h : m ≤ n) :
    (slice f off n).take m = slice f off m := by
  obtain ⟨k, rfl⟩ := Nat.exists_eq_add_of_le h
  rw [slice_append]
  exact List.take_left' (length_slice f off m)

theorem drop_slice (f : ℕ → α) (off m n : ℕ) :
    (slice f off (m + n)).drop m = slice f (off + m) n := by
  rw [slice_append]
  exact List.drop_left' (length_slice f off m)

theorem slice_congr {f g : ℕ → α} : ∀ {off n},
    (∀ i, off ≤ i → i < off + n → f i = g i) → slice f off n = slice g off n
  | _, 0, _ => rfl
  | off, n + 1, h => by
    rw [slice_succ, slice_succ, h off (by omega) (by omega)]
    rw [slice_congr fun i h₁ h₂ => h i (by omega) (by omega)]

/-- Reading at `i` after storing `l` from `off` on. -/
theorem overlay_of_lt {f : ℕ → α} : ∀ {off : ℕ} {l : List α} {i : ℕ}, i < off →
    overlay f off l i = f i
  | _, [], _, _ => rfl
  | off, a :: l, i, h => by
    rw [overlay, overlay_of_lt (Nat.lt_succ_of_lt h), Function.update_of_ne (Nat.ne_of_lt h)]

theorem overlay_of_ge : ∀ {f : ℕ → α} {off : ℕ} {l : List α} {i : ℕ}, off + l.length ≤ i →
    overlay f off l i = f i
  | _, _, [], _, _ => rfl
  | f, off, a :: l, i, h => by
    rw [List.length_cons] at h
    rw [overlay, overlay_of_ge (by omega), Function.update_of_ne (by omega)]

/-- A store changes only what it covers. -/
theorem overlay_eq_or (f : ℕ → α) (off : ℕ) (l : List α) (i : ℕ) :
    overlay f off l i = f i ∨ off ≤ i ∧ i < off + l.length := by
  rcases Nat.lt_or_ge i off with hlo | hlo
  · exact Or.inl (overlay_of_lt hlo)
  · rcases Nat.lt_or_ge i (off + l.length) with hhi | hhi
    · exact Or.inr ⟨hlo, hhi⟩
    · exact Or.inl (overlay_of_ge hhi)

/-- A store leaves the same in a cell that held the same before. -/
theorem overlay_congr {i : ℕ} : ∀ {f g : ℕ → α} {off : ℕ} {l : List α}, f i = g i →
    overlay f off l i = overlay g off l i
  | _, _, _, [], h => h
  | f, g, off, a :: l, h => by
    rw [overlay, overlay]
    refine overlay_congr ?_
    rw [Function.update_apply, Function.update_apply, h]

/-- A store that misses the read segment changes nothing there. -/
theorem slice_overlay_disjoint (f : ℕ → α) (off : ℕ) (l : List α) {i n : ℕ}
    (h : i + n ≤ off ∨ off + l.length ≤ i) : slice (overlay f off l) i n = slice f i n := by
  refine slice_congr fun j h₁ h₂ => ?_
  rcases h with h | h
  · exact overlay_of_lt (by omega)
  · exact overlay_of_ge (by omega)

/-- The stored list is read back. -/
theorem slice_overlay (f : ℕ → α) : ∀ (off : ℕ) (l : List α),
    slice (overlay f off l) off l.length = l
  | _, [] => rfl
  | off, a :: l => by
    rw [List.length_cons, slice_succ, overlay, overlay_of_lt (Nat.lt_succ_self off)]
    rw [Function.update_self, slice_overlay _ (off + 1) l]

/-- Reading past the stored list: the list first, then what was there before. -/
theorem slice_overlay_add (f : ℕ → α) (off : ℕ) (l : List α) (n : ℕ) :
    slice (overlay f off l) off (l.length + n) = l ++ slice f (off + l.length) n := by
  rw [slice_append, slice_overlay, slice_overlay_disjoint f off l (Or.inr (Nat.le_refl _))]

theorem overlay_append (f : ℕ → α) : ∀ (off : ℕ) (l m : List α),
    overlay f off (l ++ m) = overlay (overlay f off l) (off + l.length) m
  | _, [], _ => rfl
  | off, a :: l, m => by
    rw [List.cons_append, overlay, overlay_append _ (off + 1) l m, overlay, List.length_cons]
    rw [Nat.add_right_comm, Nat.add_assoc]

/-! ### A property of every cell -/

theorem forall_update {p : α → Prop} {f : ℕ → α} {a : α} (hf : ∀ i, p (f i)) (ha : p a) (i j : ℕ) :
    p (Function.update f i a j) := by
  rw [Function.update_apply]
  split
  · exact ha
  · exact hf j

theorem forall_overlay {p : α → Prop} : ∀ {f : ℕ → α} {l : List α}, (∀ i, p (f i)) →
    (∀ a ∈ l, p a) → ∀ off j, p (overlay f off l j)
  | _, [], hf, _, _, j => hf j
  | _, _ :: _, hf, hl, _, j => by
    refine forall_overlay (forall_update hf (hl _ List.mem_cons_self) _) ?_ _ j
    exact fun a ha => hl a (List.mem_cons_of_mem _ ha)

theorem forall_mem_slice {p : α → Prop} {f : ℕ → α} (hf : ∀ i, p (f i)) :
    ∀ off n, ∀ a ∈ slice f off n, p a
  | _, 0, a, ha => by cases ha
  | off, n + 1, a, ha => by
    rw [slice_succ] at ha
    rcases List.mem_cons.mp ha with rfl | ha
    · exact hf off
    · exact forall_mem_slice hf (off + 1) n a ha

end Segment
