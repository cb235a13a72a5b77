import Mathlib.Logic.Function.Iterate
import Mathlib.Data.List.Basic
import Mathlib.Tactic.SplitIfs

/-! A window that moves round a cycle of `size` slots.

    `next` is the slot after a slot, `slot size i n` the slot `n` steps after `i`, and
    `window f size i n` the contents of the `n` slots from `i` on. As long as the window is not
    longer than the cycle its slots are pairwise different, which is what makes a circular buffer a
    queue: storing just behind the window lengthens it, and stepping its start shortens it. -/

namespace CircularIndex

variable {α : Type*}

/-- The slot after `i`. -/
def next (size i : ℕ) : ℕ := if size ≤ i + 1 then 0 else i + 1

/-- The slot `n` steps after `i`. -/
def slot (size i n : ℕ) : ℕ := (next size)^[n] i

/-- The contents of the `n` slots from `i` on. -/
def window (f : ℕ → α) (size : ℕ) : ℕ → ℕ → List α
  | _, 0 => []
  | i, n + 1 => f i :: window f size (next size i) n

theorem next_lt {size i : ℕ} (h : i < size) : next size i < size := by
  unfold next
  split <;> omega

@[simp] theorem slot_zero (size i : ℕ) : slot size i 0 = i := rfl

theorem slot_succ (size i n : ℕ) : slot size i (n + 1) = slot size (next size i) n :=
  Function.iterate_succ_apply (next size) n i

theorem slot_succ' (size i n : ℕ) : slot size i (n + 1) = next size (slot size i n) :=
  Function.iterate_succ_apply' (next size) n i

theorem slot_add (size i m n : ℕ) : slot size i (m + n) = slot size (slot size i m) n := by
  rw [slot, slot, slot, Nat.add_comm, Function.iterate_add_apply]

/-- Before one full turn a slot is reached with at most one wrap. -/
theorem slot_eq {size i : ℕ} (hi : i < size) : ∀ {n}, n ≤ size →
    slot size i n = if i + n < size then i + n else i + n - size
  | 0, _ => by simp [hi]
  | n + 1, hn => by
    rw [slot_succ', slot_eq hi (Nat.le_of_succ_le hn), next]
    split_ifs <;> omega

theorem slot_lt {size i n : ℕ} (hi : i < size) (hn : n ≤ size) : slot size i n < size := by
  rw [slot_eq hi hn]
  split_ifs <;> omega

/-- Two different offsets of less than one turn are two different slots. -/
theorem slot_ne {size i m n : ℕ} (hi : i < size) (hmn : m < n) (hn : n < size) :
    slot size i m ≠ slot size i n := by
  rw [slot_eq hi (by omega), slot_eq hi (by omega)]
  split_ifs <;> omega

@[simp] theorem window_zero (f : ℕ → α) (size i : ℕ) : window f size i 0 = [] := rfl

theorem window_succ (f : ℕ → α) (size i n : ℕ) :
    window f size i (n + 1) = f i :: window f size (next size i) n := rfl

@[simp] theorem length_window (f : ℕ → α) (size : ℕ) : ∀ i n, (window f size i n).length = n
  | _, 0 => rfl
  | i, n + 1 => by rw [window_succ, List.length_cons, length_window f size _ n]

theorem window_append (f : ℕ → α) (size : ℕ) : ∀ i m n,
    window f size i (m + n) = window f size i m ++ window f size (slot size i m) n
  | _, 0, _ => by simp
  | i, m + 1, n => by
    rw [Nat.add_right_comm, window_succ, window_succ, window_append f size _ m n, slot_succ]
    rfl

theorem window_congr {f g : ℕ → α} {size : ℕ} : ∀ {i n},
    (∀ m < n, f (slot size i m) = g (slot size i m)) → window f size i n = window g size i n
  | _, 0, _ => rfl
  | i, n + 1, h => by
    have h0 : f i = g i := h 0 (Nat.succ_pos n)
    rw [window_succ, window_succ, h0]
    rw [window_congr fun m hm => by simpa only [slot_succ] using h (m + 1) (by omega)]

/-- Storing just behind the window lengthens it by the stored value. -/
theorem window_push (f : ℕ → α) {size i n : ℕ} (hi : i < size) (hn : n < size) (a : α) :
    window (Function.update f (slot size i n) a) size i (n + 1) = window f size i n ++ [a] := by
  rw [window_append, window_succ, window_zero, Function.update_self]
  congr 1
  exact window_congr fun m hm => Function.update_of_ne (slot_ne hi hm hn) a f

/-- Moving the start by `m` slots drops the first `m` values. -/
theorem window_drop (f : ℕ → α) (size i : ℕ) {m n : ℕ} (h : m ≤ n) :
    window f size (slot size i m) (n - m) = (window f size i n).drop m := by
  obtain ⟨k, rfl⟩ := Nat.exists_eq_add_of_le h
  rw [window_append, Nat.add_sub_cancel_left]
  exact (List.drop_left' (length_window f size i m)).symm

theorem window_take (f : ℕ → α) (size i : ℕ) {m n : ℕ} (h : m ≤ n) :
    (window f size i n).take m = window f size i m := by
  obtain ⟨k, rfl⟩ := Nat.exists_eq_add_of_le h
  rw [window_append]
  exact List.take_left' (length_window f size i m)

end CircularIndex
