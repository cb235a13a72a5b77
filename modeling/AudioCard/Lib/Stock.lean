import AudioCard.Lib.Transit
import Mathlib.Algebra.Order.Ring.Nat

/-! A stock that is supplied and drawn on in turn.

    In each round `m` units come in and `n` go out again. If the two are not the same the difference
    adds up: what is missing is paid for by the stock there is at first, what is too much by the
    room that is left. `lasts_iff` says for how many rounds that goes well. -/

namespace Stock
open Run

variable {ε : Type*}

/-- Two counters over a list read from the left; an element counts for one of them at most. -/
structure Counters (A B : List ε → ℕ) : Prop where
  nil : A [] = 0 ∧ B [] = 0
  concat : ∀ p e, (A (p ++ [e]) = A p ∧ B (p ++ [e]) = B p) ∨
    (A (p ++ [e]) = A p + 1 ∧ B (p ++ [e]) = B p) ∨ (A (p ++ [e]) = A p ∧ B (p ++ [e]) = B p + 1)

/-- With `a` supplies of `m` units and `b` draws of `n` the stock is not below zero, and not above
    `c`, when it was `q` at first. -/
def Within (q c m n a b : ℕ) : Prop := n * b ≤ q + m * a ∧ q + m * a ≤ n * b + c

/-- The stock `q` pays for what is missing in `b` rounds, and the room above it takes what is too
    much in `a` rounds, the last of which is not drawn on yet. -/
def Lasts (q c m n a b : ℕ) : Prop :=
  (n - m) * b ≤ q ∧ (0 < a → q + m + (m - n) * (a - 1) ≤ c)

variable {q c m n k : ℕ}

/-- One more supply, after as many draws as supplies. -/
theorem lasts_supply : Lasts q c m n k k ∧ Within q c m n (k + 1) k ↔ Lasts q c m n (k + 1) k := by
  rcases Nat.eq_zero_or_pos k with rfl | hk
  · simp [Lasts, Within]
  obtain ⟨k, rfl⟩ := Nat.exists_eq_add_of_le hk
  simp only [Lasts, Within, Nat.mul_add, Nat.mul_one, Nat.add_sub_cancel, Nat.add_sub_cancel_left,
    hk, Nat.succ_pos, true_imp_iff]
  rcases Nat.le_total m n with h | h
  · obtain ⟨d, rfl⟩ := Nat.exists_eq_add_of_le h
    simp only [Nat.add_sub_cancel_left, Nat.sub_eq_zero_of_le h, Nat.zero_mul, Nat.add_mul]
    omega
  · obtain ⟨d, rfl⟩ := Nat.exists_eq_add_of_le h
    simp only [Nat.add_sub_cancel_left, Nat.sub_eq_zero_of_le h, Nat.zero_mul, Nat.add_mul]
    omega

/-- One more draw, for the supply that is waiting. -/
theorem lasts_draw :
    Lasts q c m n (k + 1) k ∧ Within q c m n (k + 1) (k + 1) ↔ Lasts q c m n (k + 1) (k + 1) := by
  simp only [Lasts, Within, Nat.mul_add, Nat.mul_one, Nat.add_sub_cancel, Nat.succ_pos,
    true_imp_iff]
  rcases Nat.le_total m n with h | h
  · obtain ⟨d, rfl⟩ := Nat.exists_eq_add_of_le h
    simp only [Nat.add_sub_cancel_left, Nat.sub_eq_zero_of_le h, Nat.zero_mul, Nat.add_mul]
    omega
  · obtain ⟨d, rfl⟩ := Nat.exists_eq_add_of_le h
    simp only [Nat.add_sub_cancel_left, Nat.sub_eq_zero_of_le h, Nat.zero_mul, Nat.add_mul]
    omega

/-- STOCK RULE: if supplies and draws take turns, the stock stays within its bounds after every
    prefix exactly if what is missing in all the draws does not exceed it at first, and what is too
    much in all the supplies finds room. -/
theorem lasts_iff {A B : List ε → ℕ} (h : Counters A B) (hq : q ≤ c) {es : List ε}
    (hturn : ∀ p r, es = p ++ r → B p ≤ A p ∧ A p ≤ B p + 1) :
    (∀ p r, es = p ++ r → Within q c m n (A p) (B p)) ↔ Lasts q c m n (A es) (B es) := by
  induction es using List.reverseRecOn with
  | nil =>
    refine iff_of_true (fun p r heq => ?_) ?_
    · rw [(List.append_eq_nil_iff.mp heq.symm).1, h.nil.1, h.nil.2]
      exact ⟨Nat.zero_le _, by simpa using hq⟩
    · rw [h.nil.1, h.nil.2]
      exact ⟨Nat.zero_le _, fun hlt => absurd hlt (Nat.lt_irrefl 0)⟩
  | append_singleton es e ih =>
    rw [forall_prefix_concat] at hturn ⊢
    obtain ⟨hbefore, hafter⟩ := hturn
    have hes := hbefore es [] (by simp)
    rw [ih hbefore]
    rcases h.concat es e with ⟨hA, hB⟩ | ⟨hA, hB⟩ | ⟨hA, hB⟩
    · rw [hA, hB]
      refine and_iff_left_of_imp fun hlasts => ?_
      exact (ih hbefore).mpr hlasts es [] (by simp)
    · have heq : A es = B es := by omega
      rw [hA, hB, heq]
      exact lasts_supply
    · have heq : A es = B es + 1 := by omega
      rw [hA, hB, heq]
      exact lasts_draw

end Stock
