import Mathlib.Data.Nat.Notation
import Mathlib.Data.List.Basic

/-! Lists cut into groups of one size.

    `Grouped n P l` says that `l` is a sequence of groups of `n` elements, each of which satisfies
    `P`. Cutting such a list at a multiple of `n`, or joining two of them, leaves the groups whole;
    a list whose length is not a multiple of `n` is none. -/

namespace Groups

variable {α : Type*} {n : ℕ} {P Q : List α → Prop}

/-- `l` splits at multiples of `n` into groups that satisfy `P`. -/
inductive Grouped (n : ℕ) (P : List α → Prop) : List α → Prop
  | nil : Grouped n P []
  | cons {g l : List α} : g.length = n → P g → Grouped n P l → Grouped n P (g ++ l)

theorem Grouped.mono (h : ∀ g, P g → Q g) {l : List α} (hl : Grouped n P l) : Grouped n Q l := by
  induction hl with
  | nil => exact .nil
  | cons hg hP _ ih => exact .cons hg (h _ hP) ih

theorem Grouped.dvd_length {l : List α} (hl : Grouped n P l) : n ∣ l.length := by
  induction hl with
  | nil => exact ⟨0, rfl⟩
  | cons hg _ _ ih =>
    rw [List.length_append, hg]
    exact Nat.dvd_add (Nat.dvd_refl n) ih

theorem Grouped.append {l m : List α} (hl : Grouped n P l) (hm : Grouped n P m) :
    Grouped n P (l ++ m) := by
  induction hl with
  | nil => exact hm
  | cons hg hP _ ih =>
    rw [List.append_assoc]
    exact .cons hg hP ih

/-- Cutting at a multiple of `n` cuts between two groups. -/
theorem Grouped.split {l : List α} (hl : Grouped n P l) :
    ∀ k, Grouped n P (l.take (n * k)) ∧ Grouped n P (l.drop (n * k)) := by
  induction hl with
  | nil => intro k; simp only [List.take_nil, List.drop_nil]; exact ⟨.nil, .nil⟩
  | @cons g l hg hP hl ih =>
    intro k
    cases k with
    | zero => exact ⟨.nil, .cons hg hP hl⟩
    | succ k =>
      have hk : n * (k + 1) = g.length + n * k := by rw [hg, Nat.mul_succ, Nat.add_comm]
      rw [hk, List.take_length_add_append, List.drop_length_add_append]
      exact ⟨.cons hg hP (ih k).1, (ih k).2⟩

theorem Grouped.take {l : List α} (hl : Grouped n P l) {k : ℕ} (hk : n ∣ k) :
    Grouped n P (l.take k) := by
  obtain ⟨k, rfl⟩ := hk
  exact (hl.split k).1

theorem Grouped.drop {l : List α} (hl : Grouped n P l) {k : ℕ} (hk : n ∣ k) :
    Grouped n P (l.drop k) := by
  obtain ⟨k, rfl⟩ := hk
  exact (hl.split k).2

/-- A list of equal elements. -/
theorem grouped_replicate {a : α} (h : P (List.replicate n a)) {k : ℕ} (hk : n ∣ k) :
    Grouped n P (List.replicate k a) := by
  obtain ⟨k, rfl⟩ := hk
  induction k with
  | zero => exact .nil
  | succ k ih =>
    rw [Nat.mul_succ, Nat.add_comm, ← List.replicate_append_replicate]
    exact .cons List.length_replicate h ih

/-- A list of the right length is grouped when its pieces at the multiples of `n` satisfy `P`. -/
theorem grouped_of_pieces : ∀ (k : ℕ) {l : List α}, l.length = n * k →
    (∀ i, i < k → P ((l.drop (n * i)).take n)) → Grouped n P l
  | 0, l, hl, _ => by
    rw [List.eq_nil_of_length_eq_zero hl]
    exact .nil
  | k + 1, l, hl, hP => by
    have hn : n ≤ l.length := by rw [hl, Nat.mul_succ]; exact Nat.le_add_left ..
    rw [← List.take_append_drop n l]
    refine .cons (List.length_take_of_le hn) ?_ (grouped_of_pieces k ?_ ?_)
    · simpa using hP 0 (Nat.succ_pos k)
    · rw [List.length_drop, hl, Nat.mul_succ, Nat.add_sub_cancel]
    · intro i hi
      have := hP (i + 1) (Nat.succ_lt_succ hi)
      rw [Nat.mul_succ, Nat.add_comm] at this
      rwa [List.drop_drop]

theorem length_flatten_of_forall {xs : List (List α)} (h : ∀ x ∈ xs, x.length = n) :
    xs.flatten.length = n * xs.length := by
  induction xs with
  | nil => rfl
  | cons x xs ih =>
    rw [List.flatten_cons, List.length_append, h x List.mem_cons_self,
      ih fun y hy => h y (List.mem_cons_of_mem x hy), List.length_cons, Nat.mul_succ, Nat.add_comm]

/-- Two rows of groups agree as far as their elements do. -/
theorem isPrefix_of_flatten {xs : List (List α)} (hn : 0 < n) :
    ∀ {ys : List (List α)}, (∀ x ∈ xs, x.length = n) → (∀ y ∈ ys, y.length = n) →
      xs.flatten <+: ys.flatten → xs <+: ys := by
  induction xs with
  | nil => intro ys _ _ _; exact List.nil_prefix
  | cons x xs ih =>
    rintro ys hx hy ⟨t, ht⟩
    have hxlen := hx x List.mem_cons_self
    cases ys with
    | nil =>
      simp only [List.flatten_cons, List.flatten_nil, List.append_eq_nil_iff] at ht
      rw [ht.1.1] at hxlen
      exact absurd hxlen.symm (Nat.ne_of_gt hn)
    | cons y ys =>
      simp only [List.flatten_cons, List.append_assoc] at ht
      obtain ⟨rfl, hrest⟩ := List.append_inj ht (hxlen.trans (hy y List.mem_cons_self).symm)
      refine List.cons_prefix_cons.mpr ⟨rfl, ih ?_ ?_ ⟨t, hrest⟩⟩
      · exact fun z hz => hx z (List.mem_cons_of_mem _ hz)
      · exact fun z hz => hy z (List.mem_cons_of_mem _ hz)

end Groups
