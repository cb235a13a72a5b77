import Mathlib.Data.List.Induction

/-! The backlog of a queue that serves one job at a time.

    An element of the run may bring a job, may serve one, or neither. The backlog is a walk that is
    reflected at zero: a service that finds nothing is lost, so the backlog is not the number of
    arrivals less the number of services, but that difference over a suffix of the run. -/

namespace Backlog

variable {α : Type*} (arr srv : α → Bool)

/-- The backlog after one more element: an arrival adds a job, a service removes one if there is
    one. -/
def next (n : ℕ) (a : α) : ℕ := n + (arr a).toNat - (srv a).toNat

/-- The backlog after the run `l`, from nothing. -/
def level (l : List α) : ℕ := l.foldl (next arr srv) 0

@[simp] theorem level_nil : level arr srv [] = 0 := rfl

@[simp] theorem level_concat (l : List α) (a : α) :
    level arr srv (l ++ [a]) = next arr srv (level arr srv l) a := by
  simp [level, List.foldl_append]

theorem countP_singleton (p : α → Bool) (a : α) : [a].countP p = (p a).toNat := by
  cases h : p a <;> simp [h]

/-- The backlog is the excess of arrivals over services in a suffix: the one that begins after the
    last service that was lost. -/
theorem exists_suffix (l : List α) :
    ∃ p q, l = p ++ q ∧ q.countP arr = q.countP srv + level arr srv l := by
  induction l using List.reverseRecOn with
  | nil => exact ⟨[], [], rfl, rfl⟩
  | append_singleton l a ih =>
    obtain ⟨p, q, rfl, hq⟩ := ih
    rw [level_concat, next]
    rcases Nat.lt_or_ge (level arr srv (p ++ q) + (arr a).toNat) (srv a).toNat with hlt | hge
    · -- a service that is lost: the suffix starts anew
      exact ⟨p ++ q ++ [a], [], by simp, by simp only [List.countP_nil]; omega⟩
    · refine ⟨p, q ++ [a], by simp, ?_⟩
      rw [List.countP_append, List.countP_append, countP_singleton, countP_singleton, hq]
      omega

/-- BACKLOG RULE: if no segment of the run has more than `k` arrivals in excess of its services, the
    backlog never exceeds `k`. -/
theorem level_le {l : List α} {k : ℕ}
    (h : ∀ p q, l = p ++ q → q.countP arr ≤ q.countP srv + k) : level arr srv l ≤ k := by
  obtain ⟨p, q, hl, hq⟩ := exists_suffix arr srv l
  have := h p q hl
  omega

end Backlog
