import Mathlib

/-!
# The states of a run

A system that takes its inputs one after the other: what holds of every state,
how two states of a run are related, and since when something holds.
-/

namespace Trace

universe u v

variable {σ : Type u} {ι : Type v}

def state (next : σ → ι → σ) (start : σ) (inputs : ℕ → ι) : ℕ → σ
  | 0 => start
  | n + 1 => next (state next start inputs n) (inputs n)

variable {next : σ → ι → σ} {start : σ} {inputs : ℕ → ι}

theorem state_invariant {P : σ → Prop} (hstart : P start)
    (hnext : ∀ {s} a, P s → P (next s a)) (n : ℕ) :
    P (state next start inputs n) := by
  induction n with
  | zero => exact hstart
  | succ n ih => exact hnext (inputs n) ih

/-- What holds at some point, and not at the start, holds since some step. -/
theorem state_since {P : σ → Prop} {n : ℕ} (hstart : ¬P start)
    (h : P (state next start inputs n)) :
    ∃ m < n, ¬P (state next start inputs m) ∧
      ∀ k, m < k → k ≤ n → P (state next start inputs k) := by
  induction n with
  | zero => exact absurd h hstart
  | succ n ih =>
      by_cases hbefore : P (state next start inputs n)
      · obtain ⟨m, hm, hnot, hsince⟩ := ih hbefore
        refine ⟨m, hm.trans (Nat.lt_succ_self n), hnot, fun k hk hkn ↦ ?_⟩
        rcases Nat.le_succ_iff.mp hkn with hle | rfl
        · exact hsince k hk hle
        · exact h
      · refine ⟨n, Nat.lt_succ_self n, hbefore, fun k hk hkn ↦ ?_⟩
        obtain rfl : k = n + 1 := le_antisymm hkn hk
        exact h

end Trace
