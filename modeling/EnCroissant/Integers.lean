import Mathlib
import EnCroissant.Error

/-!
# Unsigned integers

Counters and lengths are natural numbers; the operations that notice a limit of
64 bits say so.
-/

namespace EnCroissant

def u64Max : ℕ := 2 ^ 64 - 1

def saturatingAdd (a b : ℕ) : ℕ := min (a + b) u64Max

def checkedAdd (a b : ℕ) (error : Error) : Except Error ℕ :=
  if a + b ≤ u64Max then .ok (a + b) else .error error

/-- `u64::try_from` and `usize::try_from`. -/
def toU64 (n : ℕ) (error : Error) : Except Error ℕ :=
  if n ≤ u64Max then .ok n else .error error

theorem checkedAdd_eq_ok {a b c : ℕ} {error : Error} (h : checkedAdd a b error = .ok c) :
    c = a + b ∧ a + b ≤ u64Max := by
  rw [checkedAdd] at h
  split_ifs at h with hle
  exact ⟨(Except.ok.inj h).symm, hle⟩

theorem checkedAdd_of_le {a b : ℕ} (error : Error) (h : a + b ≤ u64Max) :
    checkedAdd a b error = .ok (a + b) :=
  if_pos h

theorem toU64_eq_ok {n m : ℕ} {error : Error} (h : toU64 n error = .ok m) :
    m = n ∧ n ≤ u64Max := by
  rw [toU64] at h
  split_ifs at h with hle
  exact ⟨(Except.ok.inj h).symm, hle⟩

theorem toU64_of_le {n : ℕ} (error : Error) (h : n ≤ u64Max) : toU64 n error = .ok n :=
  if_pos h

end EnCroissant
