import Mathlib

/-!
# Decimal texts

The digits of a number, and reading an unsigned number of bounded size.
-/

namespace Decimal

def digits (n : ℕ) : List Char := Nat.toDigits 10 n

/-- The number below `limit` that a text stands for; a sign `+` may stand in front. -/
def parse (limit : ℕ) (text : List Char) : Option ℕ :=
  let unsigned := if text.head? = some '+' then text.tail else text
  if unsigned ≠ [] ∧ unsigned.all Char.isDigit ∧ Nat.ofDigitChars 10 unsigned 0 < limit then
    some (Nat.ofDigitChars 10 unsigned 0)
  else none

variable {m n limit : ℕ}

theorem isDigit_digits : ∀ c ∈ digits n, c.isDigit = true :=
  fun _ hc ↦ Nat.isDigit_of_mem_toDigits (by decide) (by decide) hc

@[simp] theorem digits_ne_nil : digits n ≠ [] := Nat.toDigits_ne_nil

theorem ofDigitChars_digits : Nat.ofDigitChars 10 (digits n) 0 = n :=
  Nat.ofDigitChars_ten_toDigits

theorem parse_digits (h : n < limit) : parse limit (digits n) = some n := by
  have hplus : (digits n).head? ≠ some '+' := by
    intro hhead
    exact absurd (isDigit_digits '+' (List.mem_of_mem_head? hhead)) (by decide)
  have hdigits : (digits n).all Char.isDigit = true := List.all_eq_true.mpr isDigit_digits
  rw [parse, if_neg hplus, ofDigitChars_digits, if_pos ⟨digits_ne_nil, hdigits, h⟩]

theorem digits_injective : Function.Injective digits := by
  intro m n h
  have hvalue := congrArg (Nat.ofDigitChars 10 · 0) h
  simpa only [ofDigitChars_digits] using hvalue

theorem length_digits_le {k : ℕ} (hk : 0 < k) (h : n < 10 ^ k) : (digits n).length ≤ k :=
  (Nat.length_toDigits_le_iff (by decide) hk).mpr h

/-- Digits end where the first other character stands. -/
theorem digits_append_inj {c : Char} (hc : c.isDigit = false) {s t : List Char}
    (h : digits m ++ c :: s = digits n ++ c :: t) : m = n := by
  have htake : ∀ (k : ℕ) (u : List Char),
      (digits k ++ c :: u).takeWhile Char.isDigit = digits k := by
    intro k u
    rw [List.takeWhile_append_of_pos isDigit_digits, List.takeWhile_cons_of_neg (by simp [hc]),
      List.append_nil]
  have hdigits := congrArg (List.takeWhile Char.isDigit) h
  rw [htake, htake] at hdigits
  exact digits_injective hdigits

end Decimal
