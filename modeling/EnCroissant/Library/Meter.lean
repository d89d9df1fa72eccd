import Mathlib.Algebra.BigOperators.Group.List.Lemmas
import Mathlib.Tactic.Ring

/-!
# Meters that charge whole units

A meter is read at a list of instants.  At each of them it charges a number of
whole units for the time since the reading before, and forgets the rest.  What it
charges falls short of the elapsed units by the units it forgot.
-/

/-- How many units of a size are charged for a gap between two readings. -/
structure Meter where
  unit : ℕ
  unit_pos : 0 < unit
  charge : ℕ → ℕ
  charge_le : ∀ gap, charge gap * unit ≤ gap

namespace Meter

/-- The gaps between consecutive readings. -/
def gaps (start : ℕ) : List ℕ → List ℕ
  | [] => []
  | now :: later => (now - start) :: gaps now later

@[simp] theorem gaps_nil (start : ℕ) : gaps start [] = [] := rfl

@[simp] theorem gaps_cons (start now : ℕ) (later : List ℕ) :
    gaps start (now :: later) = (now - start) :: gaps now later := rfl

/-- The gaps of readings in order add up to the elapsed time. -/
theorem sum_gaps {start : ℕ} {readings : List ℕ}
    (h : (start :: readings).Pairwise (· ≤ ·)) :
    (gaps start readings).sum = readings.getLastD start - start := by
  induction readings generalizing start with
  | nil => simp
  | cons now later ih =>
      obtain ⟨hstart, hlater⟩ := List.pairwise_cons.mp h
      have hnow : start ≤ now := hstart now List.mem_cons_self
      have hlast : now ≤ later.getLastD now := by
        rcases List.mem_cons.mp (List.getLastD_mem_cons (l := later) (a := now)) with heq | hmem
        · exact heq.ge
        · exact (List.pairwise_cons.mp hlater).1 _ hmem
      rw [gaps_cons, List.sum_cons, ih hlater, List.getLastD_cons]
      omega

variable (m : Meter)

/-- The part of a gap that is not charged. -/
def dropped (gap : ℕ) : ℕ := gap - m.charge gap * m.unit

/-- The units charged for the gaps. -/
def charged (gaps : List ℕ) : ℕ := (gaps.map m.charge).sum

/-- The time not charged for the gaps. -/
def lost (gaps : List ℕ) : ℕ := (gaps.map m.dropped).sum

@[simp] theorem charged_nil : m.charged [] = 0 := rfl

@[simp] theorem charged_cons (gap : ℕ) (gaps : List ℕ) :
    m.charged (gap :: gaps) = m.charge gap + m.charged gaps := rfl

@[simp] theorem lost_nil : m.lost [] = 0 := rfl

@[simp] theorem lost_cons (gap : ℕ) (gaps : List ℕ) :
    m.lost (gap :: gaps) = m.dropped gap + m.lost gaps := rfl

theorem charge_add_dropped (gap : ℕ) : m.unit * m.charge gap + m.dropped gap = gap := by
  have hle := m.charge_le gap
  rw [dropped, Nat.mul_comm m.unit]
  omega

/-- Time is charged or lost. -/
theorem charged_add_lost (gaps : List ℕ) :
    m.unit * m.charged gaps + m.lost gaps = gaps.sum := by
  induction gaps with
  | nil => simp
  | cons gap gaps ih =>
      calc m.unit * m.charged (gap :: gaps) + m.lost (gap :: gaps)
          = (m.unit * m.charge gap + m.dropped gap) +
              (m.unit * m.charged gaps + m.lost gaps) := by
            rw [charged_cons, lost_cons]
            ring
        _ = (gap :: gaps).sum := by rw [m.charge_add_dropped, ih, List.sum_cons]

/-- The elapsed units are those charged and those lost. -/
theorem sum_div_unit (gaps : List ℕ) :
    gaps.sum / m.unit = m.charged gaps + m.lost gaps / m.unit := by
  rw [← m.charged_add_lost, Nat.mul_add_div m.unit_pos]

/-- A limit is charged as the elapsed units are, exactly if less than one unit is
lost or the limit was exceeded by all that is lost. -/
theorem min_charged_eq_iff (limit : ℕ) (gaps : List ℕ) :
    (min limit (m.charged gaps) = min limit (gaps.sum / m.unit) ∧
        (limit ≤ m.charged gaps ↔ limit ≤ gaps.sum / m.unit)) ↔
      m.lost gaps < m.unit ∨ limit + m.lost gaps / m.unit ≤ gaps.sum / m.unit := by
  have hsum := m.sum_div_unit gaps
  have hzero : m.lost gaps / m.unit = 0 ↔ m.lost gaps < m.unit := by
    rw [Nat.div_eq_zero_iff]
    have := m.unit_pos
    omega
  rw [← hzero]
  generalize m.lost gaps / m.unit = units at *
  omega

end Meter
