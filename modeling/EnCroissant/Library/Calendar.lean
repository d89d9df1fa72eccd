import Mathlib

/-!
# Months and days

The months of the Gregorian calendar in their order, the day on which each begins,
and the month of a day.  Days and instants are counted from the start of 1970.
-/

namespace Calendar

def isLeapYear (year : ℕ) : Bool :=
  year % 4 = 0 && (year % 100 ≠ 0 || year % 400 = 0)

def daysInMonth (year month : ℕ) : ℕ :=
  match month with
  | 2 => if isLeapYear year then 29 else 28
  | 4 | 6 | 9 | 11 => 30
  | _ => 31

theorem daysInMonth_ge (year month : ℕ) : 28 ≤ daysInMonth year month := by
  unfold daysInMonth
  split
  · split_ifs <;> omega
  all_goals omega

@[ext] structure Month where
  year : ℕ
  month : ℕ
  one_le : 1 ≤ month
  le_twelve : month ≤ 12
  deriving DecidableEq, Repr

namespace Month

/-- The months in a row. -/
def number (m : Month) : ℕ := 12 * m.year + (m.month - 1)

theorem number_injective : Function.Injective number := by
  intro a b h
  have ha := a.one_le
  have ha' := a.le_twelve
  have hb := b.one_le
  have hb' := b.le_twelve
  rw [number, number] at h
  ext <;> omega

instance : LinearOrder Month := LinearOrder.lift' number number_injective

theorem lt_iff_number {a b : Month} : a < b ↔ a.number < b.number := Iff.rfl

theorem le_iff_number {a b : Month} : a ≤ b ↔ a.number ≤ b.number := Iff.rfl

/-- Months are ordered by their year, then by their place in it. -/
theorem lt_iff {a b : Month} :
    a < b ↔ a.year < b.year ∨ a.year = b.year ∧ a.month < b.month := by
  have ha := a.one_le
  have ha' := a.le_twelve
  have hb := b.one_le
  have hb' := b.le_twelve
  rw [lt_iff_number, number, number]
  omega

def next (m : Month) : Month :=
  if h : m.month = 12 then ⟨m.year + 1, 1, le_rfl, by omega⟩
  else ⟨m.year, m.month + 1, by omega, by have := m.le_twelve; omega⟩

theorem number_next (m : Month) : m.next.number = m.number + 1 := by
  have hm := m.one_le
  rw [next]
  split_ifs with h
  · simp only [number]
    omega
  · simp only [number]
    omega

theorem lt_next (m : Month) : m < m.next := by
  rw [lt_iff_number, number_next]
  exact Nat.lt_succ_self _

theorem next_le_iff {a b : Month} : a.next ≤ b ↔ a < b := by
  rw [le_iff_number, number_next, lt_iff_number]
  exact Nat.succ_le_iff

def ofNumber (k : ℕ) : Month := ⟨k / 12, k % 12 + 1, by omega, by omega⟩

theorem number_ofNumber (k : ℕ) : (ofNumber k).number = k := by
  change 12 * (k / 12) + (k % 12 + 1 - 1) = k
  omega

end Month

/-- January 1970. -/
def epochNumber : ℕ := 12 * 1970

/-- The first day of the month so many months after January 1970. -/
def firstDayAfter : ℕ → ℕ
  | 0 => 0
  | k + 1 => firstDayAfter k + daysInMonth (1970 + k / 12) (k % 12 + 1)

theorem firstDayAfter_strictMono : StrictMono firstDayAfter := by
  refine strictMono_nat_of_lt_succ fun k ↦ ?_
  have hdays := daysInMonth_ge (1970 + k / 12) (k % 12 + 1)
  rw [firstDayAfter]
  omega

theorem le_firstDayAfter (k : ℕ) : 28 * k ≤ firstDayAfter k := by
  induction k with
  | zero => exact Nat.zero_le _
  | succ k ih =>
      have hdays := daysInMonth_ge (1970 + k / 12) (k % 12 + 1)
      rw [firstDayAfter]
      omega

/-- The months from January 1970 to the month of a day. -/
def monthsUntil (day : ℕ) : ℕ :=
  Nat.findGreatest (fun k ↦ firstDayAfter k ≤ day) (day / 28)

theorem le_monthsUntil_iff {k day : ℕ} : k ≤ monthsUntil day ↔ firstDayAfter k ≤ day := by
  constructor
  · intro h
    have hgreatest : firstDayAfter (monthsUntil day) ≤ day :=
      Nat.findGreatest_spec (P := fun k ↦ firstDayAfter k ≤ day) (Nat.zero_le _) (Nat.zero_le _)
    exact (firstDayAfter_strictMono.monotone h).trans hgreatest
  · intro h
    refine Nat.le_findGreatest ?_ h
    have hdays := le_firstDayAfter k
    omega

def millisPerDay : ℕ := 24 * 60 * 60 * 1000

/-- The first instant of a month from 1970 on. -/
def Month.firstInstant (m : Month) : ℕ :=
  firstDayAfter (m.number - epochNumber) * millisPerDay

/-- The month of an instant. -/
def monthOf (instant : ℕ) : Month :=
  Month.ofNumber (epochNumber + monthsUntil (instant / millisPerDay))

theorem le_monthOf_iff {m : Month} (hm : 1970 ≤ m.year) {instant : ℕ} :
    m ≤ monthOf instant ↔ m.firstInstant ≤ instant := by
  have hnumber : epochNumber ≤ m.number := by
    rw [epochNumber, Month.number]
    omega
  rw [Month.le_iff_number, monthOf, Month.number_ofNumber, Month.firstInstant,
    ← Nat.le_div_iff_mul_le (by decide), ← le_monthsUntil_iff]
  omega

theorem monthOf_lt_iff {m : Month} (hm : 1970 ≤ m.year) {instant : ℕ} :
    monthOf instant < m ↔ instant < m.firstInstant := by
  rw [← not_le, le_monthOf_iff hm, not_le]

theorem year_monthOf (instant : ℕ) : 1970 ≤ (monthOf instant).year := by
  change 1970 ≤ (epochNumber + monthsUntil (instant / millisPerDay)) / 12
  rw [epochNumber]
  omega

theorem monthOf_firstInstant {m : Month} (hm : 1970 ≤ m.year) : monthOf m.firstInstant = m := by
  refine le_antisymm ?_ ((le_monthOf_iff hm).mpr le_rfl)
  have hnext : 1970 ≤ m.next.year := by
    rw [Month.next]
    split_ifs <;> simp only <;> omega
  rw [← not_lt, ← Month.next_le_iff, le_monthOf_iff hnext, not_le]
  refine Nat.mul_lt_mul_of_pos_right (firstDayAfter_strictMono ?_) (by decide)
  rw [Month.number_next, epochNumber, Month.number]
  omega

theorem firstInstant_monthOf_le (instant : ℕ) : (monthOf instant).firstInstant ≤ instant :=
  (le_monthOf_iff (year_monthOf instant)).mp le_rfl

end Calendar
