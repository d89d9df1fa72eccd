import Mathlib

/-!
# Runs of a list

The runs of a test are the longest stretches of a list on which it holds.  A run is cut
down to what stands between its outermost anchors; what is left of a list so treated
begins and ends with anchors, run by run.
-/

namespace Runs

variable {α β : Type*}

/-- The runs from the left; `skip` counts what is left of the run that the scan is in. -/
def runsFrom (test : α → Bool) : (skip start : ℕ) → List α → List (ℕ × ℕ)
  | _, _, [] => []
  | skip + 1, start, _ :: rest => runsFrom test skip (start + 1) rest
  | 0, start, a :: rest =>
      if test a then
        (start, start + 1 + (rest.takeWhile test).length) ::
          runsFrom test (rest.takeWhile test).length (start + 1) rest
      else runsFrom test 0 (start + 1) rest

/-- The first place of each run and the place behind it. -/
def runs (test : α → Bool) (as : List α) : List (ℕ × ℕ) := runsFrom test 0 0 as

/-- Whether the test holds at a place. -/
def holdsAt (test : α → Bool) (as : List α) (i : ℕ) : Bool := as[i]?.any test

/-- A longest stretch. -/
structure IsRun (test : α → Bool) (as : List α) (run : ℕ × ℕ) : Prop where
  lt : run.1 < run.2
  le : run.2 ≤ as.length
  inside : ∀ i, run.1 ≤ i → i < run.2 → holdsAt test as i = true
  before : run.1 = 0 ∨ holdsAt test as (run.1 - 1) = false
  after : holdsAt test as run.2 = false

theorem holdsAt_congr {test : α → Bool} {test' : β → Bool} {as : List α} {bs : List β}
    (h : as.map test = bs.map test') (i : ℕ) : holdsAt test as i = holdsAt test' bs i := by
  have hi := congrArg (fun l : List Bool ↦ l[i]?.any id) h
  simp only [List.getElem?_map, Option.any_map] at hi
  exact hi

/-- The runs depend on nothing but where the test holds. -/
theorem runsFrom_map (test : α → Bool) (skip start : ℕ) (as : List α) :
    runsFrom id skip start (as.map test) = runsFrom test skip start as := by
  induction as generalizing skip start with
  | nil => rw [List.map_nil, runsFrom, runsFrom]
  | cons a as ih =>
      rw [List.map_cons]
      cases skip with
      | succ skip => rw [runsFrom, runsFrom, ih]
      | zero =>
          rw [runsFrom, runsFrom, ih, ih, List.takeWhile_map, List.length_map]
          rfl

theorem runs_congr {test : α → Bool} {test' : β → Bool} {as : List α} {bs : List β}
    (h : as.map test = bs.map test') : runs test as = runs test' bs := by
  rw [runs, runs, ← runsFrom_map test, ← runsFrom_map test', h]

theorem holdsAt_lt {test : α → Bool} {as : List α} {i : ℕ} (h : holdsAt test as i = true) :
    i < as.length := by
  by_contra hle
  rw [holdsAt, List.getElem?_eq_none (Nat.le_of_not_lt hle)] at h
  cases h

theorem holdsAt_drop (test : α → Bool) (as : List α) (n i : ℕ) :
    holdsAt test (as.drop n) i = holdsAt test as (n + i) := by
  rw [holdsAt, holdsAt, List.getElem?_drop]

/-- The stretch from a place on. -/
theorem holdsAt_takeWhile (test : α → Bool) (as : List α) :
    (∀ i < (as.takeWhile test).length, holdsAt test as i = true) ∧
      holdsAt test as (as.takeWhile test).length = false := by
  induction as with
  | nil => exact ⟨fun i hi ↦ (Nat.not_lt_zero i hi).elim, rfl⟩
  | cons a as ih =>
      by_cases ha : test a = true
      · rw [List.takeWhile_cons_of_pos ha, List.length_cons]
        refine ⟨fun i hi ↦ ?_, ih.2⟩
        cases i with
        | zero => simpa [holdsAt] using ha
        | succ i => exact ih.1 i (Nat.lt_of_succ_lt_succ hi)
      · rw [List.takeWhile_cons_of_neg ha]
        refine ⟨fun i hi ↦ (Nat.not_lt_zero i hi).elim, ?_⟩
        simpa [holdsAt] using ha

/-- Behind a place at which the test holds it holds up to the end of the run. -/
theorem isRun_of_first {test : α → Bool} {as rest : List α} {a : α} {start : ℕ}
    (hrest : as.drop start = a :: rest) (ha : test a = true)
    (hbefore : start = 0 ∨ holdsAt test as (start - 1) = false) :
    IsRun test as (start, start + 1 + (rest.takeWhile test).length) := by
  have hnext : as.drop (start + 1) = rest := by
    rw [← List.drop_drop, hrest, List.drop_succ_cons, List.drop_zero]
  have hfirst : holdsAt test as start = true := by
    have h := holdsAt_drop test as start 0
    rw [hrest, Nat.add_zero] at h
    rw [← h]
    exact ha
  obtain ⟨hholds, hstop⟩ := holdsAt_takeWhile test rest
  have hlength : (as.drop start).length = rest.length + 1 := by rw [hrest, List.length_cons]
  have hle := (List.takeWhile_prefix test (l := rest)).length_le
  rw [List.length_drop] at hlength
  refine ⟨by simp only; omega, by simp only; omega, fun i hi hlt ↦ ?_, hbefore, ?_⟩
  · rcases hi.eq_or_lt with rfl | hgt
    · exact hfirst
    · have hi' := hholds (i - (start + 1)) (by simp only at hlt hgt; omega)
      rw [← hnext, holdsAt_drop, Nat.add_sub_cancel' hgt] at hi'
      exact hi'
  · rw [← hnext, holdsAt_drop] at hstop
    rw [hnext] at hstop
    exact hstop

/-- The scan is at the end of a run, inside one whose end lies `skip` places ahead, or behind a
place at which the test fails. -/
theorem isRun_of_mem_runsFrom {test : α → Bool} {as : List α} {run : ℕ × ℕ} (rest : List α) :
    ∀ {skip start : ℕ}, as.drop start = rest →
      (holdsAt test as (start + skip) = false ∨
        (skip = 0 ∧ (start = 0 ∨ holdsAt test as (start - 1) = false))) →
      run ∈ runsFrom test skip start rest → IsRun test as run := by
  induction rest with
  | nil =>
      intro skip start _ _ h
      rw [runsFrom] at h
      cases h
  | cons a rest ih =>
      intro skip start hrest hscan h
      have hnext : as.drop (start + 1) = rest := by
        rw [← List.drop_drop, hrest, List.drop_succ_cons, List.drop_zero]
      cases skip with
      | succ skip =>
          rw [runsFrom] at h
          refine ih hnext (.inl ?_) h
          rcases hscan with hstop | ⟨hzero, -⟩
          · rwa [Nat.add_assoc, Nat.add_comm 1]
          · cases hzero
      | zero =>
          have hfirst : holdsAt test as start = test a := by
            have h := holdsAt_drop test as start 0
            rw [hrest, Nat.add_zero] at h
            rw [← h]
            rfl
          rw [runsFrom] at h
          split_ifs at h with ha
          · have hbefore : start = 0 ∨ holdsAt test as (start - 1) = false := by
              rcases hscan with hstop | ⟨-, hbefore⟩
              · rw [Nat.add_zero, hfirst, ha] at hstop
                cases hstop
              · exact hbefore
            have hrun := isRun_of_first hrest ha hbefore
            rcases List.mem_cons.mp h with rfl | hlater
            · exact hrun
            · exact ih hnext (.inl hrun.after) hlater
          · refine ih hnext (.inr ⟨rfl, .inr ?_⟩) h
            rw [Nat.add_sub_cancel, hfirst]
            exact Bool.eq_false_iff.mpr ha

theorem isRun_of_mem {test : α → Bool} {as : List α} {run : ℕ × ℕ} (h : run ∈ runs test as) :
    IsRun test as run :=
  isRun_of_mem_runsFrom as List.drop_zero (.inr ⟨rfl, .inl rfl⟩) h

theorem exists_mem_runsFrom {test : α → Bool} {as : List α} {i : ℕ}
    (hi : holdsAt test as i = true) (rest : List α) :
    ∀ {skip start : ℕ}, as.drop start = rest → start + skip ≤ i →
      ∃ run ∈ runsFrom test skip start rest, run.1 ≤ i ∧ i < run.2 := by
  induction rest with
  | nil =>
      intro skip start hrest hle
      have hlength := List.drop_eq_nil_iff.mp hrest
      have hlt := holdsAt_lt hi
      omega
  | cons a rest ih =>
      intro skip start hrest hle
      have hnext : as.drop (start + 1) = rest := by
        rw [← List.drop_drop, hrest, List.drop_succ_cons, List.drop_zero]
      cases skip with
      | succ skip =>
          rw [runsFrom]
          exact ih hnext (by omega)
      | zero =>
          rw [runsFrom]
          split_ifs with ha
          · rcases Nat.lt_or_ge i (start + 1 + (rest.takeWhile test).length) with hlt | hge
            · exact ⟨_, List.mem_cons_self, hle, hlt⟩
            · obtain ⟨run, hrun, hin⟩ := ih hnext hge
              exact ⟨run, List.mem_cons_of_mem _ hrun, hin⟩
          · refine ih hnext ?_
            have hfirst : holdsAt test as start = test a := by
              have h := holdsAt_drop test as start 0
              rw [hrest, Nat.add_zero] at h
              rw [← h]
              rfl
            have hne : i ≠ start := by
              rintro rfl
              exact ha (hfirst.symm.trans hi)
            omega

/-- Every place at which the test holds lies in a run. -/
theorem exists_run {test : α → Bool} {as : List α} {i : ℕ} (hi : holdsAt test as i = true) :
    ∃ run ∈ runs test as, run.1 ≤ i ∧ i < run.2 :=
  exists_mem_runsFrom hi as List.drop_zero (Nat.zero_le _)

/-- A stretch on which the test holds lies in every run that it meets. -/
theorem IsRun.covers {test : α → Bool} {as : List α} {run : ℕ × ℕ} (h : IsRun test as run)
    {first last i : ℕ} (hfirst : first ≤ i) (hlast : i ≤ last)
    (hstretch : ∀ j, first ≤ j → j ≤ last → holdsAt test as j = true) (hi : run.1 ≤ i)
    (hi' : i < run.2) : run.1 ≤ first ∧ last < run.2 := by
  constructor
  · by_contra hlt
    rcases h.before with hzero | hbefore
    · omega
    · rw [hstretch (run.1 - 1) (by omega) (by omega)] at hbefore
      cases hbefore
  · by_contra hge
    have hafter := h.after
    rw [hstretch run.2 (by omega) (by omega)] at hafter
    cases hafter

/-! ## Cutting runs down -/

/-- A place between two anchors on a stretch. -/
def Between (carried anchor : ℕ → Prop) (i : ℕ) : Prop :=
  ∃ first last, first ≤ i ∧ i ≤ last ∧ anchor first ∧ anchor last ∧
    ∀ j, first ≤ j → j ≤ last → carried j

theorem Between.carried {carried anchor : ℕ → Prop} {i : ℕ} (h : Between carried anchor i) :
    carried i := by
  obtain ⟨first, last, hfirst, hlast, -, -, hall⟩ := h
  exact hall i hfirst hlast

/-- The whole stretch between two anchors lies between them. -/
theorem between_of_stretch {carried anchor : ℕ → Prop} {first last : ℕ} (hfirst : anchor first)
    (hlast : anchor last) (hall : ∀ j, first ≤ j → j ≤ last → carried j) {j : ℕ}
    (hj : first ≤ j) (hj' : j ≤ last) : Between carried anchor j :=
  ⟨first, last, hj, hj', hfirst, hlast, hall⟩

/-- Where no anchor stands, the places between anchors go on to both sides. -/
theorem Between.step {carried anchor : ℕ → Prop} {i : ℕ} (h : Between carried anchor i)
    (hi : ¬anchor i) :
    Between carried anchor (i + 1) ∧ 0 < i ∧ Between carried anchor (i - 1) := by
  obtain ⟨first, last, hle, hle', hfirst, hlast, hall⟩ := h
  have hne : first ≠ i := by
    rintro rfl
    exact hi hfirst
  have hne' : i ≠ last := by
    rintro rfl
    exact hi hlast
  exact ⟨between_of_stretch hfirst hlast hall (by omega) (by omega), by omega,
    between_of_stretch hfirst hlast hall (by omega) (by omega)⟩

/-- When the test holds exactly between anchors, its runs begin and end with anchors. -/
theorem IsRun.anchors {test : α → Bool} {as : List α} {carried anchor : ℕ → Prop}
    (hbetween : ∀ i, holdsAt test as i = true ↔ Between carried anchor i) {run : ℕ × ℕ}
    (h : IsRun test as run) : anchor run.1 ∧ anchor (run.2 - 1) := by
  have hlt := h.lt
  constructor
  · by_contra hanchor
    have hfirst := (hbetween run.1).mp (h.inside run.1 le_rfl hlt)
    obtain ⟨-, hpos, hprevious⟩ := hfirst.step hanchor
    rcases h.before with hzero | hbefore
    · omega
    · rw [(hbetween _).mpr hprevious] at hbefore
      cases hbefore
  · by_contra hanchor
    have hlast := (hbetween (run.2 - 1)).mp (h.inside _ (by omega) (by omega))
    have hnext := (hlast.step hanchor).1
    rw [Nat.sub_add_cancel (by omega)] at hnext
    have hafter := h.after
    rw [(hbetween _).mpr hnext] at hafter
    cases hafter

end Runs
