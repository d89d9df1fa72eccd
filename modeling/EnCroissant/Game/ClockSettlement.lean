import EnCroissant.Library.Meter
import EnCroissant.Game.SessionRuns

/-!
# Settling the clock during a turn

The clock of the side to move is settled by every tick of the game loop and
before every move.  Each settlement debits whole milliseconds and restarts the
reference instant, so what it cuts off is never debited.
-/

namespace EnCroissant

namespace GameController

variable {R : GameRules}

/-! ## Runs of settlements -/

/-- Settles the clock at each of the instants, until a flag falls. -/
def settleAt (c : GameController R) : List ℕ → Option GameResult × GameController R
  | [] => (none, c)
  | now :: later =>
      match c.settleActiveClock now with
      | (some result, settled) => (some result, settled)
      | (none, settled) => settled.settleAt later

/-- The time of the side that is not to move. -/
def waitingTime (c : GameController R) : Option ℕ :=
  c.clock.bind fun clock ↦ if R.turn c.position = .white then clock.blackTime else clock.whiteTime

/-- The clock after a settlement that leaves the side to move some time. -/
def storeTime (c : GameController R) (clock : ClockState) (remaining now : ℕ) :
    GameController R :=
  { c with clock := some (if R.turn c.position = .white
      then { clock with whiteTime := some remaining, lastTick := now }
      else { clock with blackTime := some remaining, lastTick := now }) }

/-- What a fallen flag of the side to move makes of the game. -/
def timeoutResult (c : GameController R) : GameResult :=
  if R.hasInsufficientMaterial c.position (R.turn c.position).other then
    .draw .insufficientMaterial
  else if (R.turn c.position).other = .white then .whiteWins .timeout
  else .blackWins .timeout

section Store

variable {c : GameController R} {clock : ClockState} {remaining now : ℕ}

@[simp] theorem storeTime_position :
    (c.storeTime clock remaining now).position = c.position := rfl

@[simp] theorem storeTime_moverTime :
    (c.storeTime clock remaining now).moverTime = some remaining := by
  by_cases hturn : R.turn c.position = .white
  · simp [moverTime, storeTime, hturn]
  · simp [moverTime, storeTime, hturn]

theorem storeTime_waitingTime (hclock : c.clock = some clock) :
    (c.storeTime clock remaining now).waitingTime = c.waitingTime := by
  by_cases hturn : R.turn c.position = .white
  · simp [waitingTime, storeTime, hturn, hclock]
  · simp [waitingTime, storeTime, hturn, hclock]

theorem storeTime_clock :
    ∃ clock', (c.storeTime clock remaining now).clock = some clock' ∧ clock'.lastTick = now := by
  refine ⟨_, rfl, ?_⟩
  split_ifs <;> rfl

/-- A settlement debits the side to move, or its flag falls. -/
theorem settleActiveClock_of_moverTime (hclock : c.clock = some clock)
    (hremaining : c.moverTime = some remaining) :
    c.settleActiveClock now =
      if remaining ≤ elapsedMillis clock.lastTick now then
        (some c.timeoutResult, c.storeTime clock 0 now)
      else
        (none, c.storeTime clock (remaining - elapsedMillis clock.lastTick now) now) := by
  have hactive : (if R.turn c.position = .white then clock.whiteTime else clock.blackTime) =
      some remaining := by
    simpa only [moverTime, hclock, Option.bind_some] using hremaining
  simp only [settleActiveClock, hclock, hactive]
  rfl

end Store

/-! ## What a turn is charged -/

/-- The milliseconds of `settle_active_clock`, as a meter of nanoseconds. -/
def settlementMeter : Meter where
  unit := 1000000
  unit_pos := by decide
  charge gap := gap / 1000000 % 2 ^ 64
  charge_le gap := by
    have := Nat.mod_le (gap / 1000000) (2 ^ 64)
    omega

@[simp] theorem settlementMeter_unit : settlementMeter.unit = 1000000 := rfl

theorem elapsedMillis_eq_charge (start now : ℕ) :
    elapsedMillis start now = settlementMeter.charge (now - start) := rfl

/-- Of a gap that the milliseconds' type can hold, a settlement drops what does
not make a whole millisecond. -/
theorem settlementMeter_dropped {gap : ℕ} (h : gap < 2 ^ 64 * 1000000) :
    settlementMeter.dropped gap = gap % 1000000 := by
  have hlt : gap / 1000000 < 2 ^ 64 := Nat.div_lt_of_lt_mul (by omega)
  simp only [Meter.dropped, settlementMeter, Nat.mod_eq_of_lt hlt]
  omega

/-- Settlements charge the side to move for the gaps between them. -/
theorem settleAt_spec {c : GameController R} {clock : ClockState} {remaining : ℕ}
    (hclock : c.clock = some clock) (hremaining : c.moverTime = some remaining)
    (instants : List ℕ) :
    let charged := settlementMeter.charged (Meter.gaps clock.lastTick instants)
    (c.settleAt instants).1 =
        (if instants ≠ [] ∧ remaining ≤ charged then some c.timeoutResult else none) ∧
      (c.settleAt instants).2.moverTime = some (remaining - min remaining charged) ∧
        (c.settleAt instants).2.waitingTime = c.waitingTime := by
  induction instants generalizing c clock remaining with
  | nil => simp [settleAt, hremaining]
  | cons now later ih =>
      rw [settleAt, settleActiveClock_of_moverTime hclock hremaining, elapsedMillis_eq_charge]
      simp only [Meter.gaps_cons, Meter.charged_cons]
      by_cases hflag : remaining ≤ settlementMeter.charge (now - clock.lastTick)
      · have hcharged : remaining ≤ settlementMeter.charge (now - clock.lastTick) +
            settlementMeter.charged (Meter.gaps now later) := by omega
        simp only [if_pos hflag, storeTime_moverTime, storeTime_waitingTime hclock]
        refine ⟨by simp [hcharged], ?_, trivial⟩
        rw [min_eq_left hcharged, Nat.sub_self]
      · simp only [if_neg hflag]
        obtain ⟨clock', hclock', htick⟩ : ∃ clock', (c.storeTime clock
            (remaining - settlementMeter.charge (now - clock.lastTick)) now).clock = some clock' ∧
              clock'.lastTick = now := storeTime_clock
        obtain ⟨hflagged, hmover, hwaiting⟩ := ih hclock' storeTime_moverTime
        rw [htick] at hflagged hmover
        refine ⟨?_, ?_, ?_⟩
        · rw [hflagged]
          cases later with
          | nil => simp [hflag]
          | cons next later =>
              refine if_congr ?_ rfl rfl
              simp only [ne_eq, reduceCtorEq, not_false_eq_true, true_and]
              omega
        · rw [hmover]
          congr 1
          omega
        · rw [hwaiting, storeTime_waitingTime hclock]

/-- After the settlements at the instants, the side to move has been debited the
elapsed time in whole milliseconds, its flag has fallen exactly if that time
reaches what it had left, and the other side was charged nothing. -/
def ChargesElapsed (c : GameController R) (clock : ClockState) (remaining : ℕ)
    (instants : List ℕ) : Prop :=
  let elapsed := (instants.getLastD clock.lastTick - clock.lastTick) / 1000000
  ((c.settleAt instants).1.isSome ↔ instants ≠ [] ∧ remaining ≤ elapsed) ∧
    (c.settleAt instants).2.moverTime = some (remaining - min remaining elapsed) ∧
      (c.settleAt instants).2.waitingTime = c.waitingTime

/-- The clock is charged by elapsed time exactly if the parts of the gaps that the
settlements drop make less than one millisecond, or the elapsed time exceeds the
time left by all the milliseconds dropped. -/
theorem chargesElapsed_iff {c : GameController R} {clock : ClockState} {remaining : ℕ}
    {instants : List ℕ} (hclock : c.clock = some clock)
    (hremaining : c.moverTime = some remaining)
    (hmonotone : (clock.lastTick :: instants).Pairwise (· ≤ ·)) :
    c.ChargesElapsed clock remaining instants ↔
      settlementMeter.lost (Meter.gaps clock.lastTick instants) < 1000000 ∨
        remaining + settlementMeter.lost (Meter.gaps clock.lastTick instants) / 1000000 ≤
          (instants.getLastD clock.lastTick - clock.lastTick) / 1000000 := by
  obtain ⟨hflag, hmover, hwaiting⟩ := settleAt_spec hclock hremaining instants
  have hsum := Meter.sum_gaps hmonotone
  have hexact := settlementMeter.min_charged_eq_iff remaining (Meter.gaps clock.lastTick instants)
  rw [hsum, settlementMeter_unit] at hexact
  refine Iff.trans ?_ hexact
  rw [ChargesElapsed]
  simp only [hflag, hmover, hwaiting, and_true, Option.some.injEq]
  cases instants with
  | nil => simp
  | cons now later =>
      have hisSome : ∀ charged, (if now :: later ≠ [] ∧ remaining ≤ charged then
          some c.timeoutResult else none).isSome = true ↔ remaining ≤ charged := by
        intro charged
        by_cases hcharged : remaining ≤ charged
        · simp [hcharged]
        · simp [hcharged]
      rw [hisSome]
      simp only [ne_eq, reduceCtorEq, not_false_eq_true, true_and]
      constructor
      · rintro ⟨hfell, htime⟩
        exact ⟨by omega, hfell⟩
      · rintro ⟨htime, hfell⟩
        exact ⟨hfell, by omega⟩

/-! ## The ticks of the game loop -/

/-- A settlement reads the clock and the position. -/
theorem settleActiveClock_congr {c c' : GameController R} (hclock : c'.clock = c.clock)
    (hposition : c'.position = c.position) (now : ℕ) :
    (c'.settleActiveClock now).1 = (c.settleActiveClock now).1 ∧
      (c'.settleActiveClock now).2.clock = (c.settleActiveClock now).2.clock := by
  rw [settleActiveClock, settleActiveClock, hclock, hposition]
  cases c.clock with
  | none => exact ⟨rfl, hclock⟩
  | some clock =>
      simp only
      split
      · exact ⟨rfl, rfl⟩
      · split
        · exact ⟨rfl, rfl⟩
        · exact ⟨rfl, rfl⟩

theorem settleAt_congr {c c' : GameController R} (hclock : c'.clock = c.clock)
    (hposition : c'.position = c.position) (instants : List ℕ) :
    (c'.settleAt instants).1 = (c.settleAt instants).1 ∧
      (c'.settleAt instants).2.clock = (c.settleAt instants).2.clock := by
  induction instants generalizing c c' with
  | nil => exact ⟨rfl, hclock⟩
  | cons now later ih =>
      obtain ⟨hresult, hsettledClock⟩ := settleActiveClock_congr hclock hposition now
      rcases hsettle : c.settleActiveClock now with ⟨_ | result, settled⟩
      · rcases hsettle' : c'.settleActiveClock now with ⟨_ | result', settled'⟩
        · obtain ⟨clock, rfl⟩ := settled_eq hsettle
          obtain ⟨clock', rfl⟩ := settled_eq hsettle'
          rw [hsettle, hsettle'] at hsettledClock
          simp only [settleAt, hsettle, hsettle']
          exact ih hsettledClock hposition
        · rw [hsettle, hsettle'] at hresult
          cases hresult
      · rcases hsettle' : c'.settleActiveClock now with ⟨_ | result', settled'⟩
        · rw [hsettle, hsettle'] at hresult
          cases hresult
        · rw [hsettle, hsettle'] at hresult hsettledClock
          simp only [settleAt, hsettle, hsettle']
          exact ⟨hresult, hsettledClock⟩

/-- A flag that falls leaves a clock that was settled at that instant. -/
theorem lastTick_of_flag {c settled : GameController R} {now : ℕ} {result : GameResult}
    (h : c.settleActiveClock now = (some result, settled)) :
    ∃ clock, settled.clock = some clock ∧ clock.lastTick = now := by
  cases hclock : c.clock with
  | none => simp [settleActiveClock, hclock] at h
  | some clock =>
      cases hremaining : c.moverTime with
      | none =>
          have hactive : (if R.turn c.position = .white then clock.whiteTime
              else clock.blackTime) = none := by
            simpa only [moverTime, hclock, Option.bind_some] using hremaining
          simp [settleActiveClock, hclock, hactive] at h
      | some remaining =>
          rw [settleActiveClock_of_moverTime hclock hremaining] at h
          split_ifs at h with hflag
          · obtain ⟨-, rfl⟩ := Prod.mk.inj h
            exact storeTime_clock
          · cases h

/-- Ending a game right after a settlement keeps its clock. -/
theorem clock_endGame {c : GameController R} {clock : ClockState} {now : ℕ}
    (hclock : c.clock = some clock) (htick : clock.lastTick = now) (result : GameResult) :
    (c.endGame result now).2.clock = some clock := by
  by_cases hplaying : c.status = .playing
  · rw [endGame_of_playing hplaying]
    have hzero : elapsedMillis clock.lastTick now = 0 := by rw [htick, elapsedMillis_self]
    cases hturn : R.turn c.position with
    | white =>
        simp [hclock, currentTimes, hplaying, hzero, hturn, ClockState.setTimes]
    | black =>
        simp [hclock, currentTimes, hplaying, hzero, hturn, ClockState.setTimes]
  · rw [endGame_of_ne hplaying, hclock]

/-- The ticks of the game loop settle the clock at their instants, and end the game
when a flag falls. -/
theorem clockTicks_eq_settleAt {c : GameController R} (hplaying : c.status = .playing)
    (instants : List ℕ) :
    (instants.foldl clockTick c).clock = (c.settleAt instants).2.clock ∧
      ((instants.foldl clockTick c).status = .playing ↔ (c.settleAt instants).1 = none) := by
  induction instants generalizing c with
  | nil => exact ⟨rfl, by simp [settleAt, hplaying]⟩
  | cons now later ih =>
      rw [List.foldl_cons, clockTick, if_neg (not_not.mpr hplaying), settleAt]
      rcases hsettle : c.settleActiveClock now with ⟨_ | result, settled⟩
      · obtain ⟨clock, rfl⟩ := settled_eq hsettle
        obtain ⟨hclock, hstatus⟩ := ih (c := ({ c with clock := clock }).bumpRevision) hplaying
        obtain ⟨hresult, hsettled⟩ := @settleAt_congr _ { c with clock := clock }
          ({ c with clock := clock }).bumpRevision rfl rfl later
        exact ⟨hclock.trans hsettled, by rw [hstatus, hresult]⟩
      · obtain ⟨clock, hclock, htick⟩ := lastTick_of_flag hsettle
        have hsettled : settled.status = .playing := by
          obtain ⟨clock', rfl⟩ := settled_eq hsettle
          exact hplaying
        have hended := (ends_endGame result now hsettled).after
        have hstays : ∀ ticks : List ℕ, ticks.foldl clockTick (settled.endGame result now).2 =
            (settled.endGame result now).2 := by
          intro ticks
          induction ticks with
          | nil => rfl
          | cons tick ticks ih => rw [List.foldl_cons, clockTick, if_pos hended, ih]
        simp only [hstays, hended, clock_endGame hclock htick, hclock, reduceCtorEq, and_self]

end GameController

/-! ## A tick between two milliseconds -/

namespace PawnEnding

def timedConfig : GameConfig :=
  { config with
    whiteTimeControl := some ⟨1000, 0⟩
    blackTimeControl := some ⟨1000, 0⟩ }

/-- A game of one second for each side, White to move. -/
def timedController : GameController rules :=
  .fresh "game" 1 timedConfig (fen .start) .start 0

def timedClock : ClockState := ⟨some 1000, some 1000, 0, 0, 0⟩

end PawnEnding

open PawnEnding in
theorem chargesElapsed_one_settlement :
    GameController.ChargesElapsed timedController timedClock 1000 [1000000] := by
  refine (GameController.chargesElapsed_iff (c := timedController) rfl rfl (by decide)).mpr ?_
  exact Or.inl (by decide)

open PawnEnding in
/-- White is settled half a millisecond and one millisecond into the turn, and is
debited nothing. -/
theorem not_chargesElapsed_two_settlements :
    ¬ ∀ (c : GameController rules) (clock : ClockState) (remaining : ℕ) (instants : List ℕ),
      c.clock = some clock → c.moverTime = some remaining →
        (clock.lastTick :: instants).Pairwise (· ≤ ·) →
          c.ChargesElapsed clock remaining instants := by
  intro h
  obtain ⟨-, hmover, -⟩ := h timedController timedClock 1000 [500000, 1000000] rfl rfl (by decide)
  revert hmover
  decide

end EnCroissant
