import Mathlib
import EnCroissant.Game.Session

/-!
# The order of events

Along every run of a session the revision counts the changes of the state, the
end of the game is reported at most once and after every move, and what was
finished stays as it is.
-/

namespace EnCroissant

namespace GameController

variable {R : GameRules} {c c' : GameController R} {now : ℕ}

/-! ## Revisions of the controller -/

/-- The report at an instant stays, and with it all that a finished game keeps. -/
structure SameReport (now : ℕ) (c c' : GameController R) : Prop where
  status : c'.status = c.status
  revision : c'.revision = c.revision
  claimed : c'.terminalAttemptClaimed = c.terminalAttemptClaimed
  line : c'.line = c.line
  state : c'.getState now = c.getState now
  clock : c.status ≠ .playing → c'.clock = c.clock

/-- A game ends, one revision after the controller `c`. -/
structure Ends (c c' : GameController R) : Prop where
  before : c.status = .playing
  after : c'.status ≠ .playing
  claimed : c'.terminalAttemptClaimed = false
  revision : c'.revision = saturatingAdd c.revision 1

theorem SameReport.refl (now : ℕ) (c : GameController R) : SameReport now c c :=
  ⟨rfl, rfl, rfl, rfl, rfl, fun _ ↦ rfl⟩

theorem elapsedMillis_self (now : ℕ) : elapsedMillis now now = 0 := by
  simp [elapsedMillis]

/-- Settling the clock shows the same times. -/
theorem settled_times {settled : GameController R}
    (h : c.settleActiveClock now = (none, settled)) (hplaying : c.status = .playing) :
    settled.currentTimes now = c.currentTimes now := by
  unfold settleActiveClock at h
  cases hclock : c.clock with
  | none =>
      rw [hclock] at h
      simp only [Prod.mk.injEq, true_and] at h
      rw [← h]
  | some clock =>
      rw [hclock] at h
      simp only at h
      cases hturn : R.turn c.position with
      | white =>
          cases htime : clock.whiteTime with
          | none =>
              simp only [hturn, htime, if_true, Prod.mk.injEq, true_and] at h
              rw [← h]
              simp [currentTimes, hclock, hplaying, hturn, htime]
          | some remaining =>
              simp only [hturn, htime, if_true] at h
              by_cases hflag : remaining ≤ elapsedMillis clock.lastTick now
              · simp [hflag] at h
              · simp only [if_neg hflag, Prod.mk.injEq, true_and] at h
                rw [← h]
                simp [currentTimes, hclock, hplaying, hturn, htime, elapsedMillis_self]
      | black =>
          cases htime : clock.blackTime with
          | none =>
              simp only [hturn, htime, reduceCtorEq, if_false, Prod.mk.injEq, true_and] at h
              rw [← h]
              simp [currentTimes, hclock, hplaying, hturn, htime]
          | some remaining =>
              simp only [hturn, htime, reduceCtorEq, if_false] at h
              by_cases hflag : remaining ≤ elapsedMillis clock.lastTick now
              · simp [hflag] at h
              · simp only [if_neg hflag, Prod.mk.injEq, true_and] at h
                rw [← h]
                simp [currentTimes, hclock, hplaying, hturn, htime, elapsedMillis_self]

/-- Equal lines, times and revisions make equal reports. -/
theorem getState_congr {later : ℕ} (hline : c'.line = c.line)
    (htimes : c'.currentTimes later = c.currentTimes now) (hgame : c'.gameId = c.gameId)
    (hsession : c'.session = c.session) (hrevision : c'.revision = c.revision)
    (hstatus : c'.status = c.status) (hfen : c'.initialFen = c.initialFen)
    (hconfig : c'.config = c.config) :
    c'.getState later = c.getState now := by
  obtain ⟨-, hmoves, hposition, -⟩ := line_ext hline
  simp only [getState, htimes, hgame, hsession, hrevision, hstatus, hfen, hconfig, hmoves,
    hposition]

theorem sameReport_settled {settled : GameController R}
    (h : c.settleActiveClock now = (none, settled)) (hplaying : c.status = .playing) :
    SameReport now c settled := by
  have htimes := settled_times h hplaying
  obtain ⟨clock, rfl⟩ := settled_eq h
  exact ⟨rfl, rfl, rfl, rfl, getState_congr rfl htimes rfl rfl rfl rfl rfl rfl,
    fun hne ↦ absurd hplaying hne⟩

theorem ends_endGame (result : GameResult) (now : ℕ) (h : c.status = .playing) :
    Ends c (c.endGame result now).2 := by
  rw [endGame_of_playing h]
  exact ⟨h, by simp, rfl, rfl⟩

theorem checkGameEnd_ends (hplaying : c.status = .playing) :
    c.checkGameEnd now = c ∨ Ends c (c.checkGameEnd now) := by
  unfold checkGameEnd
  cases c.positionResult with
  | none => exact .inl rfl
  | some result => exact .inr (ends_endGame result _ hplaying)

/-- A refused move keeps the report, or it finds that the flag fell. -/
theorem applyMove_error {uci : String} {e : Error} (h : c.applyMove uci now = (.error e, c')) :
    SameReport now c c' ∨ Ends c c' := by
  rcases c.applyMove_cases uci now with ⟨-, heq⟩ | ⟨hplaying, hrest⟩
  · rw [h] at heq
    rw [(Prod.mk.inj heq).2]
    exact .inl (.refl now c)
  · rcases hrest with ⟨result, settled, hsettle, heq⟩ | ⟨settled, hsettle, ⟨e', heq⟩ | ⟨mv, -, heq⟩⟩
    all_goals rw [h] at heq
    · rw [(Prod.mk.inj heq).2]
      obtain ⟨clock, rfl⟩ := settled_eq hsettle
      have hends := ends_endGame (c := { c with clock := clock }) result now hplaying
      exact .inr ⟨hplaying, hends.after, hends.claimed, hends.revision⟩
    · rw [(Prod.mk.inj heq).2]
      exact .inl (sameReport_settled hsettle hplaying)
    · simp at heq

/-- A move that is played counts one revision, and its end of the game another. -/
theorem applyMove_ok_revision {uci : String} {m : GameMove}
    (h : c.applyMove uci now = (.ok m, c')) :
    c.status = .playing ∧ ∃ played : GameController R, played.status = .playing ∧
      played.revision = saturatingAdd c.revision 1 ∧ (c' = played ∨ Ends played c') := by
  rcases c.applyMove_cases uci now with ⟨-, heq⟩ | ⟨hplaying, hrest⟩
  · simp [h] at heq
  · rcases hrest with ⟨result, settled, -, heq⟩ | ⟨settled, hsettle, ⟨e, heq⟩ | ⟨mv, -, heq⟩⟩
    · simp [h] at heq
    · simp [h] at heq
    · obtain ⟨clock, rfl⟩ := settled_eq hsettle
      rw [h] at heq
      refine ⟨hplaying, ({ c with clock := clock }.playMove uci mv now).2, hplaying, rfl, ?_⟩
      rw [(Prod.mk.inj heq).2]
      exact checkGameEnd_ends hplaying

theorem takeBackMoves_ok_revision {count : ℕ} (h : c.takeBackMoves count now = (.ok (), c')) :
    ∃ cut : GameController R, cut.status = .playing ∧
      cut.revision = saturatingAdd c.revision 1 ∧ (c' = cut ∨ Ends cut c') := by
  obtain ⟨position, positionHistory, clock, hframe⟩ := rebuildPositionFromMoves_frame
    { c.cancelEngineRequest with moves := popMoves count c.moves, status := .playing } now
  rcases c.takeBackMoves_cases count now with ⟨e, rebuilt, -, heq⟩ | ⟨rebuilt, hrebuild, heq⟩
  · simp [h] at heq
  · rw [hrebuild] at hframe
    simp only at hframe
    subst hframe
    rw [h] at heq
    rw [(Prod.mk.inj heq).2]
    exact ⟨_, rfl, rfl, checkGameEnd_ends rfl⟩

end GameController

namespace GameSession

open GameController

variable {R : GameRules} {s s' : GameSession R} {now : ℕ}

/-! ## Transitions of the session -/

/-- What an action does to a session: nothing that is reported, one step of the
game with its event, or the end of the game with its event, perhaps after a last
move. -/
inductive Transition (now : ℕ) (s s' : GameSession R) : Prop where
  | kept (same : SameReport now s.controller s'.controller) (events : s'.events = s.events)
  | moved (before : s.controller.status = .playing) (after : s'.controller.status = .playing)
      (revision : s'.controller.revision = saturatingAdd s.controller.revision 1)
      (event : GameEvent) (notOver : event.isGameOver = false)
      (eventRevision : event.revision = s'.controller.revision)
      (events : s'.events = s.events ++ [event])
  | ended (before : s.controller.status = .playing) (after : s'.controller.status ≠ .playing)
      (claimed : s'.controller.terminalAttemptClaimed = true)
      (revision : s'.controller.revision = saturatingAdd s.controller.revision 1)
      (event : GameOverEvent) (eventRevision : event.revision = s'.controller.revision)
      (events : s'.events = s.events ++ [.gameOver event])
  | movedLast (before : s.controller.status = .playing) (after : s'.controller.status ≠ .playing)
      (claimed : s'.controller.terminalAttemptClaimed = true)
      (revision : s'.controller.revision =
        saturatingAdd (saturatingAdd s.controller.revision 1) 1)
      (last : GameMoveEvent) (lastRevision : last.revision = s'.controller.revision - 1)
      (event : GameOverEvent) (eventRevision : event.revision = s'.controller.revision)
      (events : s'.events = s.events ++ [.move last, .gameOver event])

theorem attemptTerminalEvent_playing (h : s.controller.status = .playing) :
    s.attemptTerminalEvent = s := by
  rw [attemptTerminalEvent, h]

theorem attemptTerminalEvent_claimed (h : s.controller.terminalAttemptClaimed = true) :
    s.attemptTerminalEvent = s := by
  rw [attemptTerminalEvent]
  split
  · rfl
  · rw [if_pos h]

/-- The first attempt after the end reports it. -/
theorem attemptTerminalEvent_ended (h : s.controller.status ≠ .playing)
    (hclaimed : s.controller.terminalAttemptClaimed = false) :
    ∃ event : GameOverEvent, event.revision = s.controller.revision ∧
      s.attemptTerminalEvent =
        { s with
          controller := { s.controller with terminalAttemptClaimed := true }
          events := s.events ++ [.gameOver event] } := by
  cases hstatus : s.controller.status with
  | playing => exact absurd hstatus h
  | finished result =>
      refine ⟨s.overEvent result, rfl, ?_⟩
      rw [attemptTerminalEvent, hstatus]
      simp only [hclaimed, Bool.false_eq_true, if_false]

theorem transition_ended {c : GameController R} (hends : Ends s.controller c) :
    Transition now s ({ s with controller := c } : GameSession R).attemptTerminalEvent := by
  obtain ⟨event, hrevision, heq⟩ := attemptTerminalEvent_ended
    (s := { s with controller := c }) hends.after hends.claimed
  rw [heq]
  exact .ended hends.before hends.after rfl hends.revision event hrevision rfl

/-- A step of the game is reported, and its end after it. -/
theorem transition_moved {c played : GameController R} (hbefore : s.controller.status = .playing)
    (hplaying : played.status = .playing)
    (hrevision : played.revision = saturatingAdd s.controller.revision 1)
    (hafter : c = played ∨ Ends played c) (fen : String) (at' : ℕ) :
    Transition now s
      ((({ s with controller := c } : GameSession R).emitMove fen at').attemptTerminalEvent) := by
  rcases hafter with rfl | hends
  · rw [attemptTerminalEvent_playing (s := ({ s with controller := c } : GameSession R).emitMove
      fen at') hplaying]
    refine .moved hbefore hplaying hrevision _ rfl ?_ rfl
    simp [GameEvent.revision, moveEventRevision, hplaying, emitMove]
  · obtain ⟨event, heventRevision, heq⟩ := attemptTerminalEvent_ended
      (s := ({ s with controller := c } : GameSession R).emitMove fen at') hends.after
      hends.claimed
    rw [heq]
    refine .movedLast hbefore hends.after rfl (by rw [← hrevision]; exact hends.revision) _ ?_
      event heventRevision (List.append_assoc _ _ _)
    cases hstatus : c.status with
    | playing => exact absurd hstatus hends.after
    | finished result => simp [moveEventRevision, hstatus, emitMove]

theorem Transition.refl (now : ℕ) (s : GameSession R) : Transition now s s :=
  .kept (.refl now _) rfl

theorem transition_playMove (hclaimed : s.controller.status ≠ .playing →
      s.controller.terminalAttemptClaimed = true) (uci : String) (now : ℕ) :
    Transition now s (s.playMove uci now).2 := by
  unfold playMove
  rcases hmove : s.controller.applyMove uci now with ⟨e | gameMove, c⟩
  · simp only
    rcases applyMove_error hmove with hsame | hends
    · split_ifs with hstatus
      · exact .kept hsame rfl
      · have hclaim : c.terminalAttemptClaimed = true :=
          hsame.claimed.trans (hclaimed (hsame.status ▸ hstatus))
        simp only
        rw [attemptTerminalEvent_claimed (s := { s with controller := c }) hclaim]
        exact .kept hsame rfl
    · rw [if_neg hends.after]
      exact transition_ended hends
  · obtain ⟨hbefore, played, hplaying, hrevision, hafter⟩ := applyMove_ok_revision hmove
    exact transition_moved hbefore hplaying hrevision hafter gameMove.fenAfter now

theorem transition_takeBackMove (hreplays : Replays s.controller) (expectedSession now : ℕ) :
    Transition now s (s.takeBackMove expectedSession now).2 := by
  unfold takeBackMove
  split
  · exact .refl now s
  · split_ifs with hstatus
    · exact .refl now s
    · exact .refl now s
    · obtain ⟨c, hcut, -⟩ := hreplays.takeBackMoves s.takeBackCount now
      rw [hcut]
      obtain ⟨cut, hplaying, hrevision, hafter⟩ := takeBackMoves_ok_revision hcut
      exact transition_moved (not_not.mp hstatus) hplaying hrevision hafter _ now

theorem sameReport_cancelEngineRequest (c : GameController R) (now : ℕ) :
    SameReport now c c.cancelEngineRequest :=
  ⟨rfl, rfl, rfl, rfl, rfl, fun _ ↦ rfl⟩

theorem transition_clockTick (s : GameSession R) (now : ℕ) :
    Transition now s (s.clockTick now) := by
  unfold clockTick
  by_cases hstatus : s.controller.status = .playing
  · simp only [hstatus, ne_eq, not_true_eq_false, if_false]
    rcases hsettle : s.controller.settleActiveClock now with ⟨_ | result, settled⟩
    all_goals have hsettled := settled_eq hsettle
    all_goals obtain ⟨clock, rfl⟩ := hsettled
    · have htick : s.controller.clockTick now =
          ({ s.controller with clock := clock } : GameController R).bumpRevision := by
        rw [GameController.clockTick, if_neg (not_not.mpr hstatus), hsettle]
      have hplaying : (s.controller.clockTick now).status = .playing := by
        rw [htick]
        exact hstatus
      simp only [hplaying, not_true_eq_false, if_false]
      refine .moved hstatus hplaying ?_ _ rfl rfl rfl
      rw [htick]
      rfl
    · have hends := ends_endGame (c := { s.controller with clock := clock }) result now
        hstatus
      have htick : s.controller.clockTick now =
          (({ s.controller with clock := clock } : GameController R).endGame result now).2 := by
        rw [GameController.clockTick, if_neg (not_not.mpr hstatus), hsettle]
      rw [htick, if_pos hends.after]
      exact transition_ended ⟨hstatus, hends.after, hends.claimed, hends.revision⟩
  · rw [if_pos hstatus]
    exact .refl now s

theorem sameReport_beginEngineRequest (c : GameController R) (now : ℕ) :
    SameReport now c c.beginEngineRequest.2 := by
  rcases c.beginEngineRequest_cases with heq | ⟨context, -, -, -, -, heq⟩
  · rw [heq]
    exact .refl now c
  · rw [heq]
    exact ⟨rfl, rfl, rfl, rfl, rfl, fun _ ↦ rfl⟩

theorem sameReport_registerEngineRequestId (c : GameController R)
    (context : EngineRequestContext) (requestId now : ℕ) :
    SameReport now c (c.registerEngineRequestId context requestId).2 := by
  unfold registerEngineRequestId
  split
  · exact .refl now c
  · split_ifs
    · exact ⟨rfl, rfl, rfl, rfl, rfl, fun _ ↦ rfl⟩
    · exact .refl now c

/-- An end of the game by resignation or by a failed engine. -/
theorem transition_endGame (hclaimed : s.controller.status ≠ .playing →
      s.controller.terminalAttemptClaimed = true) {c : GameController R}
    (hsame : SameReport now s.controller c) (result : GameResult) :
    Transition now s ({ s with controller := (c.endGame result now).2 } :
      GameSession R).attemptTerminalEvent := by
  by_cases hstatus : c.status = .playing
  · have hends := ends_endGame result now hstatus
    exact transition_ended ⟨hsame.status ▸ hstatus, hends.after, hends.claimed,
      hsame.revision ▸ hends.revision⟩
  · rw [endGame_of_ne hstatus]
    have hclaim : c.terminalAttemptClaimed = true :=
      hsame.claimed.trans (hclaimed (hsame.status ▸ hstatus))
    rw [attemptTerminalEvent_claimed (s := { s with controller := c }) hclaim]
    exact .kept hsame rfl

/-- Every action is one of the transitions. -/
theorem transition_act (hreplays : Replays s.controller) (hclaimed : s.controller.status ≠ .playing →
      s.controller.terminalAttemptClaimed = true) (now : ℕ) (a : SessionAction) :
    Transition now s (s.act now a) := by
  cases a with
  | makeMove expectedSession uci expectedPly =>
      rw [act, makeMove]
      split
      · exact .refl now s
      · split_ifs
        · exact .refl now s
        · exact .refl now s
        · exact transition_playMove hclaimed uci now
  | takeBackMove expectedSession => exact transition_takeBackMove hreplays expectedSession now
  | resign expectedSession color =>
      rw [act, resign]
      split
      · exact .refl now s
      · split_ifs
        · exact .refl now s
        · split
          · exact .refl now s
          · exact transition_endGame hclaimed (.refl now _) _
  | abort expectedSession =>
      rw [act, abort]
      split
      · exact .refl now s
      · exact .kept (sameReport_cancelEngineRequest s.controller now) rfl
  | clockTick => exact transition_clockTick s now
  | beginRequest => exact .kept (sameReport_beginEngineRequest s.controller now) rfl
  | register context requestId =>
      exact .kept (sameReport_registerEngineRequestId s.controller context requestId now) rfl
  | reply context requestId turn uci =>
      rw [act, commitEngineMove]
      split_ifs
      · exact .refl now s
      · exact transition_playMove hclaimed uci now
  | engineFailed reason =>
      exact transition_endGame (c := { s.controller with engineThinking := false }) hclaimed
        ⟨rfl, rfl, rfl, rfl, rfl, fun _ ↦ rfl⟩ (.interrupted reason)
  | complete => exact .kept (.refl now _) rfl
  | shutdown => exact .kept (sameReport_cancelEngineRequest s.controller now) rfl

/-! ## The invariant -/

/-- The end is claimed and reported exactly when the game has ended, and up to
the last revision number the events come in the order of their revisions. -/
structure EventsOk (s : GameSession R) : Prop where
  replays : Replays s.controller
  claimed : s.controller.status ≠ .playing → s.controller.terminalAttemptClaimed = true
  overs : s.events.countP GameEvent.isGameOver = if s.controller.status = .playing then 0 else 1
  sorted : s.controller.revision < u64Max → (s.events.map GameEvent.revision).Pairwise (· < ·)
  bounded : s.controller.revision < u64Max → ∀ e ∈ s.events,
    e.revision ≤ s.controller.revision ∧
      (s.controller.status ≠ .playing → e.isGameOver = false → e.revision < s.controller.revision)
  overRevision : ∀ e ∈ s.events, e.isGameOver = true → s.controller.status ≠ .playing ∧
    (s.controller.revision < u64Max → e.revision = s.controller.revision)

theorem lt_of_saturatingAdd {n : ℕ} (h : saturatingAdd n 1 < u64Max) :
    n < u64Max ∧ saturatingAdd n 1 = n + 1 := by
  unfold saturatingAdd at h ⊢
  omega

theorem pairwise_concat {ns : List ℕ} {n : ℕ} (bound : ℕ) (h : ns.Pairwise (· < ·))
    (hbound : ∀ m ∈ ns, m ≤ bound) (hn : bound < n) : (ns ++ [n]).Pairwise (· < ·) := by
  rw [List.pairwise_append]
  refine ⟨h, List.pairwise_singleton _ _, fun m hm k hk ↦ ?_⟩
  rw [List.mem_singleton.mp hk]
  exact (hbound m hm).trans_lt hn

theorem EventsOk.transition (h : EventsOk s) (hreplays : Replays s'.controller)
    (htransition : Transition now s s') : EventsOk s' := by
  have hrevisions : s.controller.revision < u64Max →
      ∀ m ∈ s.events.map GameEvent.revision, m ≤ s.controller.revision := by
    intro hbound m hm
    obtain ⟨e, he, rfl⟩ := List.mem_map.mp hm
    exact (h.bounded hbound e he).1
  cases htransition with
  | kept same events =>
      refine ⟨hreplays, ?_, ?_, ?_, ?_, ?_⟩
      · rw [same.status, same.claimed]
        exact h.claimed
      · rw [events, same.status]
        exact h.overs
      · rw [events, same.revision]
        exact h.sorted
      · rw [events, same.revision, same.status]
        exact h.bounded
      · rw [events, same.revision, same.status]
        exact h.overRevision
  | moved before after revision event notOver eventRevision events =>
      refine ⟨hreplays, fun hne ↦ absurd after hne, ?_, fun hbound ↦ ?_, fun hbound e he ↦ ?_,
        fun e he hover ↦ ?_⟩
      · rw [events, List.countP_append, h.overs, if_pos before, if_pos after]
        simp [notOver]
      rotate_left 2
      · rw [events] at he
        rcases List.mem_append.mp he with he | he
        · exact absurd before (h.overRevision e he hover).1
        · rw [List.mem_singleton.mp he, notOver] at hover
          cases hover
      all_goals
        rw [revision] at hbound
        obtain ⟨hlt, hsucc⟩ := lt_of_saturatingAdd hbound
      · rw [events, List.map_append]
        refine pairwise_concat _ (h.sorted hlt) (hrevisions hlt) ?_
        rw [eventRevision, revision, hsucc]
        exact Nat.lt_succ_self _
      · refine ⟨?_, fun hne ↦ absurd after hne⟩
        rw [revision, hsucc]
        rw [events] at he
        rcases List.mem_append.mp he with he | he
        · exact Nat.le_succ_of_le (h.bounded hlt e he).1
        · rw [List.mem_singleton.mp he, eventRevision, revision, hsucc]
  | ended before after claimed revision event eventRevision events =>
      refine ⟨hreplays, fun _ ↦ claimed, ?_, fun hbound ↦ ?_, fun hbound e he ↦ ?_,
        fun e he hover ↦ ?_⟩
      · rw [events, List.countP_append, h.overs, if_pos before, if_neg after]
        simp [GameEvent.isGameOver]
      rotate_left 2
      · rw [events] at he
        rcases List.mem_append.mp he with he | he
        · exact absurd before (h.overRevision e he hover).1
        · rw [List.mem_singleton.mp he]
          exact ⟨after, fun _ ↦ eventRevision⟩
      all_goals
        rw [revision] at hbound
        obtain ⟨hlt, hsucc⟩ := lt_of_saturatingAdd hbound
      · rw [events, List.map_append]
        refine pairwise_concat _ (h.sorted hlt) (hrevisions hlt) ?_
        change _ < event.revision
        rw [eventRevision, revision, hsucc]
        exact Nat.lt_succ_self _
      · rw [revision, hsucc]
        rw [events] at he
        rcases List.mem_append.mp he with he | he
        · have hle := (h.bounded hlt e he).1
          exact ⟨Nat.le_succ_of_le hle, fun _ _ ↦ Nat.lt_succ_of_le hle⟩
        · rw [List.mem_singleton.mp he]
          refine ⟨?_, fun _ hnot ↦ by simp [GameEvent.isGameOver] at hnot⟩
          change event.revision ≤ _
          rw [eventRevision, revision, hsucc]
  | movedLast before after claimed revision last lastRevision event eventRevision events =>
      refine ⟨hreplays, fun _ ↦ claimed, ?_, fun hbound ↦ ?_, fun hbound e he ↦ ?_,
        fun e he hover ↦ ?_⟩
      · rw [events, List.countP_append, h.overs, if_pos before, if_neg after]
        simp [GameEvent.isGameOver]
      rotate_left 2
      · rw [events] at he
        rcases List.mem_append.mp he with he | he
        · exact absurd before (h.overRevision e he hover).1
        · rcases List.mem_cons.mp he with rfl | he
          · simp [GameEvent.isGameOver] at hover
          · rw [List.mem_singleton.mp he]
            exact ⟨after, fun _ ↦ eventRevision⟩
      all_goals
        rw [revision] at hbound
        obtain ⟨hlt, hsucc⟩ := lt_of_saturatingAdd hbound
        obtain ⟨hlt, hsucc'⟩ := lt_of_saturatingAdd hlt
        rw [hsucc'] at hsucc
        rw [revision, hsucc', hsucc] at lastRevision eventRevision
      · have hsplit : s'.events.map GameEvent.revision =
            (s.events.map GameEvent.revision ++ [last.revision]) ++ [event.revision] := by
          rw [events, List.map_append, List.append_assoc]
          rfl
        rw [hsplit]
        have hfirst := pairwise_concat (n := last.revision) _ (h.sorted hlt) (hrevisions hlt)
          (by omega)
        refine pairwise_concat last.revision hfirst (fun m hm ↦ ?_) (by omega)
        rcases List.mem_append.mp hm with hm | hm
        · have hle := hrevisions hlt m hm
          omega
        · rw [List.mem_singleton.mp hm]
      · rw [revision, hsucc', hsucc]
        rw [events] at he
        rcases List.mem_append.mp he with he | he
        · have hle := (h.bounded hlt e he).1
          exact ⟨by omega, fun _ _ ↦ by omega⟩
        · rcases List.mem_cons.mp he with rfl | he
          · change last.revision ≤ _ ∧ (_ → _ → last.revision < _)
            exact ⟨by omega, fun _ _ ↦ by omega⟩
          · rw [List.mem_singleton.mp he]
            refine ⟨?_, fun _ hnot ↦ by simp [GameEvent.isGameOver] at hnot⟩
            change event.revision ≤ _
            omega

/-! ## Runs -/

theorem claimed_checkGameEnd {c : GameController R} (h : c.terminalAttemptClaimed = false) :
    (c.checkGameEnd now).terminalAttemptClaimed = false := by
  unfold GameController.checkGameEnd
  split
  · by_cases hstatus : c.status = .playing
    · rw [endGame_of_playing hstatus]
    · rw [endGame_of_ne hstatus]
      exact h
  · exact h

theorem claimed_playInitialMoves {c c' : GameController R} {us : List String}
    (heq : c.playInitialMoves now us = .ok c') (h : c.terminalAttemptClaimed = false) :
    c'.terminalAttemptClaimed = false := by
  induction us generalizing c with
  | nil =>
      cases heq
      exact h
  | cons uci us ih =>
      unfold playInitialMoves at heq
      split_ifs at heq
      cases hmove : parseMove R uci c.position with
      | error e => simp [applyMoveNoClock, hmove] at heq
      | ok mv =>
          rw [applyMoveNoClock, hmove] at heq
          exact ih heq (claimed_checkGameEnd h)

theorem claimed_create {c : GameController R} {gameId : String} {session : ℕ}
    {config : GameConfig} (h : create R gameId session config now = .ok c) :
    c.terminalAttemptClaimed = false := by
  obtain ⟨-, -, h⟩ := bind_eq_ok h
  obtain ⟨position, -, h⟩ := bind_eq_ok h
  exact claimed_playInitialMoves h (claimed_checkGameEnd rfl)

theorem eventsOk_publish {c : GameController R} (hreplays : Replays c)
    (hclaimed : c.terminalAttemptClaimed = false) (published : ℕ) :
    EventsOk (publish c published) := by
  have hreset : Replays (c.resetClock published) := hreplays.of_line rfl id
  unfold publish
  by_cases hstatus : c.status = .playing
  · rw [attemptTerminalEvent_playing
      (s := { controller := c.resetClock published, live := true, events := [] }) hstatus]
    refine ⟨hreset, fun hne ↦ absurd hstatus hne, ?_, fun _ ↦ .nil,
      (fun _ e he ↦ by cases he), (fun e he ↦ by cases he)⟩
    exact (if_pos hstatus).symm
  · obtain ⟨event, hrevision, heq⟩ := attemptTerminalEvent_ended
      (s := { controller := c.resetClock published, live := true, events := [] }) hstatus hclaimed
    rw [heq]
    refine ⟨hreset.of_line rfl id, fun _ ↦ rfl, (if_neg hstatus).symm,
      fun _ ↦ List.pairwise_singleton _ _, fun _ e he ↦ ?_, fun e he _ ↦ ?_⟩
    · rw [List.mem_singleton.mp he]
      exact ⟨hrevision.le, fun _ hnot ↦ by simp [GameEvent.isGameOver] at hnot⟩
    · rw [List.mem_singleton.mp he]
      exact ⟨hstatus, fun _ ↦ hrevision⟩

theorem replays_attempt (h : Replays s.controller) :
    Replays s.attemptTerminalEvent.controller := by
  unfold attemptTerminalEvent
  split
  · exact h
  · split_ifs
    · exact h
    · exact h.of_line rfl id

theorem replays_playMove (h : Replays s.controller) (uci : String) (now : ℕ) :
    Replays (s.playMove uci now).2.controller := by
  have hmove := h.applyMove uci now
  unfold playMove
  rcases heq : s.controller.applyMove uci now with ⟨e | gameMove, c⟩
  all_goals rw [heq] at hmove
  · simp only
    split_ifs
    · exact hmove
    · exact replays_attempt (s := { s with controller := c }) hmove
  · exact replays_attempt
      (s := ({ s with controller := c } : GameSession R).emitMove gameMove.fenAfter now) hmove

/-- The line of a session stays sound. -/
theorem replays_act (h : Replays s.controller) (now : ℕ) (a : SessionAction) :
    Replays (s.act now a).controller := by
  cases a with
  | makeMove expectedSession uci expectedPly =>
      rw [act, makeMove]
      split
      · exact h
      · split_ifs
        · exact h
        · exact h
        · exact replays_playMove h uci now
  | takeBackMove expectedSession =>
      rw [act, takeBackMove]
      split
      · exact h
      · split_ifs
        · exact h
        · exact h
        · obtain ⟨c, hcut, hc, -⟩ := h.takeBackMoves s.takeBackCount now
          rw [hcut]
          exact replays_attempt
            (s := ({ s with controller := c } : GameSession R).emitMove (R.fen c.position) now) hc
  | resign expectedSession color =>
      rw [act, resign]
      split
      · exact h
      · split_ifs
        · exact h
        · split
          · exact h
          · exact replays_attempt
              (h.of_line (line_endGame _) fun hstatus ↦ absurd hstatus (endGame_status _))
  | abort expectedSession =>
      rw [act, abort]
      split
      · exact h
      · exact h.of_line rfl id
  | clockTick =>
      have htick : Replays (s.controller.clockTick now) := h.act now .clockTick
      rw [act, clockTick]
      simp only
      split_ifs
      · exact h
      · exact replays_attempt (s := { s with controller := s.controller.clockTick now }) htick
      · exact htick
  | beginRequest => exact h.act now .beginRequest
  | register context requestId => exact h.act now (.register context requestId)
  | reply context requestId turn uci =>
      rw [act, commitEngineMove]
      split_ifs
      · exact h
      · exact replays_playMove h uci now
  | engineFailed reason => exact replays_attempt (h.act now (.engineFailed reason))
  | complete => exact h
  | shutdown => exact h.of_line rfl id

theorem eventsOk_invariant : (sessionMachine R).Invariant (fun _ _ ↦ True) EventsOk where
  init := by
    rintro s ⟨gameId, session, config, built, published, c, hcreate, rfl⟩
    exact eventsOk_publish (replays_create hcreate) (claimed_create hcreate) published
  step := by
    rintro s ⟨a, now⟩ s' h - rfl
    exact h.transition (replays_act h.replays now a) (transition_act h.replays h.claimed now a)

/-- A finished game reports the same at every instant. -/
theorem getState_finished {c : GameController R} (h : c.status ≠ .playing) (now later : ℕ) :
    c.getState later = c.getState now := by
  have htimes : c.currentTimes later = c.currentTimes now := by
    unfold currentTimes
    cases c.clock with
    | none => rfl
    | some clock => simp only [if_pos h]
  exact getState_congr rfl htimes rfl rfl rfl rfl rfl rfl

/-- What a finished game keeps. -/
structure Final (s s' : GameSession R) : Prop where
  status : s'.controller.status = s.controller.status
  line : s'.controller.line = s.controller.line
  clock : s'.controller.clock = s.controller.clock
  state : ∀ now, s'.controller.getState now = s.controller.getState now
  events : s'.events = s.events

theorem Final.act (h : Final s s') (hreplays : Replays s'.controller)
    (hclaimed : s'.controller.status ≠ .playing → s'.controller.terminalAttemptClaimed = true)
    (hfinished : s.controller.status ≠ .playing) (now : ℕ) (a : SessionAction) :
    Final s (s'.act now a) := by
  have hfinished' : s'.controller.status ≠ .playing := by
    rw [h.status]
    exact hfinished
  cases transition_act hreplays hclaimed now a with
  | kept same events =>
      refine ⟨same.status.trans h.status, same.line.trans h.line,
        (same.clock hfinished').trans h.clock, fun later ↦ ?_, events.trans h.events⟩
      have hafter : (s'.act now a).controller.status ≠ .playing := by
        rw [same.status]
        exact hfinished'
      calc (s'.act now a).controller.getState later
          = (s'.act now a).controller.getState now := getState_finished hafter now later
        _ = s'.controller.getState now := same.state
        _ = s'.controller.getState later := getState_finished hfinished' later now
        _ = s.controller.getState later := h.state later
  | moved before => exact absurd before hfinished'
  | ended before => exact absurd before hfinished'
  | movedLast before => exact absurd before hfinished'

end GameSession

/-- Up to the last revision number, every action keeps the reported state or
raises the revision, and events come in the order of their revisions, every move
before the end of the game.  The end is reported at most once, and after it
nothing changes. -/
theorem session_events_ordered {R : GameRules} {s : GameSession R}
    (h : (sessionMachine R).Reachable s) :
    s.events.countP GameEvent.isGameOver ≤ 1 ∧
      (s.controller.revision < u64Max →
        (s.events.map GameEvent.revision).Pairwise (· < ·) ∧
          (∀ m o, .move m ∈ s.events → .gameOver o ∈ s.events → m.revision < o.revision) ∧
            ∀ now a, (s.act now a).controller.getState now = s.controller.getState now ∨
              s.controller.revision < (s.act now a).controller.revision) ∧
      ∀ s', s.controller.status ≠ .playing → (sessionMachine R).Run s s' →
        GameSession.Final s s' := by
  have hevents := GameSession.eventsOk_invariant.reachable h
  refine ⟨?_, fun hbound ↦ ⟨hevents.sorted hbound, fun m o hm ho ↦ ?_, fun now a ↦ ?_⟩,
    fun s' hfinished hrun ↦ ?_⟩
  · rw [hevents.overs]
    split_ifs
    · exact Nat.zero_le 1
    · exact le_rfl
  · obtain ⟨hfinished, hover⟩ := hevents.overRevision _ ho rfl
    have hmove := (hevents.bounded hbound _ hm).2 hfinished rfl
    have hend := hover hbound
    change m.revision < _ at hmove
    change o.revision = _ at hend
    omega
  · have hsucc : s.controller.revision < saturatingAdd s.controller.revision 1 := by
      unfold saturatingAdd
      omega
    cases GameSession.transition_act hevents.replays hevents.claimed now a with
    | kept same _ => exact .inl same.state
    | moved _ _ revision => exact .inr (revision ▸ hsucc)
    | ended _ _ _ revision => exact .inr (revision ▸ hsucc)
    | movedLast _ _ _ revision =>
        refine .inr ?_
        rw [revision]
        refine hsucc.trans_le ?_
        unfold saturatingAdd
        omega
  · refine GameSession.eventsOk_invariant.stable (Q := GameSession.Final s) ?_ hevents
      ⟨rfl, rfl, rfl, fun _ ↦ rfl, rfl⟩ hrun
    rintro t ⟨a, now⟩ t' ht hfinal - rfl
    exact hfinal.act ht.replays ht.claimed hfinished now a

namespace PawnEnding

def session : GameSession rules := .publish controller 0

theorem reachable_session : (sessionMachine rules).Reachable session :=
  ⟨session, ⟨"game", 1, config, 0, 0, controller, create_controller, rfl⟩, .refl⟩

/-- White resigns. -/
def resigned : GameSession rules := session.act 0 (.resign 1 "white")

theorem session_events_ordered_resigned :
    resigned.controller.status = .finished (.blackWins .resignation) ∧
      ∀ s', (sessionMachine rules).Run resigned s' → GameSession.Final resigned s' := by
  have hstep : (sessionMachine rules).step session (.resign 1 "white", 0) resigned := rfl
  obtain ⟨-, -, hfinal⟩ := session_events_ordered
    (reachable_session.run (Machine.Run.refl.step hstep))
  exact ⟨by rfl, fun s' hrun ↦ hfinal s' (by decide) hrun⟩

/-! ### Past the last revision -/

def ticked (n : ℕ) (events : List GameEvent) : GameSession rules where
  controller := { controller with revision := min n u64Max }
  live := true
  events := events

theorem reachable_ticked (n : ℕ) :
    ∃ events, (sessionMachine rules).Reachable (ticked n events) := by
  induction n with
  | zero => exact ⟨[], reachable_session⟩
  | succ n ih =>
      obtain ⟨events, hreach⟩ := ih
      have hstep : (sessionMachine rules).step (ticked n events) (.clockTick, 0)
          ((ticked n events).act 0 .clockTick) := rfl
      have htick : (ticked n events).act 0 .clockTick =
          { controller := { controller with revision := saturatingAdd (min n u64Max) 1 }
            live := true
            events := ((ticked n events).act 0 .clockTick).events } := rfl
      rw [GameController.saturatingAdd_min] at htick
      refine ⟨((ticked n events).act 0 .clockTick).events, ?_⟩
      rw [ticked, ← htick]
      exact hreach.run (Machine.Run.refl.step hstep)

end PawnEnding

/-- At the last revision number a resignation changes the state and keeps the
revision. -/
theorem exists_change_same_revision :
    ∃ s a now, (sessionMachine PawnEnding.rules).Reachable s ∧
      (s.act now a).controller.getState now ≠ s.controller.getState now ∧
        (s.act now a).controller.revision = s.controller.revision := by
  obtain ⟨events, hreach⟩ := PawnEnding.reachable_ticked u64Max
  refine ⟨_, .resign 1 "white", 0, hreach, fun h ↦ ?_, ?_⟩
  · have hstatus := congrArg GameState.status h
    cases hstatus
  · change saturatingAdd (min u64Max u64Max) 1 = min u64Max u64Max
    decide

end EnCroissant
