import Mathlib
import EnCroissant.Game.Replay

/-!
# Engine requests

An engine's answer is accepted only for the request in progress, and a request
is in progress only while the line stays as it was.  The numbers that tell
requests apart saturate, so this holds up to the last of them.
-/

namespace EnCroissant

namespace GameController

variable {R : GameRules} {c c' : GameController R} {now : ℕ}

/-! ## What an action does to the requests -/

/-- The request in progress stays, and with it the line. -/
structure Quiet (c c' : GameController R) : Prop where
  line : c'.line = c.line
  status : c'.status = c.status
  session : c'.session = c.session
  tokens : c'.tokens = c.tokens
  nextEngineRequest : c'.nextEngineRequest = c.nextEngineRequest
  active : c'.activeEngineRequest.map (·.context) = c.activeEngineRequest.map (·.context)

/-- No request is in progress any more. -/
structure Cleared (c c' : GameController R) : Prop where
  session : c'.session = c.session
  tokens : c'.tokens = c.tokens
  nextEngineRequest : c'.nextEngineRequest = c.nextEngineRequest
  active : c'.activeEngineRequest = none

theorem Quiet.refl (c : GameController R) : Quiet c c := ⟨rfl, rfl, rfl, rfl, rfl, rfl⟩

theorem cleared_endGame (result : GameResult) (now : ℕ) (h : c.status = .playing) :
    Cleared c (c.endGame result now).2 := by
  rw [endGame_of_playing h]
  exact ⟨rfl, rfl, rfl, rfl⟩

theorem Cleared.checkGameEnd (now : ℕ) (h : Cleared c c') :
    Cleared c (c'.checkGameEnd now) := by
  unfold GameController.checkGameEnd
  split
  · by_cases hstatus : c'.status = .playing
    · obtain ⟨hsession, htokens, hnext, hactive⟩ := cleared_endGame _ now hstatus
      exact ⟨hsession.trans h.session, htokens.trans h.tokens, hnext.trans h.nextEngineRequest,
        hactive⟩
    · rw [endGame_of_ne hstatus]
      exact h
  · exact h

theorem applyMove_quiet_or_cleared (c : GameController R) (uci : String) (now : ℕ) :
    Quiet c (c.applyMove uci now).2 ∨ Cleared c (c.applyMove uci now).2 := by
  rcases c.applyMove_cases uci now with ⟨-, heq⟩ | ⟨hplaying, hrest⟩
  · rw [heq]
    exact .inl (.refl c)
  · rcases hrest with ⟨result, settled, hsettle, heq⟩ | ⟨settled, hsettle, hrest⟩
    all_goals obtain ⟨clock, rfl⟩ := settled_eq hsettle
    · rw [heq]
      have hcleared := cleared_endGame (c := { c with clock := clock }) result now hplaying
      exact .inr ⟨hcleared.session, hcleared.tokens, hcleared.nextEngineRequest, hcleared.active⟩
    · rcases hrest with ⟨e, heq⟩ | ⟨mv, -, heq⟩
      · rw [heq]
        exact .inl ⟨rfl, rfl, rfl, rfl, rfl, rfl⟩
      · rw [heq]
        exact .inr (Cleared.checkGameEnd _ ⟨rfl, rfl, rfl, rfl⟩)

theorem replayMoves_frame (c : GameController R) (moves : List GameMove) :
    ∃ position positionHistory, (c.replayMoves moves).2 =
      { c with position := position, positionHistory := positionHistory } := by
  induction moves generalizing c with
  | nil => exact ⟨c.position, c.positionHistory, rfl⟩
  | cons m moves ih =>
      rw [replayMoves]
      cases parseMove R m.uci c.position with
      | error e => exact ⟨c.position, c.positionHistory, rfl⟩
      | ok mv => exact ih (c.pushPosition mv)

theorem rebuildPositionFromMoves_frame (c : GameController R) (now : ℕ) :
    ∃ position positionHistory clock, (c.rebuildPositionFromMoves now).2 =
      { c with position := position, positionHistory := positionHistory, clock := clock } := by
  obtain ⟨position, positionHistory, hframe⟩ := replayMoves_frame
    { c with
      position := c.rootPosition
      positionHistory := (∅ : Tally String).insert (positionKey R c.rootPosition) 1 } c.moves
  rw [rebuildPositionFromMoves]
  rcases hreplay : replayMoves _ c.moves with ⟨e | ⟨⟩, rebuilt⟩
  all_goals
    rw [hreplay] at hframe
    simp only at hframe
    subst hframe
  · exact ⟨position, positionHistory, c.clock, rfl⟩
  · exact ⟨position, positionHistory, _, rfl⟩

theorem cleared_takeBackMoves (c : GameController R) (count now : ℕ) :
    Cleared c (c.takeBackMoves count now).2 := by
  obtain ⟨position, positionHistory, clock, hframe⟩ := rebuildPositionFromMoves_frame
    { c.cancelEngineRequest with moves := popMoves count c.moves, status := .playing } now
  rcases c.takeBackMoves_cases count now with ⟨e, rebuilt, hrebuild, heq⟩ | ⟨rebuilt, hrebuild, heq⟩
  all_goals
    rw [hrebuild] at hframe
    simp only at hframe
    subst hframe
    rw [heq]
  · exact ⟨rfl, rfl, rfl, rfl⟩
  · exact Cleared.checkGameEnd _ ⟨rfl, rfl, rfl, rfl⟩

theorem clockTick_quiet_or_cleared (c : GameController R) (now : ℕ) :
    Quiet c (c.clockTick now) ∨ Cleared c (c.clockTick now) := by
  unfold clockTick
  split_ifs with hstatus
  · exact .inl (.refl c)
  · rcases hsettle : c.settleActiveClock now with ⟨_ | result, settled⟩
    all_goals obtain ⟨clock, rfl⟩ := settled_eq hsettle
    · exact .inl ⟨rfl, rfl, rfl, rfl, rfl, rfl⟩
    · have hcleared := cleared_endGame (c := { c with clock := clock }) result now
        (not_not.mp hstatus)
      exact .inr ⟨hcleared.session, hcleared.tokens, hcleared.nextEngineRequest, hcleared.active⟩

theorem quiet_registerEngineRequestId (c : GameController R) (context : EngineRequestContext)
    (requestId : ℕ) : Quiet c (c.registerEngineRequestId context requestId).2 := by
  unfold registerEngineRequestId
  cases hactive : c.activeEngineRequest with
  | none => exact .refl c
  | some active =>
      simp only
      split_ifs
      · exact ⟨rfl, rfl, rfl, rfl, rfl, by rw [hactive]; rfl⟩
      · exact .refl c

theorem beginEngineRequest_cases (c : GameController R) :
    c.beginEngineRequest = (none, c) ∨
      ∃ context, c.beginEngineRequest.1 = some context ∧ context.session = c.session ∧
        context.nonce = saturatingAdd c.nextEngineRequest 1 ∧
          context.cancellation = c.tokens ∧
            c.beginEngineRequest.2 =
              { c with
                nextEngineRequest := saturatingAdd c.nextEngineRequest 1
                engineThinking := true
                activeEngineRequest := some ⟨context, none⟩
                tokens := c.tokens + 1 } := by
  unfold beginEngineRequest
  split_ifs
  · exact .inl rfl
  · exact .inr ⟨_, rfl, rfl, rfl, rfl, rfl⟩

/-- An action keeps the request in progress, or ends it, or begins a new one. -/
theorem act_cases (c : GameController R) (now : ℕ) (a : ControllerAction) :
    Quiet c (c.act now a) ∨ Cleared c (c.act now a) ∨
      c.act now a = c.beginEngineRequest.2 := by
  cases a with
  | move uci => exact (c.applyMove_quiet_or_cleared uci now).imp_right .inl
  | takeBack count => exact .inr (.inl (c.cleared_takeBackMoves count now))
  | resign color =>
      by_cases hstatus : c.status = .playing
      · exact .inr (.inl (cleared_endGame _ _ hstatus))
      · rw [act, endGame_of_ne hstatus]
        exact .inl (.refl c)
  | clockTick => exact (c.clockTick_quiet_or_cleared now).imp_right .inl
  | engineFailed reason =>
      by_cases hstatus : c.status = .playing
      · have hcleared := cleared_endGame (c := { c with engineThinking := false })
          (.interrupted reason) now hstatus
        exact .inr (.inl ⟨hcleared.session, hcleared.tokens, hcleared.nextEngineRequest,
          hcleared.active⟩)
      · rw [act, failEngine, endGame_of_ne (c := { c with engineThinking := false }) hstatus]
        exact .inl ⟨rfl, rfl, rfl, rfl, rfl, rfl⟩
  | beginRequest => exact .inr (.inr rfl)
  | register context requestId => exact .inl (c.quiet_registerEngineRequestId context requestId)
  | reply context requestId turn uci =>
      rw [act, commitEngineMove]
      split_ifs
      · exact .inl (.refl c)
      · exact (c.applyMove_quiet_or_cleared uci now).imp_right .inl
  | cancel => exact .inr (.inl ⟨rfl, rfl, rfl, rfl⟩)

/-! ## The invariant -/

/-- The request in progress is the one begun last. -/
structure RequestsOk (c : GameController R) : Prop where
  next : c.nextEngineRequest = min c.tokens u64Max
  active : ∀ active ∈ c.activeEngineRequest, active.context.nonce = c.nextEngineRequest

theorem saturatingAdd_min (n : ℕ) : saturatingAdd (min n u64Max) 1 = min (n + 1) u64Max := by
  unfold saturatingAdd
  omega

theorem RequestsOk.begin (h : RequestsOk c) : RequestsOk c.beginEngineRequest.2 := by
  rcases c.beginEngineRequest_cases with heq | ⟨context, -, -, hnonce, -, heq⟩
  · rw [heq]
    exact h
  · rw [heq]
    refine ⟨?_, fun active hactive ↦ ?_⟩
    · simp only [h.next, saturatingAdd_min]
    · obtain rfl := Option.some.inj hactive
      exact hnonce

theorem RequestsOk.act (h : RequestsOk c) (now : ℕ) (a : ControllerAction) :
    RequestsOk (c.act now a) := by
  rcases c.act_cases now a with hquiet | hcleared | hbegin
  · refine ⟨by rw [hquiet.nextEngineRequest, hquiet.tokens, h.next], fun active hactive ↦ ?_⟩
    rw [hquiet.nextEngineRequest]
    have hcontext : active.context ∈ c.activeEngineRequest.map (·.context) := by
      rw [← hquiet.active]
      exact Option.mem_map_of_mem _ hactive
    obtain ⟨before, hbefore, heq⟩ := Option.mem_map.mp hcontext
    rw [← heq]
    exact h.active before hbefore
  · refine ⟨by rw [hcleared.nextEngineRequest, hcleared.tokens, h.next], fun active hactive ↦ ?_⟩
    rw [hcleared.active] at hactive
    cases hactive
  · rw [hbegin]
    exact h.begin

theorem requestsOk_playInitialMoves {us : List String}
    (heq : c.playInitialMoves now us = .ok c') : c.tokens = 0 ∧ c.nextEngineRequest = 0 ∧
      c.activeEngineRequest = none →
        c'.tokens = 0 ∧ c'.nextEngineRequest = 0 ∧ c'.activeEngineRequest = none := by
  induction us generalizing c with
  | nil =>
      cases heq
      exact id
  | cons uci us ih =>
      rintro ⟨htokens, hnext, hactive⟩
      unfold playInitialMoves at heq
      split_ifs at heq
      cases hmove : parseMove R uci c.position with
      | error e => simp [applyMoveNoClock, hmove] at heq
      | ok mv =>
          rw [applyMoveNoClock, hmove] at heq
          have hcleared : Cleared c ((c.playMoveNoClock uci mv).2.checkGameEnd now) :=
            Cleared.checkGameEnd _ ⟨rfl, rfl, rfl, rfl⟩
          exact ih heq ⟨hcleared.tokens.trans htokens, hcleared.nextEngineRequest.trans hnext,
            hcleared.active⟩

theorem requestsOk_create {gameId : String} {session : ℕ} {config : GameConfig}
    (h : create R gameId session config now = .ok c) : RequestsOk c := by
  obtain ⟨-, -, h⟩ := bind_eq_ok h
  obtain ⟨position, -, h⟩ := bind_eq_ok h
  have hcleared := Cleared.checkGameEnd now
    (c := fresh (R := R) gameId session config (config.initialFen.getD standardFen) position now)
    ⟨rfl, rfl, rfl, rfl⟩
  obtain ⟨htokens, hnext, hactive⟩ := requestsOk_playInitialMoves h
    ⟨hcleared.tokens, hcleared.nextEngineRequest, hcleared.active⟩
  refine ⟨by rw [htokens, hnext, Nat.zero_min], fun active hmem ↦ ?_⟩
  rw [hactive] at hmem
  cases hmem

theorem requestsOk_invariant : (controllerMachine R).Invariant (fun _ _ ↦ True) RequestsOk where
  init := by
    rintro c ⟨gameId, session, config, built, published, c₀, hcreate, rfl⟩
    have h := requestsOk_create hcreate
    exact ⟨h.next, h.active⟩
  step := by
    rintro c ⟨a, now⟩ c' h - rfl
    exact h.act now a

/-! ## Requests in progress -/

/-- While no further request was begun, a request in progress shows that nothing
happened since the state `c`. -/
structure Unchanged (c c' : GameController R) : Prop where
  session : c'.session = c.session
  tokens : c.tokens ≤ c'.tokens
  quiet : c'.tokens = c.tokens → c'.activeEngineRequest.isSome →
    c.activeEngineRequest.isSome ∧ c'.line = c.line ∧ c'.status = c.status

theorem Unchanged.act (h : Unchanged c c') (now : ℕ) (a : ControllerAction) :
    Unchanged c (c'.act now a) := by
  rcases c'.act_cases now a with hquiet | hcleared | hbegin
  · refine ⟨hquiet.session.trans h.session, hquiet.tokens ▸ h.tokens, fun htokens hactive ↦ ?_⟩
    have hbefore : c'.activeEngineRequest.isSome := by
      have hmap := congrArg Option.isSome hquiet.active
      rw [Option.isSome_map, Option.isSome_map] at hmap
      rw [← hmap]
      exact hactive
    obtain ⟨hfirst, hline, hstatus⟩ := h.quiet (hquiet.tokens ▸ htokens) hbefore
    exact ⟨hfirst, hquiet.line.trans hline, hquiet.status.trans hstatus⟩
  · refine ⟨hcleared.session.trans h.session, hcleared.tokens ▸ h.tokens, fun _ hactive ↦ ?_⟩
    rw [hcleared.active] at hactive
    cases hactive
  · rw [hbegin]
    rcases c'.beginEngineRequest_cases with heq | ⟨context, -, -, -, -, heq⟩
    · rw [heq]
      exact h
    · rw [heq]
      refine ⟨h.session, Nat.le_succ_of_le h.tokens, fun htokens _ ↦ ?_⟩
      have hle := h.tokens
      simp only at htokens
      omega

theorem Unchanged.run (h : (controllerMachine R).Run c c') : Unchanged c c' := by
  induction h with
  | refl => exact ⟨rfl, le_rfl, fun _ h ↦ ⟨h, rfl, rfl⟩⟩
  | tail _ hstep ih =>
      obtain ⟨⟨a, now⟩, -, rfl⟩ := hstep
      exact ih.act now a

theorem accepts_active {context : EngineRequestContext} {requestId : Option ℕ}
    (h : c.accepts context requestId = true) :
    c.status = .playing ∧ c.session = context.session ∧
      ∃ active, c.activeEngineRequest = some active ∧ active.context.nonce = context.nonce := by
  have hactive : ∃ active, c.activeEngineRequest = some active ∧
      active.context.nonce = context.nonce := by
    cases hrequest : c.activeEngineRequest with
    | none => cases requestId <;>
        simp [accepts, acceptsEngineContext, acceptsEngineResult, hrequest] at h
    | some active =>
        refine ⟨active, rfl, ?_⟩
        cases requestId <;>
          simp [accepts, acceptsEngineContext, acceptsEngineResult, hrequest,
            matchesActive] at h
        · exact (of_decide_eq_true h.2).1
        · exact (of_decide_eq_true h.2.1).1
  cases requestId <;>
    simp only [accepts, acceptsEngineContext, acceptsEngineResult, Bool.and_eq_true,
      decide_eq_true_eq] at h
  · exact ⟨h.1.1.1, h.1.1.2, hactive⟩
  · exact ⟨h.1.1.1, h.1.1.2, hactive⟩

end GameController

/-- An answer is accepted only for the last request, only in the session of that
request, and only in a state whose line stayed as it was since the request began,
as long as at most `2 ^ 64 - 1` requests were begun. -/
theorem accepted_reply_current {R : GameRules} {s₀ s₁ s₂ s₃ : GameController R}
    {context : EngineRequestContext} {requestId : Option ℕ}
    (hreach : (controllerMachine R).Reachable s₀)
    (hbegin : s₀.beginEngineRequest = (some context, s₁))
    (h₁₂ : (controllerMachine R).Run s₁ s₂) (h₂₃ : (controllerMachine R).Run s₂ s₃)
    (hbound : s₃.tokens ≤ u64Max) (haccepts : s₃.accepts context requestId = true) :
    s₃.tokens = s₁.tokens ∧ s₃.session = context.session ∧ s₃.status = .playing ∧
      s₂.position = s₃.position ∧ s₂.moves = s₃.moves ∧ s₂.status = s₃.status := by
  obtain ⟨hplaying, hsession, active, hactive, hnonce⟩ :=
    GameController.accepts_active haccepts
  have h₀ := GameController.requestsOk_invariant.reachable hreach
  have h₁ : GameController.RequestsOk s₁ := by
    have := h₀.begin
    rwa [hbegin] at this
  have hrun := h₁₂.trans h₂₃
  have h₃ := GameController.requestsOk_invariant.run h₁ hrun
  have hcontext : context.nonce = s₁.nextEngineRequest := by
    rcases s₀.beginEngineRequest_cases with heq | ⟨begun, hbegun, -, hbegunNonce, -, heq⟩
    · rw [heq] at hbegin
      cases hbegin
    · rw [hbegin] at hbegun heq
      obtain rfl := Option.some.inj hbegun
      simp only at heq
      rw [heq]
      exact hbegunNonce
  have hunchanged := GameController.Unchanged.run hrun
  have htokens : s₃.tokens = s₁.tokens := by
    have hactiveNonce := h₃.active active hactive
    have hle := hunchanged.tokens
    have hnext₁ := h₁.next
    have hnext₃ := h₃.next
    omega
  have h₂ := GameController.Unchanged.run h₁₂
  have h₂' := GameController.Unchanged.run h₂₃
  have htokens₂ : s₃.tokens = s₂.tokens := by
    have hle := h₂.tokens
    have hle' := h₂'.tokens
    omega
  obtain ⟨-, hline, hstatus⟩ := h₂'.quiet htokens₂ (by rw [hactive]; rfl)
  obtain ⟨-, hmoves, hposition, -⟩ := GameController.line_ext hline
  exact ⟨htokens, hsession, hplaying, hposition.symm, hmoves.symm, hstatus.symm⟩

namespace PawnEnding

/-- The first request of the engine. -/
def firstContext : EngineRequestContext := ⟨1, 0, 1, 0⟩

def asked : GameController rules := controller.beginEngineRequest.2

def searching : GameController rules := (asked.registerEngineRequestId firstContext 7).2

theorem accepted_reply_current_pawnEnding :
    controller.beginEngineRequest = (some firstContext, asked) ∧
      searching.acceptsEngineResult firstContext 7 = true ∧
        asked.position = searching.position := by
  have hregister : (controllerMachine rules).Run asked searching :=
    Machine.Run.refl.step (show (controllerMachine rules).step asked
      (.register firstContext 7, 0) searching from rfl)
  have haccepts : searching.accepts firstContext (some 7) = true := rfl
  obtain ⟨-, -, -, hposition, -⟩ := accepted_reply_current reachable_controller rfl .refl
    hregister (by decide) haccepts
  exact ⟨rfl, rfl, hposition⟩

/-! ### Past the last request number -/

/-- The start of the game, after `n` requests that were answered and taken
back. -/
def idle (n revision : ℕ) (cancelled : List ℕ) : GameController rules :=
  { controller with
    revision := revision
    positionGeneration := min (2 * n) u64Max
    nextEngineRequest := min n u64Max
    tokens := n
    cancelled := cancelled }

def idleContext (n : ℕ) : EngineRequestContext :=
  ⟨1, min (2 * n) u64Max, saturatingAdd (min n u64Max) 1, n⟩

theorem beginEngineRequest_idle (n revision : ℕ) (cancelled : List ℕ) :
    (idle n revision cancelled).beginEngineRequest.1 = some (idleContext n) := rfl

theorem playUnchecked_h4 : rules.playUnchecked Position.start h4 = Position.pawnH4 := by
  decide

theorem lookup_pawnH4 :
    (Tally.add ((∅ : Tally String).insert (positionKey rules .start) 1)
      (positionKey rules .pawnH4)).lookup (positionKey rules .pawnH4) = some 1 := by
  have hne : positionKey rules .pawnH4 ≠ positionKey rules .start := by decide
  rw [Tally.add, AList.lookup_insert, AList.lookup_insert_ne hne]
  rfl

theorem applyMove_h4 {c : GameController rules} (hplaying : c.status = .playing)
    (hclock : c.clock = none) (hposition : c.position = Position.start)
    (hhistory : c.positionHistory =
      (∅ : Tally String).insert (positionKey rules Position.start) 1) :
    (c.applyMove "h2h4" 0).2 = (c.playMove "h2h4" h4 0).2 := by
  have hplayed : (c.playMove "h2h4" h4 0).2.position = Position.pawnH4 := by
    change rules.playUnchecked c.position h4 = _
    rw [hposition, playUnchecked_h4]
  have htable : (c.playMove "h2h4" h4 0).2.positionHistory =
      Tally.add ((∅ : Tally String).insert (positionKey rules .start) 1)
        (positionKey rules .pawnH4) := by
    change Tally.add c.positionHistory (positionKey rules (rules.playUnchecked c.position h4)) = _
    rw [hhistory, hposition, playUnchecked_h4]
  have hresult : (c.playMove "h2h4" h4 0).2.positionResult = none := by
    refine positionResult_none ?_ ?_
    · rw [hplayed, htable, lookup_pawnH4]
      rfl
    · rw [hplayed]
      decide
  have hsettle : c.settleActiveClock 0 = (none, c) := by
    rw [GameController.settleActiveClock, hclock]
  have hparse : parseMove rules "h2h4" c.position = .ok h4 := by
    rw [hposition]
    exact parseMove_h4
  rw [GameController.applyMove, if_neg (not_not.mpr hplaying), hsettle]
  simp only [hparse]
  rw [GameController.checkGameEnd, hresult]

/-- Taking back the first move. -/
theorem takeBackMoves_first {c : GameController rules} {m : GameMove} (hmoves : c.moves = [m])
    (hclock : c.clock = none) (hroot : c.rootPosition = Position.start)
    (hactive : c.activeEngineRequest = none) :
    (c.takeBackMoves 1 0).2 =
      { c with
        moves := []
        position := .start
        positionHistory := (∅ : Tally String).insert (positionKey rules Position.start) 1
        status := .playing
        positionGeneration := saturatingAdd c.positionGeneration 1
        engineThinking := false
        revision := saturatingAdd c.revision 1 } := by
  set after : GameController rules := { c with
    moves := []
    position := .start
    positionHistory := (∅ : Tally String).insert (positionKey rules Position.start) 1
    status := .playing
    positionGeneration := saturatingAdd c.positionGeneration 1
    engineThinking := false
    revision := saturatingAdd c.revision 1 } with hafter
  have hresult : after.positionResult = none := by
    refine positionResult_none ?_ (show rules.halfmoves Position.start < 100 by decide)
    change (AList.lookup (positionKey rules .start)
      ((∅ : Tally String).insert (positionKey rules .start) 1)).filter _ = none
    rw [AList.lookup_insert]
    rfl
  have hcheck : after.checkGameEnd 0 = after := by
    rw [GameController.checkGameEnd, hresult]
  rw [← hcheck, hafter]
  simp only [GameController.takeBackMoves, GameController.rebuildPositionFromMoves,
    GameController.cancelEngineRequest, hmoves, GameController.popMoves, List.dropLast_singleton,
    GameController.replayMoves, GameController.resetTimes, hclock, Option.map_none, hroot,
    GameController.advancePositionGeneration, hactive, Option.toList_none, List.nil_append,
    GameController.bumpRevision]

/-- A request, its answer and the take-back of the answer. -/
theorem run_idle (n revision : ℕ) (cancelled : List ℕ) :
    ∃ revision', (controllerMachine rules).Run (idle n revision cancelled).beginEngineRequest.2
      (idle (n + 1) revision' (n :: cancelled)) := by
  set begun := (idle n revision cancelled).beginEngineRequest.2 with hbegun
  set moved := (begun.playMove "h2h4" h4 0).2 with hmoved
  have hmove : (controllerMachine rules).step begun (.move "h2h4", 0) moved := by
    change moved = (begun.applyMove "h2h4" 0).2
    rw [applyMove_h4 rfl rfl rfl rfl]
  have htakeBack : (controllerMachine rules).step moved (.takeBack 1, 0)
      (moved.takeBackMoves 1 0).2 := rfl
  refine ⟨saturatingAdd (saturatingAdd revision 1) 1, ?_⟩
  have hrun := (Machine.Run.refl.step hmove).step htakeBack
  rw [takeBackMoves_first (m := (begun.playMove "h2h4" h4 0).1) rfl rfl rfl rfl] at hrun
  have hgeneration : saturatingAdd (saturatingAdd (min (2 * n) u64Max) 1) 1 =
      min (2 * (n + 1)) u64Max := by
    unfold saturatingAdd
    omega
  have hidle : idle (n + 1) (saturatingAdd (saturatingAdd revision 1) 1) (n :: cancelled) =
      { moved with
        moves := []
        position := .start
        positionHistory := (∅ : Tally String).insert (positionKey rules Position.start) 1
        status := .playing
        positionGeneration := saturatingAdd moved.positionGeneration 1
        engineThinking := false
        revision := saturatingAdd moved.revision 1 } := by
    rw [idle, ← hgeneration, ← GameController.saturatingAdd_min]
    rfl
  rw [hidle]
  exact hrun

theorem reachable_idle (n : ℕ) :
    ∃ revision cancelled, (∀ token ∈ cancelled, token < n) ∧
      (controllerMachine rules).Reachable (idle n revision cancelled) := by
  induction n with
  | zero => exact ⟨0, [], (fun _ h ↦ by cases h), reachable_controller⟩
  | succ n ih =>
      obtain ⟨revision, cancelled, hcancelled, hreach⟩ := ih
      obtain ⟨revision', hrun⟩ := run_idle n revision cancelled
      refine ⟨revision', n :: cancelled, fun token htoken ↦ ?_, ?_⟩
      · rcases List.mem_cons.mp htoken with rfl | htoken
        · exact Nat.lt_succ_self _
        · exact Nat.lt_succ_of_lt (hcancelled token htoken)
      · have hbegin : (controllerMachine rules).step (idle n revision cancelled)
            (.beginRequest, 0) (idle n revision cancelled).beginEngineRequest.2 := rfl
        exact hreach.run ((Machine.Run.refl.step hbegin).trans hrun)

end PawnEnding

/-- Past the last request number, the answer to a request whose move was taken
back is accepted after a later request was begun. -/
theorem exists_accepted_stale_reply :
    ∃ s₀ s₁ s₂ s₃ : GameController PawnEnding.rules, ∃ context requestId,
      (controllerMachine PawnEnding.rules).Reachable s₀ ∧
        s₀.beginEngineRequest = (some context, s₁) ∧
          (controllerMachine PawnEnding.rules).Run s₁ s₂ ∧
            s₂.beginEngineRequest.1.isSome ∧
              (controllerMachine PawnEnding.rules).Run s₂.beginEngineRequest.2 s₃ ∧
                s₃.acceptsEngineResult context requestId = true := by
  obtain ⟨revision, cancelled, hcancelled, hreach⟩ := PawnEnding.reachable_idle u64Max
  obtain ⟨revision', hrun⟩ := PawnEnding.run_idle u64Max revision cancelled
  set s₂ := PawnEnding.idle (u64Max + 1) revision' (u64Max :: cancelled) with hs₂
  set context := PawnEnding.idleContext u64Max with hcontext
  set later := PawnEnding.idleContext (u64Max + 1) with hlater
  set asked := s₂.beginEngineRequest.2 with hasked
  have hactive : asked.activeEngineRequest = some ⟨later, none⟩ := rfl
  have hgeneration : later.positionGeneration = context.positionGeneration := by decide
  have hnonce : later.nonce = context.nonce := by decide
  have hcancellation : u64Max + 1 ∉ u64Max :: cancelled := by
    intro h
    rcases List.mem_cons.mp h with h | h
    · omega
    · have := hcancelled _ h
      omega
  have hregister : (asked.registerEngineRequestId context 7).2 =
      { asked with activeEngineRequest := some ⟨later, some 7⟩ } := by
    rw [GameController.registerEngineRequestId, hactive]
    simp only
    rw [if_pos ⟨hnonce, rfl, hgeneration, hcancellation⟩]
  have hstep : (controllerMachine PawnEnding.rules).step asked (.register context 7, 0)
      (asked.registerEngineRequestId context 7).2 := rfl
  refine ⟨_, _, s₂, (asked.registerEngineRequestId context 7).2, context, 7, hreach, rfl, hrun,
    rfl, Machine.Run.refl.step hstep, ?_⟩
  have hcurrent : asked.positionGeneration = context.positionGeneration := hgeneration
  rw [hregister, GameController.acceptsEngineResult]
  simp only [Bool.and_eq_true, decide_eq_true_eq, Option.any_some]
  exact ⟨⟨⟨rfl, rfl⟩, hcurrent⟩, ⟨hnonce, rfl, hgeneration, hcancellation⟩, trivial⟩

end EnCroissant
