import Mathlib
import EnCroissant.Game.Manager

/-!
# The bookkeeping of the manager

Snapshots stay within their number, the index of latest sessions points at what
is there, and no query answers for a session that was replaced or tombstoned.
-/

namespace EnCroissant

namespace GameController

variable {R : GameRules}

theorem session_applyMove (c : GameController R) (uci : String) (now : ℕ) :
    (c.applyMove uci now).2.session = c.session := by
  rcases c.applyMove_quiet_or_cleared uci now with h | h
  · exact h.session
  · exact h.session

theorem session_act (c : GameController R) (now : ℕ) (a : ControllerAction) :
    (c.act now a).session = c.session := by
  rcases c.act_cases now a with h | h | h
  · exact h.session
  · exact h.session
  · rw [h]
    rcases c.beginEngineRequest_cases with heq | ⟨context, -, -, -, -, heq⟩
    · rw [heq]
    · rw [heq]

theorem session_playInitialMoves {c c' : GameController R} {now : ℕ} {us : List String}
    (heq : c.playInitialMoves now us = .ok c') : c'.session = c.session := by
  induction us generalizing c with
  | nil =>
      cases heq
      rfl
  | cons uci us ih =>
      unfold playInitialMoves at heq
      split_ifs at heq
      cases hmove : parseMove R uci c.position with
      | error e => simp [applyMoveNoClock, hmove] at heq
      | ok mv =>
          rw [applyMoveNoClock, hmove] at heq
          have hcleared : Cleared c ((c.playMoveNoClock uci mv).2.checkGameEnd now) :=
            Cleared.checkGameEnd _ ⟨rfl, rfl, rfl, rfl⟩
          exact (ih heq).trans hcleared.session

theorem session_create {c : GameController R} {gameId : String} {session now : ℕ}
    {config : GameConfig} (h : create R gameId session config now = .ok c) :
    c.session = session := by
  obtain ⟨-, -, h⟩ := bind_eq_ok h
  obtain ⟨position, -, h⟩ := bind_eq_ok h
  have hcleared := Cleared.checkGameEnd now
    (c := fresh (R := R) gameId session config (config.initialFen.getD standardFen) position now)
    ⟨rfl, rfl, rfl, rfl⟩
  exact (session_playInitialMoves h).trans hcleared.session

end GameController

namespace GameSession

variable {R : GameRules}

theorem session_attempt (s : GameSession R) :
    s.attemptTerminalEvent.controller.session = s.controller.session := by
  unfold attemptTerminalEvent
  split
  · rfl
  · split_ifs
    · rfl
    · rfl

theorem session_playMove (s : GameSession R) (uci : String) (now : ℕ) :
    (s.playMove uci now).2.controller.session = s.controller.session := by
  have hmove := s.controller.session_applyMove uci now
  unfold playMove
  rcases heq : s.controller.applyMove uci now with ⟨e | gameMove, c⟩
  all_goals rw [heq] at hmove
  · simp only
    split_ifs
    · exact hmove
    · exact (session_attempt _).trans hmove
  · exact (session_attempt _).trans hmove

/-- Every action keeps the session number. -/
theorem session_act (s : GameSession R) (now : ℕ) (a : SessionAction) :
    (s.act now a).controller.session = s.controller.session := by
  cases a with
  | makeMove expectedSession uci expectedPly =>
      rw [act, makeMove]
      split
      · rfl
      · split_ifs
        · rfl
        · rfl
        · exact session_playMove s uci now
  | takeBackMove expectedSession =>
      have hcut := (s.controller.cleared_takeBackMoves s.takeBackCount now).session
      rw [act, takeBackMove]
      split
      · rfl
      · split_ifs
        · rfl
        · rfl
        · rcases heq : s.controller.takeBackMoves s.takeBackCount now with ⟨e | ⟨⟩, c⟩
          all_goals rw [heq] at hcut
          · exact hcut
          · exact (session_attempt _).trans hcut
  | resign expectedSession color =>
      rw [act, resign]
      split
      · rfl
      · split_ifs with hstatus
        · rfl
        · split
          · rfl
          · exact (session_attempt _).trans
              (GameController.cleared_endGame _ _ (not_not.mp hstatus)).session
  | abort expectedSession =>
      rw [act, abort]
      split
      · rfl
      · rfl
  | clockTick =>
      have htick := s.controller.session_act now .clockTick
      rw [act, clockTick]
      simp only
      split_ifs
      · rfl
      · exact (session_attempt _).trans htick
      · exact htick
  | beginRequest => exact s.controller.session_act now .beginRequest
  | register context requestId => exact s.controller.session_act now (.register context requestId)
  | reply context requestId turn uci =>
      rw [act, commitEngineMove]
      split_ifs
      · rfl
      · exact session_playMove s uci now
  | engineFailed reason =>
      exact (session_attempt _).trans (s.controller.session_act now (.engineFailed reason))
  | complete => rfl
  | shutdown => rfl

end GameSession

namespace GameManager

variable {R : GameRules} {m : GameManager R}

/-! ## The invariant -/

/-- What holds of the sessions apart from the upkeep of the index. -/
structure SessionsOk (m : GameManager R) : Prop where
  latest : ∀ gameId latest, m.latest gameId = some latest →
    m.published gameId = some latest.session ∧
      (latest.disposition ≠ .tombstoned → (gameId, latest.session) ∉ m.former)
  live : ∀ gameId live, m.games gameId = some live →
    live.game.controller.session = live.session ∧ m.published gameId = some live.session ∧
      (gameId, live.session) ∉ m.former
  snapshot : ∀ snapshot ∈ m.snapshots, snapshot.state.session = snapshot.session
  former : ∀ gameId session, (gameId, session) ∈ m.former →
    ∃ last, m.published gameId = some last ∧ session ≤ last
  published : ∀ gameId last, m.published gameId = some last → last ≤ m.nextSession
  starting : ∀ gameId start, m.starting gameId = some start →
    start.live.session ≤ m.nextSession ∧
      start.live.game.controller.session = start.live.session ∧
        (∀ last, m.published gameId = some last → last < start.live.session) ∧
          (start.cleared = true → m.games gameId = none)

structure ManagerOk (m : GameManager R) : Prop extends SessionsOk m where
  snapshots : m.snapshots.length ≤ completedGameSnapshots
  kept : ∀ gameId latest, m.latest gameId = some latest →
    keeps m.games m.snapshots gameId latest = true

theorem latest_prune {gameId : String} {latest : LatestSession}
    (h : m.prune.latest gameId = some latest) :
    m.latest gameId = some latest ∧
      keeps m.prune.games m.prune.snapshots gameId latest = true := by
  simp only [GameManager.prune] at h ⊢
  exact Option.filter_eq_some_iff.mp h

theorem mem_prune {snapshot : CompletedSnapshot} (h : snapshot ∈ m.prune.snapshots) :
    snapshot ∈ m.snapshots := by
  simp only [GameManager.prune] at h
  exact List.mem_of_mem_drop h

theorem length_prune (m : GameManager R) : m.prune.snapshots.length ≤ completedGameSnapshots := by
  rw [GameManager.prune, List.length_drop]
  omega

/-- Pruning brings the index up to date. -/
theorem SessionsOk.prune (h : SessionsOk m) : ManagerOk m.prune := by
  refine ⟨⟨fun gameId latest hlatest ↦ ?_, ?_, fun snapshot hmem ↦ ?_, ?_, ?_, ?_⟩,
    m.length_prune, fun gameId latest hlatest ↦ (latest_prune hlatest).2⟩
  · have hkept := h.latest gameId latest (latest_prune hlatest).1
    simpa only [GameManager.prune] using hkept
  · simpa only [GameManager.prune] using h.live
  · exact h.snapshot snapshot (mem_prune hmem)
  · simpa only [GameManager.prune] using h.former
  · simpa only [GameManager.prune] using h.published
  · simpa only [GameManager.prune] using h.starting

theorem SessionsOk.publishLive {gameId : String} {live : LiveSession R} (h : SessionsOk m)
    (hsession : live.game.controller.session = live.session)
    (hnext : live.session ≤ m.nextSession)
    (hlast : ∀ last, m.published gameId = some last → last < live.session)
    (hstarting : m.starting gameId = none) :
    SessionsOk (({ m with
        games := Function.update m.games gameId (some live)
        published := Function.update m.published gameId (some live.session)
        former := (m.published gameId).toList.map (gameId, ·) ++ m.former } :
      GameManager R).setLatest gameId live.session .active) := by
  have hnew : (gameId, live.session) ∉
      (m.published gameId).toList.map (gameId, ·) ++ m.former := by
    intro hmem
    rcases List.mem_append.mp hmem with hmem | hmem
    · obtain ⟨last, hlastMem, heq⟩ := List.mem_map.mp hmem
      have hlt := hlast last (Option.mem_toList.mp hlastMem)
      have := (Prod.mk.inj heq).2
      omega
    · obtain ⟨last, hpublished, hle⟩ := h.former gameId live.session hmem
      have hlt := hlast last hpublished
      omega
  have hother : ∀ {other : String} {session : ℕ}, other ≠ gameId →
      ((other, session) ∈ (m.published gameId).toList.map (gameId, ·) ++ m.former ↔
        (other, session) ∈ m.former) := by
    intro other session hne
    rw [List.mem_append]
    refine ⟨?_, .inr⟩
    rintro (hmem | hmem)
    · obtain ⟨last, -, heq⟩ := List.mem_map.mp hmem
      exact absurd (Prod.mk.inj heq).1.symm hne
    · exact hmem
  refine ⟨fun other latest hlatest ↦ ?_, fun other l hlive ↦ ?_, h.snapshot,
    fun other session hmem ↦ ?_, fun other last hpublished ↦ ?_, fun other start hstart ↦ ?_⟩
  · by_cases hid : other = gameId
    · subst hid
      simp only [setLatest, Function.update_self, Option.some.injEq] at hlatest
      subst hlatest
      exact ⟨Function.update_self .., fun _ ↦ hnew⟩
    · simp only [setLatest, Function.update_of_ne hid] at hlatest ⊢
      obtain ⟨hpublished, hformer⟩ := h.latest other latest hlatest
      exact ⟨hpublished, fun htomb ↦ (hother hid).not.mpr (hformer htomb)⟩
  · by_cases hid : other = gameId
    · subst hid
      simp only [setLatest, Function.update_self, Option.some.injEq] at hlive
      subst hlive
      exact ⟨hsession, Function.update_self .., hnew⟩
    · simp only [setLatest, Function.update_of_ne hid] at hlive ⊢
      obtain ⟨hcontroller, hpublished, hformer⟩ := h.live other l hlive
      exact ⟨hcontroller, hpublished, (hother hid).not.mpr hformer⟩
  · by_cases hid : other = gameId
    · subst hid
      refine ⟨live.session, Function.update_self .., ?_⟩
      rcases List.mem_append.mp hmem with hmem | hmem
      · obtain ⟨last, hlastMem, heq⟩ := List.mem_map.mp hmem
        have hlt := hlast last (Option.mem_toList.mp hlastMem)
        have := (Prod.mk.inj heq).2
        omega
      · obtain ⟨last, hpublished, hle⟩ := h.former other session hmem
        have hlt := hlast last hpublished
        omega
    · simp only [setLatest, Function.update_of_ne hid]
      exact h.former other session ((hother hid).mp hmem)
  · by_cases hid : other = gameId
    · subst hid
      simp only [setLatest, Function.update_self, Option.some.injEq] at hpublished
      subst hpublished
      exact hnext
    · simp only [setLatest, Function.update_of_ne hid] at hpublished
      exact h.published other last hpublished
  · have hstart' : m.starting other = some start := hstart
    have hid : other ≠ gameId := by
      rintro rfl
      rw [hstarting] at hstart'
      cases hstart'
    simp only [setLatest, Function.update_of_ne hid]
    exact h.starting other start hstart'

theorem gamesAfterLoop_some {gameId other : String} {live l : LiveSession R}
    (h : m.gamesAfterLoop gameId live other = some l) : m.games other = some l := by
  unfold gamesAfterLoop at h
  split_ifs at h
  · exact h
  · by_cases hid : other = gameId
    · subst hid
      rw [Function.update_self] at h
      cases h
    · rwa [Function.update_of_ne hid] at h

theorem ManagerOk.completeExact (h : ManagerOk m) (gameId : String) (session now : ℕ) :
    ManagerOk (m.completeExact gameId session now) := by
  unfold GameManager.completeExact
  cases hgames : m.games gameId with
  | none => exact h
  | some live =>
      simp only
      split_ifs with hguard
      · exact h
      · obtain ⟨hsession, hlatest⟩ := not_or.mp hguard
        rw [not_not] at hsession hlatest
        obtain ⟨hcontroller, hpublished, hformer⟩ := h.live gameId live hgames
        refine SessionsOk.prune ⟨fun other latest hother ↦ ?_, fun other l hother ↦ ?_,
          fun snapshot hmem ↦ ?_, h.former, h.published, fun other start hstart ↦ ?_⟩
        · by_cases hid : other = gameId
          · subst hid
            simp only [setLatest, Function.update_self, Option.some.injEq] at hother
            subst hother
            rw [← hsession]
            exact ⟨hpublished, fun _ ↦ hformer⟩
          · simp only [setLatest, Function.update_of_ne hid] at hother
            exact h.latest other latest hother
        · exact h.live other l (gamesAfterLoop_some hother)
        · rcases List.mem_append.mp hmem with hmem | hmem
          · exact h.snapshot snapshot (List.mem_of_mem_filter hmem)
          · rw [List.mem_singleton.mp hmem]
            exact hcontroller.trans hsession
        · obtain ⟨hnext, hstart', hlast, hcleared⟩ := h.starting other start hstart
          refine ⟨hnext, hstart', hlast, fun hclear ↦ ?_⟩
          have hnone := hcleared hclear
          cases hother : m.gamesAfterLoop gameId live other with
          | none => exact hother
          | some l => exact absurd (gamesAfterLoop_some hother) (by simp [hnone])

theorem ManagerOk.retireLiveLocked (h : ManagerOk m) (gameId : String) (session : ℕ) :
    ManagerOk (m.retireLiveLocked gameId session) := by
  unfold GameManager.retireLiveLocked
  cases hgames : m.games gameId with
  | none => exact h.toSessionsOk.prune
  | some live =>
      simp only
      split_ifs with hsession
      · exact h.toSessionsOk.prune
      · rw [not_not] at hsession
        obtain ⟨hcontroller, hpublished, hformer⟩ := h.live gameId live hgames
        rw [hsession] at hpublished
        refine SessionsOk.prune ⟨fun other latest hother ↦ ?_, fun other l hother ↦ ?_,
          h.snapshot, fun other former hmem ↦ ?_, h.published, fun other start hstart ↦ ?_⟩
        · by_cases hid : other = gameId
          · subst hid
            simp only [setLatest, Function.update_self, Option.some.injEq] at hother
            subst hother
            exact ⟨hpublished, fun htomb ↦ absurd rfl htomb⟩
          · simp only [setLatest, Function.update_of_ne hid] at hother
            obtain ⟨hlast, hnot⟩ := h.latest other latest hother
            refine ⟨hlast, fun htomb hmem ↦ ?_⟩
            rcases List.mem_cons.mp hmem with heq | hmem
            · exact hid (Prod.mk.inj heq).1
            · exact hnot htomb hmem
        · by_cases hid : other = gameId
          · subst hid
            simp only [setLatest, Function.update_self] at hother
            cases hother
          · simp only [setLatest, Function.update_of_ne hid] at hother
            obtain ⟨hc, hlast, hnot⟩ := h.live other l hother
            refine ⟨hc, hlast, fun hmem ↦ ?_⟩
            rcases List.mem_cons.mp hmem with heq | hmem
            · exact hid (Prod.mk.inj heq).1
            · exact hnot hmem
        · rcases List.mem_cons.mp hmem with heq | hmem
          · obtain ⟨rfl, rfl⟩ := Prod.mk.inj heq
            exact ⟨former, hpublished, le_rfl⟩
          · exact h.former other former hmem
        · obtain ⟨hnext, hstart', hlast, hcleared⟩ := h.starting other start hstart
          refine ⟨hnext, hstart', hlast, fun hclear ↦ ?_⟩
          by_cases hid : other = gameId
          · subst hid
            exact Function.update_self ..
          · simp only [setLatest, Function.update_of_ne hid]
            exact hcleared hclear

/-- A change of the start in progress for a game id. -/
theorem ManagerOk.setStarting (h : ManagerOk m) (gameId : String)
    (start : Option (StartingGame R)) (hstart : ∀ st, start = some st →
      st.live.session ≤ m.nextSession ∧
        st.live.game.controller.session = st.live.session ∧
          (∀ last, m.published gameId = some last → last < st.live.session) ∧
            (st.cleared = true → m.games gameId = none)) :
    ManagerOk { m with starting := Function.update m.starting gameId start } := by
  refine ⟨⟨h.latest, h.live, h.snapshot, h.former, h.published, fun other st hother ↦ ?_⟩,
    h.snapshots, h.kept⟩
  by_cases hid : other = gameId
  · subst hid
    simp only [Function.update_self] at hother
    exact hstart st hother
  · simp only [Function.update_of_ne hid] at hother
    exact h.starting other st hother

theorem ManagerOk.allocate (h : ManagerOk m) (gameId : String) (config : GameConfig) (now : ℕ) :
    ManagerOk (m.allocate gameId config now).2 := by
  have hcounted : ManagerOk { m with nextSession := m.nextSession + 1 } := by
    refine ⟨⟨h.latest, h.live, h.snapshot, h.former, fun other last hpublished ↦ ?_,
      fun other start hstart ↦ ?_⟩, h.snapshots, h.kept⟩
    · exact Nat.le_succ_of_le (h.published other last hpublished)
    · obtain ⟨hnext, hrest⟩ := h.starting other start hstart
      exact ⟨Nat.le_succ_of_le hnext, hrest⟩
  unfold GameManager.allocate
  split_ifs
  · exact h
  · exact h
  · exact h
  · simp only
    cases hcreate : GameController.create R gameId (m.nextSession + 1) config now with
    | error e => exact hcounted
    | ok c =>
        refine hcounted.setStarting gameId _ fun st hst ↦ ?_
        obtain rfl := Option.some.inj hst
        have hsession : c.session = m.nextSession + 1 := GameController.session_create hcreate
        refine ⟨le_rfl, ?_, fun last hpublished ↦ Nat.lt_succ_of_le
          (h.published gameId last hpublished), fun hclear ↦ by cases hclear⟩
        exact (GameSession.session_attempt _).trans hsession

theorem ManagerOk.updateLive {live updated : LiveSession R} {gameId : String} (h : ManagerOk m)
    (hgames : m.games gameId = some live) (hsession : updated.session = live.session)
    (hcontroller : updated.game.controller.session = live.game.controller.session) :
    ManagerOk { m with games := Function.update m.games gameId (some updated) } := by
  refine ⟨⟨h.latest, fun other l hother ↦ ?_, h.snapshot, h.former, h.published,
    fun other start hstart ↦ ?_⟩, h.snapshots, fun other latest hlatest ↦ ?_⟩
  · by_cases hid : other = gameId
    · subst hid
      simp only [Function.update_self, Option.some.injEq] at hother
      subst hother
      rw [hsession, hcontroller]
      exact h.live other live hgames
    · simp only [Function.update_of_ne hid] at hother
      exact h.live other l hother
  · obtain ⟨hnext, hstart', hlast, hcleared⟩ := h.starting other start hstart
    refine ⟨hnext, hstart', hlast, fun hclear ↦ ?_⟩
    have hid : other ≠ gameId := by
      rintro rfl
      rw [hcleared hclear] at hgames
      cases hgames
    simp only [Function.update_of_ne hid]
    exact hcleared hclear
  · have hkept := h.kept other latest hlatest
    by_cases hid : other = gameId
    · subst hid
      unfold keeps at hkept ⊢
      cases hdisposition : latest.disposition with
      | active =>
          rw [hdisposition] at hkept
          simpa [hgames, hsession] using hkept
      | completed =>
          rw [hdisposition] at hkept
          exact hkept
      | tombstoned =>
          rw [hdisposition] at hkept
          exact hkept
    · unfold keeps at hkept ⊢
      simpa only [Function.update_of_ne hid] using hkept

/-- After the old session is retired, the game id has no live session. -/
theorem games_retireLiveLocked {live : LiveSession R} {gameId : String}
    (h : m.games gameId = some live) :
    (m.retireLiveLocked gameId live.session).games gameId = none := by
  simp [GameManager.retireLiveLocked, h, GameManager.prune, setLatest]

theorem starting_retireLiveLocked (gameId : String) (session : ℕ) :
    (m.retireLiveLocked gameId session).starting = m.starting ∧
      (m.retireLiveLocked gameId session).published = m.published ∧
        (m.retireLiveLocked gameId session).nextSession = m.nextSession := by
  unfold GameManager.retireLiveLocked
  split
  · simp [GameManager.prune]
  · split_ifs
    · simp [GameManager.prune]
    · simp [GameManager.prune, setLatest]

theorem ManagerOk.clear (h : ManagerOk m) (gameId : String) : ManagerOk (m.clear gameId) := by
  unfold GameManager.clear
  cases hstart : m.starting gameId with
  | none => exact h
  | some start =>
      obtain ⟨hnext, hcontroller, hlast, -⟩ := h.starting gameId start hstart
      simp only
      cases hgames : m.games gameId with
      | none =>
          refine h.setStarting gameId _ fun st hst ↦ ?_
          obtain rfl := Option.some.inj hst
          exact ⟨hnext, hcontroller, hlast, fun _ ↦ hgames⟩
      | some old =>
          obtain ⟨-, hpublished, hnextSession⟩ :=
            starting_retireLiveLocked (m := m) gameId old.session
          refine (h.retireLiveLocked gameId old.session).setStarting gameId _ fun st hst ↦ ?_
          obtain rfl := Option.some.inj hst
          rw [hpublished, hnextSession]
          exact ⟨hnext, hcontroller, hlast, fun _ ↦ games_retireLiveLocked hgames⟩

theorem ManagerOk.publish (h : ManagerOk m) (gameId : String) : ManagerOk (m.publish gameId) := by
  unfold GameManager.publish
  cases hstart : m.starting gameId with
  | none => exact h
  | some start =>
      obtain ⟨hnext, hcontroller, hlast, hcleared⟩ := h.starting gameId start hstart
      simp only
      split_ifs
      · exact h
      · unfold GameManager.publishLive
        have hfreed : ManagerOk { m with starting := Function.update m.starting gameId none } :=
          h.setStarting gameId none fun st hst ↦ by cases hst
        split_ifs
        · exact hfreed
        · have hpublished := SessionsOk.prune (hfreed.toSessionsOk.publishLive
            hcontroller hnext hlast (Function.update_self ..))
          simpa only [GameManager.prune, setLatest] using hpublished

theorem ManagerOk.act (h : ManagerOk m) (now : ℕ) (a : ManagerAction) :
    ManagerOk (m.act now a) := by
  cases a with
  | allocate gameId config => exact h.allocate gameId config now
  | clear gameId => exact h.clear gameId
  | publish gameId => exact h.publish gameId
  | abandon gameId => exact h.setStarting gameId none fun st hst ↦ by cases hst
  | operate gameId action =>
      rw [GameManager.act, operate]
      cases hgames : m.games gameId with
      | none => exact h
      | some live =>
          simp only
          split_ifs
          · exact h.updateLive hgames rfl (live.game.session_act now action)
          · exact h
  | failCleanup gameId =>
      rw [GameManager.act, failCleanup]
      cases hgames : m.games gameId with
      | none => exact h
      | some live => exact h.updateLive hgames rfl rfl
  | complete gameId session => exact h.completeExact gameId session now
  | retire gameId session => exact h.retireLiveLocked gameId session
  | sealStarts =>
      exact ⟨⟨h.latest, h.live, h.snapshot, h.former, h.published, h.starting⟩, h.snapshots,
        h.kept⟩

theorem managerOk_invariant : (managerMachine R).Invariant (fun _ _ ↦ True) ManagerOk where
  init := by
    rintro m rfl
    exact ⟨⟨(fun _ _ h ↦ by cases h), (fun _ _ h ↦ by cases h), (fun _ h ↦ by cases h),
      (fun _ _ h ↦ by cases h), (fun _ _ h ↦ by cases h), (fun _ _ h ↦ by cases h)⟩,
      Nat.zero_le _, (fun _ _ h ↦ by cases h)⟩
  step := by
    rintro m ⟨a, now⟩ m' h - rfl
    exact h.act now a

/-- A query answers with the state of the session it names, the last one
published, which was neither replaced nor tombstoned. -/
theorem ManagerOk.getGameState {gameId : String} {session now : ℕ} {state : GameState}
    (h : ManagerOk m) (hstate : m.getGameState gameId session now = .ok state) :
    state.session = session ∧ m.published gameId = some session ∧
      (gameId, session) ∉ m.former := by
  unfold GameManager.getGameState at hstate
  cases hgames : m.games gameId with
  | some live =>
      rw [hgames] at hstate
      obtain ⟨hcontroller, hpublished, hformer⟩ := h.live gameId live hgames
      obtain ⟨hsession, hstate⟩ := of_guard hstate
      rw [not_not] at hsession
      rw [← hsession]
      cases hstate
      exact ⟨hcontroller, hpublished, hformer⟩
  | none =>
      rw [hgames] at hstate
      cases hlatest : m.latest gameId with
      | none => simp [hlatest] at hstate
      | some latest =>
          rw [hlatest] at hstate
          obtain ⟨hsession, hstate⟩ := of_guard hstate
          obtain ⟨hdisposition, hstate⟩ := of_guard hstate
          rw [not_not] at hsession
          obtain ⟨hpublished, hformer⟩ := h.latest gameId latest hlatest
          rw [hsession] at hpublished hformer
          refine ⟨?_, hpublished, hformer hdisposition⟩
          cases hfind : m.snapshots.reverse.find? fun entry ↦
              entry.gameId = gameId && entry.session = session with
          | none => simp [hfind] at hstate
          | some entry =>
              rw [hfind] at hstate
              cases hstate
              have hmem := List.mem_reverse.mp (List.mem_of_find?_eq_some hfind)
              have hentry := List.find?_some hfind
              simp only [Bool.and_eq_true, decide_eq_true_eq] at hentry
              exact (h.snapshot entry hmem).trans hentry.2

end GameManager

/-- What an entry of the index of latest sessions refers to. -/
def GameManager.Refers {R : GameRules} (m : GameManager R) (gameId : String)
    (latest : LatestSession) : Prop :=
  match latest.disposition with
  | .active => ∃ live, m.games gameId = some live ∧ live.session = latest.session
  | .completed =>
      ∃ snapshot ∈ m.snapshots, snapshot.gameId = gameId ∧ snapshot.session = latest.session
  | .tombstoned => ∃ snapshot ∈ m.snapshots, snapshot.gameId = gameId

/-- At most 128 snapshots are kept; an entry of the index refers to a live
session, to its kept snapshot, or, tombstoned, to a kept snapshot of its game id;
and a query never answers for a session that was replaced or tombstoned. -/
theorem manager_bookkeeping {R : GameRules} {m : GameManager R}
    (h : (managerMachine R).Reachable m) :
    m.snapshots.length ≤ 128 ∧
      (∀ gameId latest, m.latest gameId = some latest → m.Refers gameId latest) ∧
      ∀ gameId session now state, m.getGameState gameId session now = .ok state →
        state.session = session ∧ m.published gameId = some session ∧
          (gameId, session) ∉ m.former := by
  have hm := GameManager.managerOk_invariant.reachable h
  refine ⟨hm.snapshots, fun gameId latest hlatest ↦ ?_, fun gameId session now state hstate ↦
    hm.getGameState hstate⟩
  have hkept := hm.kept gameId latest hlatest
  unfold GameManager.keeps at hkept
  unfold GameManager.Refers
  cases hdisposition : latest.disposition with
  | active =>
      simp only [hdisposition] at hkept ⊢
      cases hgames : m.games gameId with
      | none => simp [hgames] at hkept
      | some live => exact ⟨live, rfl, by simpa [hgames] using hkept⟩
  | completed =>
      simp only [hdisposition] at hkept ⊢
      obtain ⟨snapshot, hmem, hboth⟩ := List.any_eq_true.mp hkept
      simp only [Bool.and_eq_true, decide_eq_true_eq] at hboth
      exact ⟨snapshot, hmem, hboth⟩
  | tombstoned =>
      simp only [hdisposition] at hkept ⊢
      obtain ⟨snapshot, hmem, hid⟩ := List.any_eq_true.mp hkept
      exact ⟨snapshot, hmem, of_decide_eq_true hid⟩

namespace PawnEnding

/-- A game that ends, and a second one with its id that is aborted. -/
def managerRun : List ManagerAction :=
  [.allocate "game" config, .clear "game", .publish "game", .complete "game" 1,
    .allocate "game" config, .clear "game", .publish "game", .retire "game" 2]

def manager : GameManager rules :=
  managerRun.foldl (fun m a ↦ m.act 0 a) (.empty rules)

theorem reachable_foldl (m : GameManager rules) (as : List ManagerAction) :
    (managerMachine rules).Run m (as.foldl (fun m a ↦ m.act 0 a) m) := by
  induction as generalizing m with
  | nil => exact .refl
  | cons a as ih =>
      have hstep : (managerMachine rules).step m (a, 0) (m.act 0 a) := rfl
      exact (Machine.Run.refl.step hstep).trans (ih (m.act 0 a))

theorem reachable_manager : (managerMachine rules).Reachable manager :=
  ⟨.empty rules, rfl, reachable_foldl _ managerRun⟩

theorem latest_manager : manager.latest "game" = some ⟨2, .tombstoned⟩ := by
  decide

theorem manager_bookkeeping_tombstoned :
    (∃ snapshot ∈ manager.snapshots, snapshot.gameId = "game") ∧
      ∀ state, manager.getGameState "game" 2 0 ≠ .ok state := by
  obtain ⟨-, hrefers, hquery⟩ := manager_bookkeeping reachable_manager
  refine ⟨hrefers "game" ⟨2, .tombstoned⟩ latest_manager, fun state hstate ↦ ?_⟩
  exact absurd (hquery "game" 2 0 state hstate).2.2 (by decide)

end PawnEnding

/-- A tombstoned entry refers neither to a live session nor to a snapshot of its
own session. -/
theorem exists_tombstone_without_session :
    ∃ m : GameManager PawnEnding.rules, (managerMachine PawnEnding.rules).Reachable m ∧
      m.latest "game" = some ⟨2, .tombstoned⟩ ∧ (m.games "game").isNone ∧
        ∀ snapshot ∈ m.snapshots, snapshot.session ≠ 2 :=
  ⟨PawnEnding.manager, PawnEnding.reachable_manager, PawnEnding.latest_manager,
    by decide, by decide⟩

end EnCroissant
