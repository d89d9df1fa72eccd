import Mathlib
import EnCroissant.Game.ControllerRuns

/-!
# The line of a game

Position, repetition table and move records of a controller are what replaying
its recorded moves from the start of the game gives, whatever moves and
take-backs led there.
-/

namespace EnCroissant

namespace GameRules

variable (R : GameRules)

def replay (start : R.Chess) (ucis : List String) : Except Error R.Chess :=
  ucis.foldlM (fun p uci ↦ (parseMove R uci p).map (R.playUnchecked p)) start

/-- The moves that a replay plays, each with the position it is played on. -/
def plays : R.Chess → List String → List (R.Chess × Move)
  | _, [] => []
  | p, uci :: ucis =>
      match parseMove R uci p with
      | .ok mv => (p, mv) :: plays (R.playUnchecked p mv) ucis
      | .error _ => []

/-- The keys of the positions from the start to the current one. -/
def keysAlong (start : R.Chess) (ucis : List String) : List String :=
  positionKey R start ::
    (R.plays start ucis).map fun s ↦ positionKey R (R.playUnchecked s.1 s.2)

/-- No position of the line stood on the board more than twice. -/
def Bounded (start : R.Chess) (ucis : List String) : Prop :=
  ∀ key, (R.keysAlong start ucis).count key ≤ 2

variable {R} {start p : R.Chess} {ucis : List String} {uci : String} {mv : Move}

theorem replay_cons (h : parseMove R uci start = .ok mv) :
    R.replay start (uci :: ucis) = R.replay (R.playUnchecked start mv) ucis := by
  simp only [replay, List.foldlM_cons, h, Except.map, bind, Except.bind]

theorem replay_cons_ok (h : R.replay start (uci :: ucis) = .ok p) :
    ∃ mv, parseMove R uci start = .ok mv := by
  cases hmove : parseMove R uci start with
  | ok mv => exact ⟨mv, rfl⟩
  | error e => simp [replay, hmove, Except.map, bind, Except.bind] at h

theorem replay_concat (h : R.replay start ucis = .ok p) (hmove : parseMove R uci p = .ok mv) :
    R.replay start (ucis ++ [uci]) = .ok (R.playUnchecked p mv) := by
  unfold replay at h ⊢
  rw [List.foldlM_append, h]
  simp [hmove, Except.map, bind, Except.bind, pure, Except.pure]

theorem replay_take (h : R.replay start ucis = .ok p) (n : ℕ) :
    ∃ q, R.replay start (ucis.take n) = .ok q := by
  induction ucis generalizing start n with
  | nil => exact ⟨start, by rw [List.take_nil]; rfl⟩
  | cons uci ucis ih =>
      cases n with
      | zero => exact ⟨start, rfl⟩
      | succ n =>
          obtain ⟨mv, hmove⟩ := replay_cons_ok h
          rw [replay_cons hmove] at h
          rw [List.take_succ_cons, replay_cons hmove]
          exact ih h n

theorem plays_cons (h : parseMove R uci start = .ok mv) :
    R.plays start (uci :: ucis) = (start, mv) :: R.plays (R.playUnchecked start mv) ucis := by
  rw [plays, h]

theorem plays_concat (h : R.replay start ucis = .ok p) (hmove : parseMove R uci p = .ok mv) :
    R.plays start (ucis ++ [uci]) = R.plays start ucis ++ [(p, mv)] := by
  induction ucis generalizing start with
  | nil =>
      have hstart : start = p := by simpa [replay, pure, Except.pure] using h
      subst hstart
      rw [List.nil_append, plays_cons hmove]
      rfl
  | cons v ucis ih =>
      obtain ⟨first, hfirst⟩ := replay_cons_ok h
      rw [replay_cons hfirst] at h
      rw [List.cons_append, plays_cons hfirst, plays_cons hfirst, ih h, List.cons_append]

theorem plays_take (start : R.Chess) (ucis : List String) (n : ℕ) :
    R.plays start (ucis.take n) = (R.plays start ucis).take n := by
  induction ucis generalizing start n with
  | nil => simp [plays]
  | cons uci ucis ih =>
      cases n with
      | zero => simp [plays]
      | succ n =>
          rw [List.take_succ_cons]
          cases hmove : parseMove R uci start with
          | ok mv => rw [plays_cons hmove, plays_cons hmove, List.take_succ_cons, ih]
          | error e => simp [plays, hmove]

theorem keysAlong_concat (h : R.replay start ucis = .ok p) (hmove : parseMove R uci p = .ok mv) :
    R.keysAlong start (ucis ++ [uci]) =
      R.keysAlong start ucis ++ [positionKey R (R.playUnchecked p mv)] := by
  rw [keysAlong, plays_concat h hmove, List.map_append, keysAlong]
  rfl

theorem Bounded.take (h : R.Bounded start ucis) (n : ℕ) : R.Bounded start (ucis.take n) := by
  intro key
  refine le_trans ?_ (h key)
  refine List.Sublist.count_le key (List.Sublist.cons_cons _ ?_)
  rw [plays_take]
  exact (List.take_sublist n _).map _

theorem bounded_nil (start : R.Chess) : R.Bounded start [] := fun key ↦
  (List.count_le_length (a := key)).trans (by simp [keysAlong, plays])

end GameRules

/-- A move record without the clock times. -/
def GameMove.played (m : GameMove) : String × String × String := (m.uci, m.san, m.fenAfter)

namespace GameController

variable {R : GameRules} {c c' d : GameController R} {now : ℕ}

/-! ## The invariant -/

def ucis (moves : List GameMove) : List String := moves.map (·.uci)

structure Line.Sound (l : Line R) : Prop where
  position : R.replay l.rootPosition (ucis l.moves) = .ok l.position
  table : l.positionHistory = Tally.of (R.keysAlong l.rootPosition (ucis l.moves))
  records : l.moves.map (fun m ↦ (m.san, m.fenAfter)) =
    (R.plays l.rootPosition (ucis l.moves)).map fun s ↦
      (R.sanPlus s.1 s.2, R.fen (R.playUnchecked s.1 s.2))
  earlier : R.Bounded l.rootPosition (ucis l.moves).dropLast

/-- The line is sound, and in a game that goes on no position stood on the board
more than twice. -/
structure Replays (c : GameController R) : Prop where
  sound : c.line.Sound
  bounded : c.status = .playing → R.Bounded c.rootPosition (ucis c.moves)

theorem Replays.of_line (h : Replays c) (hline : c'.line = c.line)
    (hplaying : c'.status = .playing → c.status = .playing) : Replays c' := by
  obtain ⟨hroot, hmoves, -, -⟩ := line_ext hline
  refine ⟨hline ▸ h.sound, fun hstatus ↦ ?_⟩
  rw [hroot, hmoves]
  exact h.bounded (hplaying hstatus)

/-- The current position is the last of the line. -/
theorem Line.Sound.keys_eq {l : Line R} (h : l.Sound) :
    ∃ keys, R.keysAlong l.rootPosition (ucis l.moves) = keys ++ [positionKey R l.position] ∧
      ∀ key, keys.count key ≤ 2 := by
  have hreplay := h.position
  have hearlier := h.earlier
  rcases List.eq_nil_or_concat (ucis l.moves) with hnil | ⟨us, u, hconcat⟩
  · rw [hnil] at hreplay ⊢
    have hstart : l.rootPosition = l.position := by
      simpa [GameRules.replay, pure, Except.pure] using hreplay
    rw [← hstart]
    exact ⟨[], rfl, fun key ↦ by simp⟩
  · rw [List.concat_eq_append] at hconcat
    rw [hconcat] at hreplay hearlier ⊢
    rw [List.dropLast_concat] at hearlier
    have htake := GameRules.replay_take hreplay us.length
    rw [List.take_left] at htake
    obtain ⟨q, hq⟩ := htake
    obtain ⟨mv, hmove⟩ : ∃ mv, parseMove R u q = .ok mv := by
      cases hmove : parseMove R u q with
      | ok mv => exact ⟨mv, rfl⟩
      | error e =>
          unfold GameRules.replay at hreplay hq
          rw [List.foldlM_append, hq] at hreplay
          simp [hmove, Except.map, bind, Except.bind] at hreplay
    have hposition : R.playUnchecked q mv = l.position := by
      have hlast := GameRules.replay_concat hq hmove
      rw [hreplay] at hlast
      exact (Except.ok.inj hlast).symm
    refine ⟨R.keysAlong l.rootPosition us, ?_, hearlier⟩
    rw [GameRules.keysAlong_concat hq hmove, hposition]

/-- The check for the end of the game stops a third occurrence. -/
theorem Line.Sound.checkGameEnd (h : c.line.Sound) : Replays (c.checkGameEnd now) := by
  refine ⟨line_checkGameEnd.symm ▸ h, fun hstatus ↦ ?_⟩
  obtain ⟨hresult, hsame⟩ := checkGameEnd_playing hstatus
  rw [hsame]
  obtain ⟨keys, hkeys, hcount⟩ := h.keys_eq
  have hcurrent := positionResult_none hresult
  have htable : c.positionHistory = Tally.of (R.keysAlong c.rootPosition (ucis c.moves)) := h.table
  rw [htable, Tally.filter_lookup_of _ _ (by omega)] at hcurrent
  change R.keysAlong c.rootPosition (ucis c.moves) = _ at hkeys
  intro key
  by_cases hkey : positionKey R c.position = key
  · subst hkey
    exact Nat.le_of_lt_succ hcurrent
  · rw [hkeys, List.count_append, List.count_singleton]
    simp only [line, beq_iff_eq, if_neg hkey]
    exact hcount key

/-! ## Moves -/

theorem Replays.push {mv : Move} {m : GameMove} (h : Replays c) (hplaying : c.status = .playing)
    (hmove : parseMove R m.uci c.position = .ok mv)
    (hrecord : (m.san, m.fenAfter) =
      (R.sanPlus c.position mv, R.fen (R.playUnchecked c.position mv))) :
    Line.Sound ⟨c.rootPosition, c.moves ++ [m], R.playUnchecked c.position mv,
      c.positionHistory.add (positionKey R (R.playUnchecked c.position mv))⟩ := by
  have hposition : R.replay c.rootPosition (ucis c.moves) = .ok c.position := h.sound.position
  have htable : c.positionHistory = Tally.of (R.keysAlong c.rootPosition (ucis c.moves)) :=
    h.sound.table
  have hucis : ucis (c.moves ++ [m]) = ucis c.moves ++ [m.uci] := List.map_append
  have hrecords : c.moves.map (fun m ↦ (m.san, m.fenAfter)) = _ := h.sound.records
  refine ⟨?_, ?_, ?_, ?_⟩
  · rw [hucis]
    exact GameRules.replay_concat hposition hmove
  · rw [hucis, GameRules.keysAlong_concat hposition hmove, Tally.of_concat, htable]
  · rw [hucis, GameRules.plays_concat hposition hmove, List.map_append, List.map_append, hrecords]
    simp only [line, List.map_cons, List.map_nil, hrecord]
  · rw [hucis, List.dropLast_concat]
    exact h.bounded hplaying

theorem Replays.applyMove (h : Replays c) (uci : String) (now : ℕ) :
    Replays (c.applyMove uci now).2 := by
  rcases c.applyMove_cases uci now with ⟨-, heq⟩ | ⟨hplaying, hrest⟩
  · rw [heq]
    exact h
  · rcases hrest with ⟨result, settled, hsettle, heq⟩ | ⟨settled, hsettle, hrest⟩
    · obtain ⟨clock, rfl⟩ := settled_eq hsettle
      rw [heq]
      exact h.of_line (line_endGame result) fun _ ↦ hplaying
    · obtain ⟨clock, rfl⟩ := settled_eq hsettle
      rcases hrest with ⟨e, heq⟩ | ⟨mv, hmove, heq⟩
      · rw [heq]
        exact h.of_line rfl id
      · rw [heq]
        refine Line.Sound.checkGameEnd ?_
        exact h.push (m := ({ c with clock := clock }.playMove uci mv now).1) hplaying hmove rfl

theorem Replays.applyMoveNoClock {uci : String} {m : GameMove} (h : Replays c)
    (hplaying : c.status = .playing) (heq : c.applyMoveNoClock uci now = (.ok m, c')) :
    Replays c' := by
  unfold GameController.applyMoveNoClock at heq
  cases hmove : parseMove R uci c.position with
  | error e => simp [hmove] at heq
  | ok mv =>
      simp only [hmove, Prod.mk.injEq] at heq
      rw [← heq.2]
      refine Line.Sound.checkGameEnd ?_
      exact h.push (m := (c.playMoveNoClock uci mv).1) hplaying hmove rfl

theorem Replays.playInitialMoves {us : List String} (h : Replays c)
    (heq : c.playInitialMoves now us = .ok c') : Replays c' := by
  induction us generalizing c with
  | nil =>
      cases heq
      exact h
  | cons uci us ih =>
      unfold GameController.playInitialMoves at heq
      split_ifs at heq with hstatus
      rcases hmove : c.applyMoveNoClock uci now with ⟨e | m, next⟩
      · simp [hmove] at heq
      · rw [hmove] at heq
        exact ih (h.applyMoveNoClock (not_not.mp hstatus) hmove) heq

theorem sound_fresh (gameId : String) (session : ℕ) (config : GameConfig) (initialFen : String)
    (position : R.Chess) (now : ℕ) :
    (fresh gameId session config initialFen position now).line.Sound where
  position := rfl
  table := (Tally.of_singleton _).symm
  records := rfl
  earlier := GameRules.bounded_nil _

/-! ## Take-backs -/

theorem popMoves_eq (count : ℕ) (moves : List GameMove) :
    popMoves count moves = moves.take (moves.length - count) := by
  induction count generalizing moves with
  | zero => simp [popMoves]
  | succ count ih =>
      rw [popMoves, ih, List.dropLast_eq_take, List.take_take]
      congr 1
      simp only [List.length_take]
      omega

/-- The keys that a replay adds to the repetition table. -/
def replayedKeys (R : GameRules) (start : R.Chess) (moves : List GameMove) : List String :=
  (R.plays start (ucis moves)).map fun s : R.Chess × Move ↦
    positionKey R (R.playUnchecked s.1 s.2)

/-- Replaying recorded moves plays them and counts their positions. -/
theorem replayMoves_eq {moves : List GameMove} {q : R.Chess}
    (h : R.replay c.position (ucis moves) = .ok q) :
    c.replayMoves moves = (.ok (),
      { c with
        position := q
        positionHistory := (replayedKeys R c.position moves).foldl Tally.add
          c.positionHistory }) := by
  induction moves generalizing c with
  | nil =>
      have hstart : c.position = q := by
        simpa [GameRules.replay, ucis, pure, Except.pure] using h
      subst hstart
      rfl
  | cons m moves ih =>
      change R.replay c.position (m.uci :: ucis moves) = .ok q at h
      obtain ⟨mv, hmove⟩ := GameRules.replay_cons_ok h
      rw [GameRules.replay_cons hmove] at h
      have hkeys : replayedKeys R c.position (m :: moves) =
          positionKey R (R.playUnchecked c.position mv) ::
            replayedKeys R (R.playUnchecked c.position mv) moves := by
        change List.map _ (R.plays c.position (m.uci :: ucis moves)) = _
        rw [GameRules.plays_cons hmove]
        rfl
      rw [replayMoves, hmove, hkeys]
      exact ih (c := c.pushPosition mv) h

theorem rebuildPositionFromMoves_eq {q : R.Chess} (now : ℕ)
    (h : R.replay c.rootPosition (ucis c.moves) = .ok q) :
    ∃ clock, c.rebuildPositionFromMoves now = (.ok (),
      { c with
        position := q
        positionHistory := Tally.of (R.keysAlong c.rootPosition (ucis c.moves))
        clock := clock }) := by
  refine ⟨(c.resetTimes now).clock, ?_⟩
  rw [rebuildPositionFromMoves]
  rw [replayMoves_eq (q := q) h, ← Tally.of_singleton]
  rfl

theorem Line.Sound.take {l : Line R} (h : l.Sound) (n : ℕ) :
    ∃ q, Line.Sound ⟨l.rootPosition, l.moves.take n, q,
      Tally.of (R.keysAlong l.rootPosition (ucis (l.moves.take n)))⟩ := by
  have hucis : ucis (l.moves.take n) = (ucis l.moves).take n := List.map_take
  obtain ⟨q, hq⟩ := GameRules.replay_take h.position n
  refine ⟨q, ?_, rfl, ?_, ?_⟩
  · simp only [hucis]
    exact hq
  · simp only [hucis]
    rw [List.map_take, h.records, GameRules.plays_take, List.map_take]
  · have hdrop : (ucis (l.moves.take n)).dropLast =
        (ucis l.moves).dropLast.take (min n l.moves.length - 1) := by
      rw [hucis]
      simp only [List.dropLast_eq_take, List.take_take, List.length_take, ucis, List.length_map]
      congr 1
      omega
    simp only [hdrop]
    exact h.earlier.take _

/-- A take-back always succeeds and cuts the line to its first moves. -/
theorem Replays.takeBackMoves (h : Replays c) (count now : ℕ) :
    ∃ c', c.takeBackMoves count now = (.ok (), c') ∧ Replays c' ∧
      c'.rootPosition = c.rootPosition ∧
        c'.moves = c.moves.take (c.moves.length - count) := by
  obtain ⟨q, hcut⟩ := h.sound.take (c.moves.length - count)
  have hpop : popMoves count c.moves = c.moves.take (c.moves.length - count) :=
    popMoves_eq count c.moves
  obtain ⟨clock, hrebuilt⟩ := rebuildPositionFromMoves_eq (q := q)
    (c := { c.cancelEngineRequest with
      moves := c.moves.take (c.moves.length - count), status := .playing }) now hcut.position
  rcases c.takeBackMoves_cases count now with ⟨e, rebuilt, hrebuild, -⟩ | ⟨rebuilt, hrebuild, heq⟩
  · rw [hpop, hrebuilt] at hrebuild
    simp at hrebuild
  · rw [hpop, hrebuilt] at hrebuild
    simp only [Prod.mk.injEq, true_and] at hrebuild
    subst hrebuild
    refine ⟨_, heq, Line.Sound.checkGameEnd hcut, ?_, ?_⟩
    · exact (line_ext line_checkGameEnd).1
    · exact (line_ext line_checkGameEnd).2.1

/-! ## Runs -/

theorem line_clockTick (c : GameController R) (now : ℕ) :
    (c.clockTick now).line = c.line ∧
      ((c.clockTick now).status = .playing → c.status = .playing) := by
  unfold clockTick
  split_ifs with hstatus
  · exact ⟨rfl, id⟩
  · rcases hsettle : c.settleActiveClock now with ⟨_ | result, settled⟩
    · obtain ⟨clock, rfl⟩ := settled_eq hsettle
      exact ⟨rfl, id⟩
    · obtain ⟨clock, rfl⟩ := settled_eq hsettle
      exact ⟨line_endGame result, fun h ↦ absurd h (endGame_status result)⟩

theorem line_beginEngineRequest (c : GameController R) :
    c.beginEngineRequest.2.line = c.line ∧ c.beginEngineRequest.2.status = c.status := by
  unfold beginEngineRequest
  split_ifs
  · exact ⟨rfl, rfl⟩
  · exact ⟨rfl, rfl⟩

theorem line_registerEngineRequestId (c : GameController R) (context : EngineRequestContext)
    (requestId : ℕ) :
    (c.registerEngineRequestId context requestId).2.line = c.line ∧
      (c.registerEngineRequestId context requestId).2.status = c.status := by
  unfold registerEngineRequestId
  split
  · exact ⟨rfl, rfl⟩
  · split_ifs
    · exact ⟨rfl, rfl⟩
    · exact ⟨rfl, rfl⟩

/-- Every action keeps the line sound. -/
theorem Replays.act (h : Replays c) (now : ℕ) (a : ControllerAction) : Replays (c.act now a) := by
  cases a with
  | move uci => exact h.applyMove uci _
  | takeBack count =>
      obtain ⟨c', heq, hc', -, -⟩ := h.takeBackMoves count now
      rw [GameController.act, heq]
      exact hc'
  | resign color =>
      exact h.of_line (line_endGame _) fun hstatus ↦ absurd hstatus (endGame_status _)
  | clockTick =>
      obtain ⟨hline, hstatus⟩ := c.line_clockTick now
      exact h.of_line hline hstatus
  | engineFailed reason =>
      exact h.of_line (line_endGame _) fun hstatus ↦ absurd hstatus (endGame_status _)
  | beginRequest =>
      obtain ⟨hline, hstatus⟩ := c.line_beginEngineRequest
      exact h.of_line hline fun hplaying ↦ hstatus ▸ hplaying
  | register context requestId =>
      obtain ⟨hline, hstatus⟩ := c.line_registerEngineRequestId context requestId
      exact h.of_line hline fun hplaying ↦ hstatus ▸ hplaying
  | reply context requestId turn uci =>
      rw [GameController.act, commitEngineMove]
      split_ifs
      · exact h
      · exact h.applyMove uci _
  | cancel => exact h.of_line rfl id

theorem replays_create {gameId : String} {session : ℕ} {config : GameConfig}
    (h : create R gameId session config now = .ok c) : Replays c := by
  obtain ⟨-, -, h⟩ := bind_eq_ok h
  obtain ⟨position, -, h⟩ := bind_eq_ok h
  exact (sound_fresh gameId session config _ position now).checkGameEnd.playInitialMoves h

theorem replays_invariant : (controllerMachine R).Invariant (fun _ _ ↦ True) Replays where
  init := by
    rintro c ⟨gameId, session, config, built, published, c₀, hcreate, rfl⟩
    exact (replays_create hcreate).of_line rfl id
  step := by
    rintro c ⟨a, now⟩ c' h - rfl
    exact h.act now a

/-- Plays moves one after the other; `none` where one of them is refused. -/
def playAll (c : GameController R) : List (String × ℕ) → Option (GameController R)
  | [] => some c
  | (uci, now) :: rest =>
      match c.applyMove uci now with
      | (.ok _, c) => playAll c rest
      | (.error _, _) => none

theorem applyMove_ok {uci : String} {m : GameMove} (h : c.applyMove uci now = (.ok m, c')) :
    c'.moves = c.moves ++ [m] ∧ m.uci = uci ∧ c'.rootPosition = c.rootPosition := by
  rcases c.applyMove_cases uci now with ⟨-, heq⟩ | ⟨-, hrest⟩
  · simp [h] at heq
  · rcases hrest with ⟨result, settled, -, heq⟩ | ⟨settled, hsettle, ⟨e, heq⟩ | ⟨mv, -, heq⟩⟩
    · simp [h] at heq
    · simp [h] at heq
    · obtain ⟨clock, rfl⟩ := settled_eq hsettle
      rw [h] at heq
      simp only [Prod.mk.injEq, Except.ok.injEq] at heq
      obtain ⟨rfl, rfl⟩ := heq
      have hline : (({ c with clock := clock }.playMove uci mv now).2.checkGameEnd now).line =
          ({ c with clock := clock }.playMove uci mv now).2.line :=
        line_checkGameEnd
      obtain ⟨hroot, hmoves, -, -⟩ := line_ext hline
      exact ⟨hmoves, rfl, hroot⟩

theorem playAll_moves {us : List (String × ℕ)} (h : c.playAll us = some c') :
    ∃ ms, c'.moves = c.moves ++ ms ∧ ucis ms = us.map (·.1) ∧
      c'.rootPosition = c.rootPosition ∧ (controllerMachine R).Run c c' := by
  induction us generalizing c with
  | nil =>
      cases h
      exact ⟨[], (List.append_nil _).symm, rfl, rfl, .refl⟩
  | cons u us ih =>
      obtain ⟨uci, now⟩ := u
      rw [playAll] at h
      rcases hmove : c.applyMove uci now with ⟨e | m, next⟩
      · simp [hmove] at h
      · rw [hmove] at h
        obtain ⟨hmoves, huci, hroot⟩ := applyMove_ok hmove
        obtain ⟨ms, hms, hus, hroot', hrun⟩ := ih h
        refine ⟨m :: ms, ?_, ?_, hroot'.trans hroot, ?_⟩
        · rw [hms, hmoves, List.append_assoc, List.singleton_append]
        · simpa [ucis, huci] using hus
        · have hstep : (controllerMachine R).step c (.move uci, now) next := by
            change next = (c.applyMove uci now).2
            rw [hmove]
          exact (Machine.Run.refl.step hstep).trans hrun

/-- The first of the moves are a prefix of what all of them lead to. -/
theorem playAll_take {us : List (String × ℕ)} (h : c.playAll us = some c') (n : ℕ) :
    ∃ d, c.playAll (us.take n) = some d ∧
      d.moves = c'.moves.take (c.moves.length + min n us.length) := by
  induction us generalizing c n with
  | nil =>
      cases h
      exact ⟨c', by rw [List.take_nil]; rfl, by simp⟩
  | cons u us ih =>
      cases n with
      | zero =>
          obtain ⟨ms, hms, -, -, -⟩ := playAll_moves h
          exact ⟨c, rfl, by simp [hms]⟩
      | succ n =>
          obtain ⟨uci, now⟩ := u
          rw [playAll] at h
          rcases hmove : c.applyMove uci now with ⟨e | m, next⟩
          · simp [hmove] at h
          · rw [hmove] at h
            obtain ⟨hmoves, -, -⟩ := applyMove_ok hmove
            obtain ⟨d, hd, hdmoves⟩ := ih h n
            refine ⟨d, ?_, ?_⟩
            · rw [List.take_succ_cons, playAll, hmove]
              exact hd
            · rw [hdmoves, hmoves]
              congr 1
              simp only [List.length_append, List.length_cons, List.length_nil]
              omega

/-- Two sound lines with one start and the same moves differ at most in the
clock times of their records. -/
theorem Line.Sound.eq_of_ucis {l l' : Line R} (h : l.Sound) (h' : l'.Sound)
    (hroot : l'.rootPosition = l.rootPosition) (hucis : ucis l'.moves = ucis l.moves) :
    l'.position = l.position ∧ l'.positionHistory = l.positionHistory ∧
      l'.moves.map GameMove.played = l.moves.map GameMove.played := by
  refine ⟨?_, ?_, ?_⟩
  · have hposition := h'.position
    rw [hroot, hucis, h.position] at hposition
    exact (Except.ok.inj hposition).symm
  · rw [h'.table, h.table, hroot, hucis]
  · have hrecords := h'.records
    rw [hroot, hucis, ← h.records] at hrecords
    have hzip : ∀ ms : List GameMove, ms.map GameMove.played =
        (ucis ms).zip (ms.map fun m ↦ (m.san, m.fenAfter)) := fun ms ↦ by
      rw [ucis, List.zip_map']
      rfl
    rw [hzip, hzip, hucis, hrecords]

end GameController

/-- In every state the position is the replay of the recorded moves and the
repetition table counts the positions of the line, none of them more than twice
while the game goes on; a take-back leads to the state that the first moves alone
lead to. -/
theorem controller_replays {R : GameRules} {c : GameController R}
    (h : (controllerMachine R).Reachable c) :
    R.replay c.rootPosition (GameController.ucis c.moves) = .ok c.position ∧
      (∀ key, c.positionHistory.lookup key =
        if (R.keysAlong c.rootPosition (GameController.ucis c.moves)).count key = 0 then none
        else some ((R.keysAlong c.rootPosition (GameController.ucis c.moves)).count key)) ∧
      (c.status = .playing → ∀ key, (c.positionHistory.lookup key).getD 0 ≤ 2) ∧
      (∀ k now, ∃ c', c.takeBackMoves k now = (.ok (), c') ∧
        c'.moves = c.moves.take (c.moves.length - k) ∧
          ∀ d, (controllerMachine R).Reachable d → d.rootPosition = c.rootPosition →
            GameController.ucis d.moves =
                (GameController.ucis c.moves).take (c.moves.length - k) →
              c'.position = d.position ∧ c'.positionHistory = d.positionHistory ∧
                c'.moves.map GameMove.played = d.moves.map GameMove.played) ∧
      ∀ us played k now, c.playAll us = some played → k ≤ us.length →
        ∃ c' d, played.takeBackMoves k now = (.ok (), c') ∧
          c.playAll (us.take (us.length - k)) = some d ∧
            c'.position = d.position ∧ c'.moves = d.moves ∧
              c'.positionHistory = d.positionHistory := by
  have hc := GameController.replays_invariant.reachable h
  refine ⟨hc.sound.position, fun key ↦ ?_, fun hplaying key ↦ ?_, fun k now ↦ ?_, ?_⟩
  · rw [← Tally.lookup_of]
    exact congrArg (·.lookup key) hc.sound.table
  · have htable : c.positionHistory = _ := hc.sound.table
    rw [htable, Tally.getD_lookup_of]
    exact hc.bounded hplaying key
  · obtain ⟨c', heq, hc', hroot, hmoves⟩ := hc.takeBackMoves k now
    refine ⟨c', heq, hmoves, fun d hd hdroot hducis ↦ ?_⟩
    have hdsound := (GameController.replays_invariant.reachable hd).sound
    refine hdsound.eq_of_ucis hc'.sound (hroot.trans hdroot.symm) ?_
    change GameController.ucis c'.moves = GameController.ucis d.moves
    rw [hmoves, hducis]
    exact List.map_take
  · intro us played k now hplayed hk
    obtain ⟨ms, hms, hus, hroot, hrun⟩ := GameController.playAll_moves hplayed
    obtain ⟨d, hd, hdmoves⟩ := GameController.playAll_take hplayed (us.length - k)
    obtain ⟨-, -, -, hdroot, hdrun⟩ := GameController.playAll_moves hd
    have hreplays := GameController.replays_invariant.run hc hrun
    have hdreplays := GameController.replays_invariant.run hc hdrun
    obtain ⟨c', heq, hc', hroot', hmoves⟩ := hreplays.takeBackMoves k now
    have hlength : ms.length = us.length := by
      have := congrArg List.length hus
      simpa [GameController.ucis] using this
    have hsame : c'.moves = d.moves := by
      rw [hmoves, hdmoves, hms, List.length_append]
      congr 1
      omega
    obtain ⟨hposition, hhistory, -⟩ := hdreplays.sound.eq_of_ucis hc'.sound
      ((hroot'.trans hroot).trans hdroot.symm) (congrArg GameController.ucis hsame)
    exact ⟨c', d, heq, hd, hposition, hsame, hhistory⟩

theorem controller_replays_pawnH4 :
    PawnEnding.rules.replay PawnEnding.Position.start ["h2h4"] = .ok PawnEnding.Position.pawnH4 ∧
      ∃ c', (PawnEnding.controller.act 0 (.move "h2h4")).takeBackMoves 1 0 = (.ok (), c') ∧
        c'.moves = [] := by
  have hreach : (controllerMachine PawnEnding.rules).Reachable
      (PawnEnding.controller.act 0 (.move "h2h4")) :=
    PawnEnding.reachable_controller.run
      (Machine.Run.refl.step (show (controllerMachine PawnEnding.rules).step
        PawnEnding.controller (.move "h2h4", 0) _ from rfl))
  obtain ⟨hposition, -, -, htakeBack, -⟩ := controller_replays hreach
  obtain ⟨c', heq, hmoves, -⟩ := htakeBack 1 0
  exact ⟨hposition, c', heq, hmoves⟩

end EnCroissant
