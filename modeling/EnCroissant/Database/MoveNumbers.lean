import Mathlib
import EnCroissant.Database.Movetext

/-!
# Move numbers

A decoded tree is a line of moves played from the root, with variations played
from the positions before the moves they replace.  Its movetext should number
every move by the position it is played from.
-/

namespace EnCroissant

/-! ## Lines and the positions they are played from -/

/-- A line played from `chess`, where `prev` is the position before the last move. -/
inductive PlayedLine (S : Shakmaty) : S.Chess → Option S.Chess → Type where
  | nil {chess prev} : PlayedLine S chess prev
  | move {chess prev} (m : Move) (legal : m ∈ S.legalMoves chess)
      (rest : PlayedLine S (S.playUnchecked chess m) (some chess)) : PlayedLine S chess prev
  | nag {chess prev} (text : String) (rest : PlayedLine S chess prev) : PlayedLine S chess prev
  | comment {chess prev} (text : String) (rest : PlayedLine S chess prev) :
      PlayedLine S chess prev
  | variation {chess prev} (inner : PlayedLine S (prev.getD chess) none)
      (rest : PlayedLine S chess prev) : PlayedLine S chess prev

namespace PlayedLine

variable {S : Shakmaty} {chess : S.Chess} {prev : Option S.Chess}

/-- The nodes of a line, as the decoder builds them. -/
def nodes {chess : S.Chess} {prev : Option S.Chess} :
    PlayedLine S chess prev → List DecodedGameNode
  | .nil => []
  | .move m _ rest => .move (S.sanToString (S.sanFromMove chess m)) :: rest.nodes
  | .nag text rest => .nag text :: rest.nodes
  | .comment text rest => .comment text :: rest.nodes
  | .variation inner rest => .variation inner.nodes :: rest.nodes

/-- A move is played somewhere in the line. -/
def HasMove {chess : S.Chess} {prev : Option S.Chess} : PlayedLine S chess prev → Prop
  | .nil => False
  | .move .. => True
  | .nag _ rest => rest.HasMove
  | .comment _ rest => rest.HasMove
  | .variation inner rest => inner.HasMove ∨ rest.HasMove

end PlayedLine

/-! ## The decoder builds lines -/

section

variable {S : Shakmaty}

/-- Whether `nodes` is the root's list when a frame, closed with the nodes `inner`, has these
parents. -/
def ClosesTo (nodes : List DecodedGameNode) :
    List (DecodeFrame S) → List DecodedGameNode → Prop
  | [], inner => nodes = inner
  | parent :: parents, inner =>
      ∃ prev, parent.preMovePositions.getLast? = prev ∧
        ∃ line : PlayedLine S parent.chess prev,
          ClosesTo nodes parents (parent.nodes ++ .variation inner :: line.nodes)

/-- The nodes that a frame still gets are a line from where it stands. -/
def Continues (nodes : List DecodedGameNode) (frame : DecodeFrame S)
    (parents : List (DecodeFrame S)) : Prop :=
  ∃ prev, frame.preMovePositions.getLast? = prev ∧
    ∃ line : PlayedLine S frame.chess prev, ClosesTo nodes parents (frame.nodes ++ line.nodes)

theorem Continues.of_push {nodes : List DecodedGameNode} {frame : DecodeFrame S}
    {parents : List (DecodeFrame S)} {node : DecodedGameNode}
    (hnode : ∀ prev (rest : PlayedLine S frame.chess prev),
      ∃ line : PlayedLine S frame.chess prev, line.nodes = node :: rest.nodes)
    (h : Continues nodes (frame.push node) parents) : Continues nodes frame parents := by
  obtain ⟨prev, hprev, rest, hcloses⟩ := h
  obtain ⟨line, hline⟩ := hnode prev rest
  refine ⟨prev, hprev, line, ?_⟩
  rw [hline]
  simpa using hcloses

theorem Continues.of_pushMove {nodes : List DecodedGameNode} {frame : DecodeFrame S}
    {parents : List (DecodeFrame S)} {m : Move} (hlegal : m ∈ S.legalMoves frame.chess)
    (h : Continues nodes (frame.pushMove m) parents) : Continues nodes frame parents := by
  obtain ⟨prev, hprev, rest, hcloses⟩ := h
  have hlast : prev = some frame.chess := by
    rw [← hprev, DecodeFrame.pushMove, List.getLast?_concat]
  subst hlast
  refine ⟨_, rfl, .move m hlegal rest, ?_⟩
  simpa [DecodeFrame.pushMove, PlayedLine.nodes] using hcloses

theorem Continues.of_close {nodes : List DecodedGameNode} {frame parent : DecodeFrame S}
    {parents : List (DecodeFrame S)}
    (h : Continues nodes (parent.push (.variation frame.nodes)) parents) :
    Continues nodes frame (parent :: parents) := by
  obtain ⟨prev, hprev, rest, hcloses⟩ := h
  refine ⟨_, rfl, .nil, prev, hprev, rest, ?_⟩
  simpa [PlayedLine.nodes] using hcloses

theorem Continues.of_open {nodes : List DecodedGameNode} {frame : DecodeFrame S}
    {parents : List (DecodeFrame S)} (h : Continues nodes frame.openVariation (frame :: parents)) :
    Continues nodes frame parents := by
  obtain ⟨prev, hprev, inner, prev', hprev', rest, hcloses⟩ := h
  have hnone : prev = none := by
    rw [← hprev, DecodeFrame.openVariation_preMovePositions, List.getLast?_nil]
  subst hnone hprev'
  exact ⟨_, rfl, .variation inner rest, hcloses⟩

/-- What the decoder returns is a line from the root. -/
theorem continues_of_decodeLoop {bytes : List UInt8} {frame root : DecodeFrame S}
    {parents : List (DecodeFrame S)} (h : decodeLoop S frame parents bytes = .ok (root, [])) :
    Continues root.nodes frame parents := by
  fun_induction decodeLoop S frame parents bytes with
  | case1 frame parents =>
      obtain ⟨rfl, rfl⟩ := Prod.mk.inj (Except.ok.inj h)
      exact ⟨_, rfl, .nil, by simp [ClosesTo, PlayedLine.nodes]⟩
  | case2 frame parents rest ih => exact (ih h).of_open
  | case3 => cases h
  | case4 frame rest parent parents _ ih => exact (ih h).of_close
  | case5 => cases h
  | case6 frame parents rest payload rest' _ _ _ ih =>
      exact (ih h).of_push fun prev line ↦ ⟨.comment (fromUtf8Lossy payload) line, rfl⟩
  | case7 => cases h
  | case8 frame parents rest payload rest' _ _ _ _ ih =>
      exact (ih h).of_push fun prev line ↦ ⟨.nag (fromUtf8Lossy payload) line, rfl⟩
  | case9 => cases h
  | case10 frame parents byte rest _ _ _ _ m hmove ih =>
      exact (ih h).of_pushMove (List.mem_of_getElem? hmove)

end

/-! ## The rules for numbers -/

/-- What the numbers need of the rules library, besides `Shakmaty`. -/
structure FenRules (S : Shakmaty) where
  fen : S.Setup → FenParts
  fullmoves : S.Chess → UInt32

namespace FenRules

variable {S : Shakmaty} (R : FenRules S)

/-- The position has the side to move and the move number of the setup. -/
def Keeps (setup : S.Setup) (chess : S.Chess) : Prop :=
  S.turn chess = (R.fen setup).turn ∧ R.fullmoves chess = (R.fen setup).fullmoves

/-- Documented facts about FENs and move numbers. -/
structure Laws : Prop where
  plain : ∀ setup, (R.fen setup).Plain
  fromSetup : ∀ setup mode chess, S.fromSetup setup mode = .ok chess → R.Keeps setup chess
  ignored : ∀ setup mode e chess, S.fromSetup setup mode = .error e →
    (S.ignoreTooMuchMaterial e = .ok chess ∨
      ∃ e', S.ignoreTooMuchMaterial e = .error e' ∧
        S.ignoreInvalidCastlingRights e' = .ok chess) → R.Keeps setup chess
  turn_play : ∀ chess, ∀ m ∈ S.legalMoves chess,
    S.turn (S.playUnchecked chess m) ≠ S.turn chess
  fullmoves_play : ∀ chess, ∀ m ∈ S.legalMoves chess,
    R.fullmoves (S.playUnchecked chess m) =
      if S.turn chess = .black then saturatingSucc (R.fullmoves chess) else R.fullmoves chess

/-- The state that a position calls for. -/
def stateOf (chess : S.Chess) : RenderState := ⟨R.fullmoves chess, S.turn chess = .white⟩

/-- The number of a move that is played from this position: `N.` for White, and `N...` for
Black where the move begins its line or follows a variation. -/
def moveNumber (chess : S.Chess) (opens : Bool) : List Char :=
  match S.turn chess with
  | .white => decimal (R.fullmoves chess) ++ ['.', ' ']
  | .black => if opens then decimal (R.fullmoves chess) ++ ['.', '.', '.', ' '] else []

theorem label_stateOf (chess : S.Chess) (opens : Bool) :
    (R.stateOf chess).label opens = R.moveNumber chess opens := by
  rw [RenderState.label, stateOf, moveNumber]
  cases S.turn chess <;> rfl

variable {R}

theorem Laws.stateOf_play (laws : R.Laws) {chess : S.Chess} {m : Move}
    (hm : m ∈ S.legalMoves chess) :
    (R.stateOf chess).advance = R.stateOf (S.playUnchecked chess m) := by
  have hturn := laws.turn_play chess m hm
  have hnumber := laws.fullmoves_play chess m hm
  rw [stateOf, stateOf, RenderState.advance]
  cases hmover : S.turn chess <;> cases hnext : S.turn (S.playUnchecked chess m) <;>
    simp_all

theorem Laws.keeps (laws : R.Laws) {setup : S.Setup} {chess : S.Chess}
    (h : databaseSetupToChess S setup = .ok chess) : R.Keeps setup chess := by
  rw [databaseSetupToChess] at h
  cases hsetup : S.fromSetup setup (S.detectCastlingMode setup) with
  | ok chess' =>
      rw [hsetup] at h
      obtain rfl := Except.ok.inj h
      exact laws.fromSetup _ _ _ hsetup
  | error e =>
      simp only [hsetup] at h
      refine laws.ignored _ _ _ _ hsetup ?_
      cases hmaterial : S.ignoreTooMuchMaterial e with
      | ok chess' =>
          simp only [hmaterial] at h
          exact Or.inl (congrArg Except.ok (Except.ok.inj h))
      | error e' =>
          simp only [hmaterial] at h
          refine Or.inr ⟨e', rfl, ?_⟩
          cases hcastling : S.ignoreInvalidCastlingRights e' with
          | ok chess' =>
              simp only [hcastling] at h
              exact congrArg Except.ok (Except.ok.inj h)
          | error e'' =>
              simp only [hcastling] at h
              cases h

end FenRules

namespace PlayedLine

variable {S : Shakmaty}

/-- The movetext of a line behind `out`, with every move numbered by its position.
`afterMove` tells whether a move was written last, `opens` whether a black move would begin
the line or follow a variation. -/
def movetext (R : FenRules S) {chess : S.Chess} {prev : Option S.Chess}
    (out : List Char) (afterMove opens : Bool) : PlayedLine S chess prev → List Char
  | .nil => out
  | .move m _ rest =>
      rest.movetext R (separated out ++ R.moveNumber chess opens ++
        (S.sanToString (S.sanFromMove chess m)).toList) true false
  | .nag text rest => rest.movetext R (pushNag out afterMove text) false opens
  | .comment text rest =>
      rest.movetext R (pushBracketed out '{' text.toList '}') false opens
  | .variation inner rest =>
      rest.movetext R (pushBracketed out '(' (inner.movetext R [] false true) ')') false true

/-- A loop that stands in the state of its position numbers every move by its position. -/
theorem renderLoop_nodes {R : FenRules S} (laws : R.Laws) {chess : S.Chess}
    {prev : Option S.Chess} (line : PlayedLine S chess prev) (loop : RenderLoop)
    (hstate : loop.state = R.stateOf chess)
    (hlast : loop.lastPreMoveState = prev.map R.stateOf) :
    (renderLoop loop line.nodes).out = line.movetext R loop.out loop.prevWasMove loop.opens := by
  induction line generalizing loop with
  | nil => rw [nodes, renderLoop, movetext]
  | move m legal rest ih =>
      rw [nodes, renderLoop, renderNode, movetext, ih]
      · rw [← R.label_stateOf, ← hstate]
        rfl
      · rw [RenderLoop.move, hstate, laws.stateOf_play legal]
      · rw [RenderLoop.move, hstate, Option.map_some]
  | nag text rest ih =>
      rw [nodes, renderLoop, renderNode, movetext]
      exact ih (loop.nag text) hstate hlast
  | comment text rest ih =>
      rw [nodes, renderLoop, renderNode, movetext]
      exact ih (loop.comment text) hstate hlast
  | @variation chess prev inner rest ihInner ihRest =>
      have hbase : loop.variationState = R.stateOf (prev.getD chess) := by
        rw [RenderLoop.variationState, hlast, hstate]
        cases prev <;> rfl
      have hinner := ihInner (RenderLoop.new (R.stateOf (prev.getD chess))) rfl rfl
      rw [nodes, renderLoop, renderNode, movetext, hbase, hinner,
        ihRest (loop.variation _) hstate hlast]
      simp [RenderLoop.variation, RenderLoop.opens, RenderLoop.new]

/-! ## The first number of a line -/

theorem prefix_separated (out : List Char) : out <+: separated out := by
  rw [separated]
  split_ifs with hempty
  · rw [List.isEmpty_iff.mp hempty]
  · exact List.prefix_append _ _

theorem prefix_pushNag (out : List Char) (afterMove : Bool) (nag : String) :
    out <+: pushNag out afterMove nag := by
  rw [pushNag]
  split_ifs
  · exact List.prefix_append _ _
  · exact (prefix_separated out).trans (List.prefix_append _ _)

theorem prefix_pushBracketed (out : List Char) (opening : Char) (text : List Char)
    (closing : Char) : out <+: pushBracketed out opening text closing := by
  rw [pushBracketed, List.append_assoc]
  exact (prefix_separated out).trans (List.prefix_append _ _)

/-- The loop only appends. -/
theorem prefix_renderLoop {chess : S.Chess} {prev : Option S.Chess}
    (line : PlayedLine S chess prev) (loop : RenderLoop) :
    loop.out <+: (renderLoop loop line.nodes).out := by
  induction line generalizing loop with
  | nil =>
      rw [nodes, renderLoop]
  | move m legal rest ih =>
      rw [nodes, renderLoop, renderNode]
      refine List.IsPrefix.trans ?_ (ih _)
      rw [RenderLoop.move, List.append_assoc]
      exact (prefix_separated _).trans (List.prefix_append _ _)
  | nag text rest ih =>
      rw [nodes, renderLoop, renderNode]
      exact (prefix_pushNag _ _ _).trans (ih (loop.nag text))
  | comment text rest ih =>
      rw [nodes, renderLoop, renderNode]
      exact (prefix_pushBracketed _ _ _ _).trans (ih (loop.comment text))
  | variation inner rest _ ih =>
      rw [nodes, renderLoop, renderNode]
      exact (prefix_pushBracketed _ _ _ _).trans (ih (loop.variation _))

/-- A loop that has met no move yet. -/
def beforeMoves (white : Bool) (out : List Char) (prevWasMove force : Bool) (n : UInt32) :
    RenderLoop :=
  ⟨out, ⟨n, white⟩, prevWasMove, none, false, force⟩

/-- Without moves the number is not written. -/
theorem renderLoop_of_not_hasMove {chess : S.Chess} {prev : Option S.Chess}
    (line : PlayedLine S chess prev) (hmove : ¬ line.HasMove) (white : Bool) (out : List Char)
    (prevWasMove force : Bool) :
    ∃ out' prevWasMove' force', ∀ n,
      renderLoop (beforeMoves white out prevWasMove force n) line.nodes =
        beforeMoves white out' prevWasMove' force' n := by
  induction line generalizing out prevWasMove force with
  | nil => exact ⟨out, prevWasMove, force, fun n ↦ by rw [nodes, renderLoop]⟩
  | move m legal rest ih => exact absurd trivial hmove
  | nag text rest ih =>
      obtain ⟨out', prevWasMove', force', h⟩ := ih hmove (pushNag out prevWasMove text) false force
      refine ⟨out', prevWasMove', force', fun n ↦ ?_⟩
      rw [nodes, renderLoop, renderNode]
      exact h n
  | comment text rest ih =>
      obtain ⟨out', prevWasMove', force', h⟩ :=
        ih hmove (pushBracketed out '{' text.toList '}') false force
      refine ⟨out', prevWasMove', force', fun n ↦ ?_⟩
      rw [nodes, renderLoop, renderNode]
      exact h n
  | variation inner rest ihInner ihRest =>
      obtain ⟨hinner, hrest⟩ := not_or.mp hmove
      obtain ⟨text, _, _, hinner'⟩ := ihInner hinner [] false false
      obtain ⟨out', prevWasMove', force', h⟩ :=
        ihRest hrest (pushBracketed out '(' text ')') false true
      refine ⟨out', prevWasMove', force', fun n ↦ ?_⟩
      have htext : (renderLoop (RenderLoop.new ⟨n, white⟩) inner.nodes).out = text :=
        congrArg RenderLoop.out (hinner' n)
      rw [nodes, renderLoop, renderNode]
      refine Eq.trans ?_ (h n)
      rw [← htext]
      rfl

/-- The first move writes the number, behind a text that does not depend on it. -/
theorem renderLoop_of_hasMove {chess : S.Chess} {prev : Option S.Chess}
    (line : PlayedLine S chess prev) (hmove : line.HasMove) (white : Bool) (out : List Char)
    (prevWasMove force : Bool) :
    ∃ front, ∀ n, ∃ back, (renderLoop (beforeMoves white out prevWasMove force n) line.nodes).out =
      front ++ (decimal n ++ '.' :: back) := by
  induction line generalizing out prevWasMove force with
  | nil => exact absurd hmove id
  | @move chess prev m legal rest ih =>
      refine ⟨separated out, fun n ↦ ?_⟩
      rw [nodes, renderLoop, renderNode]
      generalize S.sanToString (S.sanFromMove chess m) = san
      obtain ⟨back, hback⟩ :=
        prefix_renderLoop rest ((beforeMoves white out prevWasMove force n).move san)
      have hnumber : ∃ tail, RenderState.label ⟨n, white⟩ true = decimal n ++ '.' :: tail := by
        cases white
        · exact ⟨['.', '.', ' '], rfl⟩
        · exact ⟨[' '], rfl⟩
      obtain ⟨tail, htail⟩ := hnumber
      have hout : ((beforeMoves white out prevWasMove force n).move san).out =
          separated out ++ RenderState.label ⟨n, white⟩ true ++ san.toList := rfl
      refine ⟨tail ++ san.toList ++ back, ?_⟩
      rw [← hback, hout, htail]
      simp
  | nag text rest ih =>
      obtain ⟨front, h⟩ := ih hmove (pushNag out prevWasMove text) false force
      refine ⟨front, fun n ↦ ?_⟩
      rw [nodes, renderLoop, renderNode]
      exact h n
  | comment text rest ih =>
      obtain ⟨front, h⟩ := ih hmove (pushBracketed out '{' text.toList '}') false force
      refine ⟨front, fun n ↦ ?_⟩
      rw [nodes, renderLoop, renderNode]
      exact h n
  | variation inner rest ihInner ihRest =>
      by_cases hinner : inner.HasMove
      · obtain ⟨front, h⟩ := ihInner hinner [] false false
        refine ⟨separated out ++ '(' :: front, fun n ↦ ?_⟩
        obtain ⟨back, hback⟩ := h n
        obtain ⟨more, hmore⟩ := prefix_renderLoop rest
          ((beforeMoves white out prevWasMove force n).variation (front ++ (decimal n ++ '.' :: back)))
        rw [nodes, renderLoop, renderNode]
        refine ⟨back ++ ')' :: more, ?_⟩
        have htext : (renderLoop (RenderLoop.new
            (beforeMoves white out prevWasMove force n).variationState) inner.nodes).out =
              front ++ (decimal n ++ '.' :: back) := hback
        rw [htext, ← hmore]
        simp [RenderLoop.variation, beforeMoves, pushBracketed]
      · obtain ⟨text, _, _, htext⟩ := renderLoop_of_not_hasMove inner hinner white [] false false
        obtain ⟨front, h⟩ := ihRest (hmove.resolve_left hinner) (pushBracketed out '(' text ')') false
          true
        refine ⟨front, fun n ↦ ?_⟩
        have hinnerText : (renderLoop (RenderLoop.new ⟨n, white⟩) inner.nodes).out = text :=
          congrArg RenderLoop.out (htext n)
        rw [nodes, renderLoop, renderNode]
        obtain ⟨back, hback⟩ := h n
        refine ⟨back, Eq.trans ?_ hback⟩
        rw [← hinnerText]
        rfl

/-- Two start numbers give one text exactly when they agree or no move is written. -/
theorem renderNodes_eq_iff {chess : S.Chess} {prev : Option S.Chess}
    (line : PlayedLine S chess prev) (white : Bool) (m n : UInt32) :
    renderNodes line.nodes ⟨m, white⟩ = renderNodes line.nodes ⟨n, white⟩ ↔
      m = n ∨ ¬ line.HasMove := by
  constructor
  · intro h
    by_cases hmove : line.HasMove
    · obtain ⟨front, hfront⟩ := renderLoop_of_hasMove line hmove white [] false false
      obtain ⟨back, hback⟩ := hfront m
      obtain ⟨back', hback'⟩ := hfront n
      have htexts : front ++ (decimal m ++ '.' :: back) = front ++ (decimal n ++ '.' :: back') :=
        hback.symm.trans (Eq.trans h hback')
      exact Or.inl (UInt32.toNat_inj.mp
        (Decimal.digits_append_inj (by decide) (List.append_cancel_left htexts)))
    · exact Or.inr hmove
  · rintro (rfl | hmove)
    · rfl
    · obtain ⟨out, _, _, h⟩ := renderLoop_of_not_hasMove line hmove white [] false false
      exact (congrArg RenderLoop.out (h m)).trans (congrArg RenderLoop.out (h n)).symm

end PlayedLine

/-! ## The movetext of a decoded game -/

theorem exists_line_of_decodeGame {S : Shakmaty} {setup : S.Setup} {bytes : List UInt8}
    {game : DecodedGame} (h : decodeGame S bytes setup = .ok game) :
    ∃ root, databaseSetupToChess S setup = .ok root ∧
      ∃ line : PlayedLine S root none, line.nodes = game.nodes := by
  rw [decodeGame] at h
  cases hroot : databaseSetupToChess S setup with
  | error e =>
      simp only [hroot] at h
      cases h
  | ok root =>
      simp only [hroot] at h
      cases hloop : decodeLoop S (DecodeFrame.new root) [] bytes with
      | error e =>
          simp only [hloop] at h
          cases h
      | ok result =>
          obtain ⟨last, _ | ⟨parent, parents⟩⟩ := result
          · simp only [hloop] at h
            obtain rfl := Except.ok.inj h
            obtain ⟨prev, hprev, line, hline⟩ := continues_of_decodeLoop hloop
            have hnone : prev = none := hprev.symm
            subst hnone
            exact ⟨root, rfl, line, hline.symm⟩
          · simp only [hloop] at h
            cases h

/-- The movetext numbers every move by its position exactly when the FEN has no field for
remaining checks, its half-move clock is its move number, or there is no move. -/
theorem decodeGameToMovetext_numbered_iff {S : Shakmaty} {R : FenRules S} (laws : R.Laws)
    {setup : S.Setup} {bytes : List UInt8} {game : DecodedGame}
    (hgame : decodeGame S bytes setup = .ok game) :
    ∃ root, databaseSetupToChess S setup = .ok root ∧
      (∃ line : PlayedLine S root none, line.nodes = game.nodes) ∧
      ∀ line : PlayedLine S root none, line.nodes = game.nodes →
        (decodeGameToMovetext S R.fen bytes setup = .ok (line.movetext R [] false true) ↔
          (R.fen setup).remainingChecks = none ∨
            (R.fen setup).halfmoves = (R.fen setup).fullmoves ∨ ¬ line.HasMove) := by
  obtain ⟨root, hroot, hline⟩ := exists_line_of_decodeGame hgame
  refine ⟨root, hroot, hline, fun line hnodes ↦ ?_⟩
  obtain ⟨hturn, hnumber⟩ := laws.keeps hroot
  have hspec : line.movetext R [] false true = renderNodes line.nodes
      ⟨(R.fen setup).fullmoves, (R.fen setup).turn = .white⟩ := by
    have hstate : R.stateOf root = ⟨(R.fen setup).fullmoves, (R.fen setup).turn = .white⟩ := by
      rw [FenRules.stateOf, hturn, hnumber]
    rw [← hstate]
    exact (line.renderLoop_nodes laws (RenderLoop.new (R.stateOf root)) rfl rfl).symm
  have hcode : decodeGameToMovetext S R.fen bytes setup = .ok (renderNodes line.nodes
      ⟨if (R.fen setup).remainingChecks.isSome then (R.fen setup).halfmoves
        else (R.fen setup).fullmoves, (R.fen setup).turn = .white⟩) := by
    rw [decodeGameToMovetext, hgame, parseInitialRenderState_eq (laws.plain setup), hnodes]
    rfl
  rw [hcode, hspec, Except.ok.injEq, line.renderNodes_eq_iff]
  cases (R.fen setup).remainingChecks <;> simp

namespace PawnEnding

/-- The pawn ending as a three-check game at move five: its FEN ends in `- - 3+3 0 5`. -/
def threeChecks : FenRules library where
  fen p :=
    { board :=
        ['8', '/', '8', '/', '8', '/', '8', '/', '8', '/', '8', '/',
          '2', 'k', '4', 'P', '/', 'K', '7']
      turn := turn p
      castling := ['-']
      epSquare := ['-']
      remainingChecks := some ['3', '+', '3']
      halfmoves := 0
      fullmoves := 5 }
  fullmoves _ := 5

theorem threeChecks_laws : threeChecks.Laws where
  plain p :=
    { board := by simp [threeChecks, isWhitespace]
      castling := by simp [threeChecks, isWhitespace]
      epSquare := by simp [threeChecks, isWhitespace]
      remainingChecks := by simp [threeChecks, isWhitespace] }
  fromSetup setup _ chess h := by
    obtain rfl := Except.ok.inj h
    exact ⟨rfl, rfl⟩
  ignored setup _ e chess h := by cases h
  turn_play chess m hm := by
    obtain ⟨rfl, rfl | rfl | rfl⟩ := eq_start_of_mem_legalMoves hm <;> decide
  fullmoves_play chess m hm := by
    obtain ⟨rfl, rfl | rfl | rfl⟩ := eq_start_of_mem_legalMoves hm <;> rfl

/-- `h3`, with the variation `Ka2`. -/
def h3Line : PlayedLine library Position.start none :=
  .move h3 (by decide) (.variation (.move a2 (by decide) .nil) .nil)

theorem decodeGame_h3Line : decodeGame library [0, 255, 2, 254] .start = .ok ⟨h3Line.nodes⟩ := by
  simp [decodeGame, databaseSetupToChess, decodeLoop, variationStartMarker, variationEndMarker,
    commentMarker, nagMarker, decodeMove, DecodeFrame.new, DecodeFrame.pushMove,
    DecodeFrame.openVariation, DecodeFrame.push, legalMoves, playUnchecked, h3Line,
    PlayedLine.nodes]

theorem decodeGameToMovetext_numbered_iff_h3Line :
    ∃ root, databaseSetupToChess library Position.start = .ok root ∧
      (∃ line : PlayedLine library root none, line.nodes = h3Line.nodes) ∧
      ∀ line : PlayedLine library root none, line.nodes = h3Line.nodes →
        (decodeGameToMovetext library threeChecks.fen [0, 255, 2, 254] .start =
            .ok (line.movetext threeChecks [] false true) ↔
          (threeChecks.fen .start).remainingChecks = none ∨
            (threeChecks.fen .start).halfmoves = (threeChecks.fen .start).fullmoves ∨
              ¬ line.HasMove) :=
  decodeGameToMovetext_numbered_iff threeChecks_laws decodeGame_h3Line

/-- The half-move clock is printed as the move number. -/
theorem decodeGameToMovetext_threeChecks :
    decodeGameToMovetext library threeChecks.fen [0, 255, 2, 254] .start =
        .ok "0. h3 (0. Ka2)".toList ∧
      h3Line.movetext threeChecks [] false true = "5. h3 (5. Ka2)".toList := by
  constructor
  · rw [decodeGameToMovetext, decodeGame_h3Line]
    decide
  · decide

end PawnEnding

end EnCroissant
