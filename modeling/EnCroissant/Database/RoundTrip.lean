import Mathlib
import EnCroissant.Database.ImporterRun

/-!
# Import followed by decoding

The blob that the importer builds from the events of a legal game decodes to
the tree that the events describe.
-/

namespace EnCroissant

open Bracketed

section

variable (S : Shakmaty)

/-- The nodes show the events of a game: each move by a notation that resolves
to it where it is played, each comment and NAG by its text, and each variation
replayed from the position before the move it replaces. -/
def Describes : Forest (EventLeaf S) → S.Chess → Option S.Chess → List DecodedGameNode → Prop
  | .nil, _, _, nodes => nodes = []
  | .leaf (.san s) next, chess, _, nodes =>
      ∃ m ∈ S.legalMoves chess, S.toMove s chess = some m ∧
        ∃ s' nodes', S.toMove s' chess = some m ∧
          Describes next (S.playUnchecked chess m) (some chess) nodes' ∧
            nodes = .move (S.sanToString s') :: nodes'
  | .leaf (.comment raw) next, chess, prev, nodes =>
      ∃ nodes', Describes next chess prev nodes' ∧
        nodes = .comment (fromUtf8Lossy raw) :: nodes'
  | .leaf (.nag code) next, chess, prev, nodes =>
      ∃ nodes', Describes next chess prev nodes' ∧ nodes = .nag (nagToString code) :: nodes'
  | .branch inner next, chess, prev, nodes =>
      ∃ variation nodes', Describes inner (prev.getD chess) none variation ∧
        Describes next chess prev nodes' ∧ nodes = .variation variation :: nodes'

variable {S}

theorem fromUtf8Lossy_encode (cs : List Char) :
    fromUtf8Lossy (Utf8.encode cs) = String.ofList cs := by
  rw [fromUtf8Lossy, Utf8.lossy_encode]

theorem fromUtf8Lossy_nagBytes (code : UInt8) :
    fromUtf8Lossy (nagBytes code) = nagToString code := by
  rw [nagBytes, fromUtf8Lossy_encode, String.ofList_toList]

/-- Rendering what the importer wrote for a legal game describes the game. -/
theorem exists_render_of_encodes (hsan : S.SanResolves) {f : Forest (EventLeaf S)}
    {g : Forest Chunk} {frame : DecodeFrame S}
    (hlegal : LegalGame S f frame.chess frame.preMovePositions.getLast?)
    (hg : Encodes S f frame.chess frame.preMovePositions.getLast? g) :
    ∃ frame' nodes, render (merge g) frame = some frame' ∧
      frame'.nodes = frame.nodes ++ nodes ∧
        Describes S f frame.chess frame.preMovePositions.getLast? nodes := by
  induction f generalizing g frame with
  | nil =>
      obtain rfl := hg
      exact ⟨frame, [], rfl, (List.append_nil _).symm, rfl⟩
  | leaf a next ih =>
      cases a with
      | san s =>
          obtain ⟨m, hm, hmove, hlegal⟩ := hlegal
          obtain ⟨m', byte, g', hmove', hencode, hg', rfl⟩ := hg
          obtain rfl : m = m' := Option.some.inj (hmove.symm.trans hmove')
          have hprev : (frame.pushMove m).preMovePositions.getLast? = some frame.chess := by
            simp [DecodeFrame.pushMove]
          obtain ⟨frame', nodes, hrender, hnodes, hdescribes⟩ :=
            @ih g' (frame.pushMove m) (hprev ▸ hlegal) (hprev ▸ hg')
          rw [hprev] at hdescribes
          refine ⟨frame', _, ?_, ?_, m, hm, hmove, S.sanFromMove frame.chess m, nodes,
            hsan _ m hm, hdescribes, rfl⟩
          · simp only [merge, render, (encodeMove_eq_ok S hencode).2, hrender]
          · rw [hnodes, DecodeFrame.pushMove, List.append_assoc]
            rfl
      | comment raw =>
          obtain ⟨g', hg', rfl⟩ := hg
          obtain ⟨frame', nodes, hrender, hnodes, hdescribes⟩ :=
            @ih g' (frame.push (.comment (fromUtf8Lossy raw))) hlegal hg'
          refine ⟨frame', _, ?_, ?_, nodes, hdescribes, rfl⟩
          · rw [merge_commentForest, render, fromUtf8Lossy_encode]
            exact hrender
          · rw [hnodes, DecodeFrame.push_nodes, List.append_assoc]
            rfl
      | nag code =>
          obtain ⟨g', hg', rfl⟩ := hg
          obtain ⟨frame', nodes, hrender, hnodes, hdescribes⟩ :=
            @ih g' (frame.push (.nag (nagToString code))) hlegal hg'
          refine ⟨frame', _, ?_, ?_, nodes, hdescribes, rfl⟩
          · rw [merge, render, fromUtf8Lossy_nagBytes]
            exact hrender
          · rw [hnodes, DecodeFrame.push_nodes, List.append_assoc]
            rfl
  | branch inner next ihInner ihNext =>
      obtain ⟨gInner, gNext, hInner, hNext, rfl⟩ := hg
      obtain ⟨inner', variation, hrenderInner, hnodesInner, hdescribesInner⟩ :=
        @ihInner gInner frame.openVariation hlegal.1 hInner
      obtain rfl : inner'.nodes = variation := hnodesInner
      obtain ⟨frame', nodes, hrender, hnodes, hdescribes⟩ :=
        @ihNext gNext (frame.push (.variation inner'.nodes)) hlegal.2 hNext
      refine ⟨frame', _, ?_, ?_, inner'.nodes, nodes, hdescribesInner, hdescribes, rfl⟩
      · simp only [merge, render, hrenderInner, hrender]
      · rw [hnodes, DecodeFrame.push_nodes, List.append_assoc]
        rfl

/-- For every balanced list of events of a legal game, the importer keeps the
game and its blob decodes, from the same start position, to the tree that the
events describe. -/
theorem decodeGame_import (hbyte : S.MovesFitByte) (hsan : S.SanResolves)
    {events : List (Event S)} (hbalanced : Balanced events) :
    (∃ f : Forest (EventLeaf S), f.tokens = events) ∧
      ∀ (f : Forest (EventLeaf S)) (imp : Importer S) (setup : S.Setup) (start : S.Chess),
        f.tokens = events → databaseSetupToChess S setup = .ok start →
          imp.game.position = start → imp.game.moves = [] → imp.skip = false →
            LegalGame S f start none →
              ∃ game nodes, (imp.endHeaders.1.visitAll events).endGame = some game ∧
                decodeGame S game.moves setup = .ok ⟨nodes⟩ ∧
                  Describes S f start none nodes := by
  refine ⟨balanced_iff_exists_forest.mp hbalanced, ?_⟩
  rintro f imp setup start rfl hstart rfl hmoves hskip hlegal
  obtain ⟨g, hg⟩ := exists_encodes S hbyte hlegal
  have hsync : imp.endHeaders.1.Synced := ⟨_, rfl, rfl⟩
  have hframes : imp.endHeaders.1.frames = [ImportFrame.new imp.game.position] := rfl
  have hwrote := Importer.wrote_visitAll hframes hsync hg
  obtain ⟨root, nodes, hrender, hnodes, hdescribes⟩ :=
    @exists_render_of_encodes S hsan f g (DecodeFrame.new imp.game.position) hlegal hg
  obtain rfl : root.nodes = nodes := hnodes
  have hblob : (imp.endHeaders.1.visitAll f.tokens).game.moves = storedBytes g := by
    rw [hwrote.moves, Importer.endHeaders, hmoves, List.nil_append]
  refine ⟨(imp.endHeaders.1.visitAll f.tokens).game, root.nodes, ?_, ?_, hdescribes⟩
  · rw [Importer.endGame, hwrote.skip]
    exact if_neg (by simp [Importer.endHeaders, hskip])
  · rw [hblob, decodeGame_storedBytes g hstart, hrender]

end

namespace PawnEnding

/-- `1. h3` with an empty comment, and a variation that starts with a comment
before its first move and holds an empty variation. -/
def sampleGame : Forest (EventLeaf library) :=
  .leaf (.san "h3") (.leaf (.comment []) (.branch
    (.leaf (.comment [104]) (.leaf (.san "h4") (.leaf (.nag 1) (.branch .nil .nil)))) .nil))

theorem decodeGame_import_sampleGame :
    ∃ game nodes,
      (((Importer.new library).headerFen startFen).endHeaders.1.visitAll
          sampleGame.tokens).endGame = some game ∧
        decodeGame library game.moves .start = .ok ⟨nodes⟩ ∧
          Describes library sampleGame .start none nodes := by
  have h := (decodeGame_import library_movesFitByte library_sanResolves
    (balanced_tokens sampleGame)).2 sampleGame ((Importer.new library).headerFen startFen)
    .start .start rfl rfl
  refine h ?_ ?_ ?_ ?_
  · decide
  · decide
  · decide
  · refine ⟨h3, by decide, by decide, ?_, trivial⟩
    exact ⟨h4, by decide, by decide, trivial, trivial⟩

end PawnEnding

end EnCroissant
