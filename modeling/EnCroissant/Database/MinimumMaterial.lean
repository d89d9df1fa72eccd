import Mathlib
import EnCroissant.Database.ImporterRun

/-!
# The stored material

The importer samples the material in front of every promotion of the main line
and once more at its end.  In between no legal move adds material, so the stored
numbers are the least ones over the whole main line.
-/

namespace EnCroissant

/-! ## Material on a board -/

namespace Board

/-- What the piece on a square counts for a side. -/
def worth (color : Color) (square : Option Piece) : ℕ :=
  (square.filter (·.color = color)).elim 0 (·.role.value)

/-- The material of a side. -/
def sideMaterial (b : Board) (color : Color) : ℕ := ∑ s, worth color (b s)

@[simp] theorem worth_none (color : Color) : worth color none = 0 := rfl

theorem getMaterialCount_eq (b : Board) :
    getMaterialCount b = ⟨b.sideMaterial .white, b.sideMaterial .black⟩ := by
  rw [getMaterialCount, sideMaterial, sideMaterial, Fin.sum_univ_def, Fin.sum_univ_def]
  rfl

theorem sideMaterial_update (b : Board) (color : Color) (s : Square) (piece : Option Piece) :
    sideMaterial (Function.update b s piece) color + worth color (b s) =
      b.sideMaterial color + worth color piece := by
  rw [sideMaterial, sideMaterial, ← Finset.add_sum_erase _ _ (Finset.mem_univ s),
    ← Finset.add_sum_erase _ (fun t ↦ worth color (b t)) (Finset.mem_univ s),
    Function.update_self]
  have hrest : ∑ t ∈ Finset.univ.erase s, worth color (Function.update b s piece t) =
      ∑ t ∈ Finset.univ.erase s, worth color (b t) :=
    Finset.sum_congr rfl fun t ht ↦ by rw [Function.update_of_ne (Finset.ne_of_mem_erase ht)]
  rw [hrest]
  omega

theorem sideMaterial_update_le (b : Board) (color : Color) (s : Square) (piece : Option Piece) :
    sideMaterial (Function.update b s piece) color ≤ b.sideMaterial color + worth color piece := by
  have := sideMaterial_update b color s piece
  omega

theorem sideMaterial_clear (b : Board) (color : Color) (s : Square) :
    sideMaterial (Function.update b s none) color + worth color (b s) = b.sideMaterial color := by
  rw [sideMaterial_update, worth_none, Nat.add_zero]

/-- Only a promotion adds material. -/
theorem sideMaterial_playMove_le {b : Board} {turn : Color} {m : Move} (hfits : m.Fits b turn)
    (hpromotion : m.isPromotion = false)
    (hcastle : ∀ king rook, m = .castle king rook →
      b king = some ⟨turn, .king⟩ ∧ b rook = some ⟨turn, .rook⟩) (color : Color) :
    (b.playMove turn m).sideMaterial color ≤ b.sideMaterial color := by
  cases m with
  | normal role source capture target promotion =>
      have hnone : promotion = none := by
        cases promotion with
        | none => rfl
        | some role' => cases hpromotion
      subst hnone
      have hclear := sideMaterial_clear b color source
      rw [hfits.1] at hclear
      rw [← hclear]
      exact sideMaterial_update_le _ color target _
  | enPassant source target =>
      have hplace := sideMaterial_update_le
        (Function.update (Function.update b (Square.fromCoords target.file source.rank) none)
          source none) color target (some ⟨turn, .pawn⟩)
      refine hplace.trans ?_
      have hcapture := sideMaterial_clear b color (Square.fromCoords target.file source.rank)
      have hsource := sideMaterial_clear
        (Function.update b (Square.fromCoords target.file source.rank) none) color source
      by_cases heq : source = Square.fromCoords target.file source.rank
      · rw [← heq] at hcapture hsource ⊢
        rw [hfits.1] at hcapture
        rw [Function.update_self, worth_none] at hsource
        omega
      · rw [Function.update_of_ne heq, hfits.1] at hsource
        omega
  | castle king rook =>
      obtain ⟨hking, hrook⟩ := hcastle king rook rfl
      have hne : rook ≠ king := by
        rintro rfl
        rw [hking] at hrook
        cases hrook
      have hclearKing := sideMaterial_clear b color king
      have hclearRook := sideMaterial_clear (Function.update b king none) color rook
      rw [hking] at hclearKing
      rw [Function.update_of_ne hne, hrook] at hclearRook
      refine (sideMaterial_update_le _ color _ (some ⟨turn, .king⟩)).trans ?_
      have hplaceRook := sideMaterial_update_le
        (Function.update (Function.update b king none) rook none) color
        (Square.fromCoords (if king < rook then 5 else 3) king.rank) (some ⟨turn, .rook⟩)
      omega
  | put role target => exact hfits.elim

end Board

/-! ## The main line -/

section

variable {S : Shakmaty}

/-- Where the movetext of a game starts; `none` where the importer skips the game. -/
def startPosition (S : Shakmaty) (fenHeader : Option (List UInt8)) : Option S.Chess :=
  match fenHeader with
  | none => some S.default
  | some value =>
      if value = standardFen then some S.default
      else (S.fenFromAscii value).toOption.bind fun setup ↦
        (databaseSetupToChess S setup).toOption

/-- The moves outside all variations, as the reader reports them inside `depth` brackets. -/
def mainlineMoves (S : Shakmaty) : S.Chess → ℕ → List (Event S) → List Move
  | _, _, [] => []
  | chess, 0, .leaf (.san s) :: events =>
      match S.toMove s chess with
      | none => []
      | some m => m :: mainlineMoves S (S.playUnchecked chess m) 0 events
  | chess, depth, .enter :: events => mainlineMoves S chess (depth + 1) events
  | chess, depth, .leave :: events => mainlineMoves S chess (depth - 1) events
  | chess, depth, _ :: events => mainlineMoves S chess depth events

/-- The least material of a side in these positions, but at most the standard one. -/
def leastMaterial (color : Color) (positions : List S.Chess) : ℕ :=
  positions.foldl (fun least p ↦ min least ((S.board p).sideMaterial color))
    standardMaterialBaseline

/-- Castling moves the king and a rook of the side to move. -/
def Shakmaty.CastlesOwn (S : Shakmaty) : Prop :=
  ∀ p king rook, .castle king rook ∈ S.legalMoves p →
    S.board p king = some ⟨S.turn p, .king⟩ ∧ S.board p rook = some ⟨S.turn p, .rook⟩

/-! ## The samples -/

theorem leastMaterial_append (color : Color) (positions : List S.Chess) (p : S.Chess) :
    leastMaterial color (positions ++ [p]) =
      min (leastMaterial color positions) ((S.board p).sideMaterial color) := by
  rw [leastMaterial, List.foldl_append]
  rfl

theorem playLine_append (root : S.Chess) (ms : List Move) (m : Move) :
    S.playLine root (ms ++ [m]) = S.playUnchecked (S.playLine root ms) m := by
  rw [Shakmaty.playLine, List.foldl_append]
  rfl

theorem positions_append (root : S.Chess) (ms : List Move) (m : Move) :
    S.positions root (ms ++ [m]) =
      S.positions root ms ++ [S.playUnchecked (S.playLine root ms) m] := by
  induction ms generalizing root with
  | nil => rfl
  | cons m' ms ih =>
      rw [List.cons_append, Shakmaty.positions, Shakmaty.positions, ih, List.cons_append]
      rfl

def MaterialColor.of (least : MaterialColor) : Color → ℕ
  | .white => least.white
  | .black => least.black

theorem MaterialColor.of_lower (least : MaterialColor) (b : Board) (color : Color) :
    (least.lower (getMaterialCount b)).of color = min (least.of color) (b.sideMaterial color) := by
  rw [Board.getMaterialCount_eq, lower]
  cases color <;> simp only [of] <;> split_ifs <;> omega

/-- The importer stands at the end of the main line `ms` inside `depth` variations, and
sampling the material there gives the least one so far. -/
structure Sampled (imp : Importer S) (root : S.Chess) (ms : List Move) (depth : ℕ) : Prop where
  depth : imp.frames.length = depth + 1
  frame : ∃ frame, imp.frames.getLast? = some frame ∧ frame.position = S.playLine root ms
  position : imp.game.position = S.playLine root ms
  least : ∀ color, min (imp.game.materialCount.of color)
    ((S.board (S.playLine root ms)).sideMaterial color) = leastMaterial color (S.positions root ms)

namespace Sampled

variable {imp imp' : Importer S} {root : S.Chess} {ms : List Move} {depth : ℕ}

/-- Outside the main line only the frames change. -/
theorem of_frames (h : Sampled imp root ms depth) {depth' : ℕ}
    (hdepth : imp'.frames.length = depth' + 1)
    (hlast : imp'.frames.getLast? = imp.frames.getLast?)
    (hposition : imp'.game.position = imp.game.position)
    (hmaterial : imp'.game.materialCount = imp.game.materialCount) :
    Sampled imp' root ms depth' where
  depth := hdepth
  frame := by rw [hlast]; exact h.frame
  position := hposition.trans h.position
  least := by rw [hmaterial]; exact h.least

theorem initial (imp : Importer S) (hmaterial : imp.game.materialCount = {}) :
    Sampled imp.endHeaders.1 imp.game.position [] 0 where
  depth := rfl
  frame := ⟨_, rfl, rfl⟩
  position := rfl
  least color := by
    have hbaseline : imp.endHeaders.1.game.materialCount.of color = standardMaterialBaseline := by
      change imp.game.materialCount.of color = _
      rw [hmaterial]
      cases color <;> rfl
    rw [hbaseline]
    rfl

/-- A move of the main line samples the position it promotes in. -/
theorem move (laws : S.Laws) (castles : S.CastlesOwn) (h : Sampled imp root ms 0) {m : Move}
    (hm : m ∈ S.legalMoves (S.playLine root ms)) {frame : ImportFrame S}
    (hframe : frame.position = S.playLine root ms)
    (hframes : imp'.frames = [frame.play m])
    (hposition : imp'.game.position = (frame.play m).position)
    (hmaterial : imp'.game.materialCount =
      if m.isPromotion then
        imp.game.materialCount.lower (getMaterialCount (S.board (S.playLine root ms)))
      else imp.game.materialCount) :
    Sampled imp' root (ms ++ [m]) 0 := by
  have hline := playLine_append root ms m
  have hplayed : (frame.play m).position = S.playLine root (ms ++ [m]) := by
    rw [hline, ← hframe]
    rfl
  refine ⟨by rw [hframes]; rfl, ⟨frame.play m, by rw [hframes]; rfl, hplayed⟩,
    hposition.trans hplayed, fun color ↦ ?_⟩
  have hleast := h.least color
  rw [hmaterial, positions_append, leastMaterial_append, ← hleast, hline]
  by_cases hpromotion : m.isPromotion = true
  · rw [if_pos hpromotion, MaterialColor.of_lower]
  · have hle : (S.board (S.playUnchecked (S.playLine root ms) m)).sideMaterial color ≤
        (S.board (S.playLine root ms)).sideMaterial color := by
      rw [laws.board_play _ m hm]
      refine Board.sideMaterial_playMove_le (laws.legal_fits _ m hm)
        (Bool.not_eq_true _ ▸ hpromotion) (fun king rook heq ↦ ?_) color
      exact castles _ king rook (heq ▸ hm)
    rw [if_neg hpromotion, min_assoc, min_eq_right hle]

end Sampled

/-- What a move does to an importer that keeps the game. -/
theorem san_of_kept {imp : Importer S} {frame : ImportFrame S} {parents : List (ImportFrame S)}
    {s : S.San} (hframes : imp.frames = frame :: parents) (hkept : (imp.san s).skip = false) :
    ∃ m, S.toMove s frame.position = some m ∧ m ∈ S.legalMoves frame.position ∧
      (imp.san s).frames = frame.play m :: parents ∧
      (imp.san s).game.position =
        (if parents.isEmpty then (frame.play m).position else imp.game.position) ∧
      (imp.san s).game.materialCount =
        if parents.isEmpty ∧ m.isPromotion then
          imp.game.materialCount.lower (getMaterialCount (S.board frame.position))
        else imp.game.materialCount := by
  obtain ⟨m, byte, hmove, hencode⟩ := Importer.encoded_of_kept hframes hkept
  refine ⟨m, hmove, List.mem_of_getElem? (encodeMove_eq_ok S hencode).2, ?_⟩
  simp only [Importer.san, Importer.ensureFrame_of_frames hframes, hframes]
  cases parents <;> simp [hmove, hencode, Importer.pushBytes]

theorem mainlineMoves_inside (chess : S.Chess) (depth : ℕ) (a : EventLeaf S)
    (events : List (Event S)) :
    mainlineMoves S chess (depth + 1) (.leaf a :: events) =
      mainlineMoves S chess (depth + 1) events := by
  cases a <;> rw [mainlineMoves] <;> simp

/-- An event extends the main line by its moves. -/
theorem Sampled.visit (laws : S.Laws) (castles : S.CastlesOwn) {imp : Importer S}
    {root : S.Chess} {ms : List Move} {depth : ℕ} (h : Sampled imp root ms depth) (e : Event S)
    (hkept : (imp.visit e).skip = false) :
    ∃ ms' depth', Sampled (imp.visit e) root (ms ++ ms') depth' ∧ ∀ events,
      mainlineMoves S (S.playLine root ms) depth (e :: events) =
        ms' ++ mainlineMoves S (S.playLine root (ms ++ ms')) depth' events := by
  obtain ⟨frame, parents, hframes⟩ := List.exists_cons_of_length_eq_add_one h.depth
  obtain ⟨last, hlast, hposition⟩ := h.frame
  have hdepth := h.depth
  rw [hframes, List.length_cons, Nat.add_right_cancel_iff] at hdepth
  cases e with
  | leaf a =>
      cases a with
      | comment raw =>
          refine ⟨[], depth, ?_, fun events ↦ ?_⟩
          · rw [List.append_nil]
            exact h.of_frames h.depth rfl rfl rfl
          · cases depth <;> simp [mainlineMoves]
      | nag code =>
          refine ⟨[], depth, ?_, fun events ↦ ?_⟩
          · rw [List.append_nil]
            exact h.of_frames h.depth rfl rfl rfl
          · cases depth <;> simp [mainlineMoves]
      | san s =>
          obtain ⟨m, hmove, hlegal, hframes', hposition', hmaterial⟩ := san_of_kept hframes hkept
          cases depth with
          | zero =>
              obtain rfl := List.length_eq_zero_iff.mp hdepth
              rw [hframes, List.getLast?_singleton, Option.some.injEq] at hlast
              subst hlast
              rw [hposition] at hmove hlegal hmaterial
              refine ⟨[m], 0, ?_, fun events ↦ ?_⟩
              · refine h.move laws castles hlegal hposition hframes' hposition' ?_
                simpa [Importer.visit] using hmaterial
              · rw [mainlineMoves, hmove, playLine_append]
                rfl
          | succ depth =>
              obtain ⟨parent, parents', rfl⟩ := List.exists_cons_of_length_eq_add_one hdepth
              refine ⟨[], depth + 1, ?_, fun events ↦ ?_⟩
              · rw [List.append_nil]
                refine h.of_frames ?_ ?_ hposition' hmaterial
                · rw [Importer.visit, hframes']
                  simpa using hdepth
                · rw [Importer.visit, hframes', hframes, List.getLast?_cons_cons,
                    List.getLast?_cons_cons]
              · rw [mainlineMoves_inside, List.append_nil, List.nil_append]
  | enter =>
      have hframes' : (imp.visit .enter).frames =
          ImportFrame.new frame.variationStart :: frame :: parents := by
        simp only [Importer.visit, Importer.beginVariation, Importer.ensureFrame_of_frames hframes,
          hframes]
      refine ⟨[], depth + 1, ?_, fun events ↦ ?_⟩
      · rw [List.append_nil]
        refine h.of_frames ?_ ?_ ?_ ?_
        · rw [hframes']
          simpa using hdepth
        · rw [hframes', hframes, List.getLast?_cons_cons]
        · simp [Importer.visit, Importer.beginVariation, Importer.ensureFrame_of_frames hframes,
            hframes, Importer.pushBytes]
        · simp [Importer.visit, Importer.beginVariation, Importer.ensureFrame_of_frames hframes,
            hframes, Importer.pushBytes]
      · rw [List.append_nil, List.nil_append]
        cases depth <;> rw [mainlineMoves]
  | leave =>
      cases depth with
      | zero =>
          obtain rfl := List.length_eq_zero_iff.mp hdepth
          simp [Importer.visit, Importer.endVariation, Importer.pushBytes, hframes] at hkept
      | succ depth =>
          obtain ⟨parent, parents', rfl⟩ := List.exists_cons_of_length_eq_add_one hdepth
          rw [hframes, List.getLast?_cons_cons] at hlast
          refine ⟨[], depth, ?_, fun events ↦ ?_⟩
          · rw [List.append_nil]
            refine h.of_frames ?_ ?_ ?_ ?_
            · simp only [Importer.visit, Importer.endVariation, Importer.pushBytes, hframes, hlast]
              simpa using hdepth
            · simp only [Importer.visit, Importer.endVariation, Importer.pushBytes, hframes, hlast,
                List.getLast?_cons_cons]
            · simp only [Importer.visit, Importer.endVariation, Importer.pushBytes, hframes, hlast,
                hposition, h.position]
            · simp only [Importer.visit, Importer.endVariation, Importer.pushBytes, hframes, hlast]
          · rw [mainlineMoves, List.append_nil, List.nil_append, Nat.add_sub_cancel]

theorem Sampled.visitAll (laws : S.Laws) (castles : S.CastlesOwn) {imp : Importer S}
    {root : S.Chess} {ms : List Move} {depth : ℕ} (h : Sampled imp root ms depth)
    {events : List (Event S)} (hkept : (imp.visitAll events).skip = false) :
    ∃ depth', Sampled (imp.visitAll events) root
      (ms ++ mainlineMoves S (S.playLine root ms) depth events) depth' := by
  induction events generalizing imp ms depth with
  | nil =>
      refine ⟨depth, ?_⟩
      rw [mainlineMoves, List.append_nil]
      exact h
  | cons e events ih =>
      have hrest : ((imp.visit e).visitAll events).skip = false := hkept
      obtain ⟨ms', depth', hstep, hmoves⟩ :=
        h.visit laws castles e (Importer.skip_eq_false_of_visitAll hrest)
      obtain ⟨depth'', hrun⟩ := ih hstep hrest
      refine ⟨depth'', ?_⟩
      rw [hmoves, ← List.append_assoc]
      exact hrun

/-! ## The stored numbers -/

theorem headerFen_of_kept {imp : Importer S} {value : List UInt8}
    (hkept : (imp.headerFen value).skip = false) :
    startPosition S (some value) = some (imp.headerFen value).game.position ∧
      (imp.headerFen value).game.materialCount = imp.game.materialCount := by
  rw [startPosition]
  by_cases hstandard : value = standardFen
  · simp [Importer.headerFen, hstandard]
  · simp only [Importer.headerFen, if_neg hstandard] at hkept ⊢
    cases hfen : S.fenFromAscii value with
    | error e => simp [hfen] at hkept
    | ok setup =>
        cases hsetup : databaseSetupToChess S setup with
        | error e => simp [hfen, hsetup] at hkept
        | ok position => simp [hsetup, Except.toOption]

/-- The stored material is the least one over the positions of the main line. -/
theorem insertToDb_material (laws : S.Laws) (castles : S.CastlesOwn) {imp : Importer S}
    {fenHeader : Option (List UInt8)} {events : List (Event S)} {game : TempGame S}
    (h : imp.readGame fenHeader events = some game) :
    ∃ root, startPosition S fenHeader = some root ∧
      game.insertToDb.whiteMaterial =
        leastMaterial .white (S.positions root (mainlineMoves S root 0 events)) ∧
      game.insertToDb.blackMaterial =
        leastMaterial .black (S.positions root (mainlineMoves S root 0 events)) := by
  obtain ⟨headers, hheaders, hheader, hvisit, rfl⟩ := Importer.readGame_kept h
  have hstart : startPosition S fenHeader = some headers.game.position ∧
      headers.game.materialCount = {} := by
    cases fenHeader with
    | none =>
        subst hheaders
        exact ⟨rfl, rfl⟩
    | some value =>
        subst hheaders
        exact headerFen_of_kept hheader
  obtain ⟨depth, hsampled⟩ :=
    (Sampled.initial headers hstart.2).visitAll laws castles hvisit
  rw [Shakmaty.playLine_nil, List.nil_append] at hsampled
  refine ⟨_, hstart.1, ?_, ?_⟩
  · rw [← hsampled.least .white, ← hsampled.position]
    simp [TempGame.insertToDb, MaterialColor.minimumMaterial, Board.getMaterialCount_eq,
      MaterialColor.of]
  · rw [← hsampled.least .black, ← hsampled.position]
    simp [TempGame.insertToDb, MaterialColor.minimumMaterial, Board.getMaterialCount_eq,
      MaterialColor.of]

end

namespace PawnEnding

theorem library_castlesOwn : library.CastlesOwn := by
  intro p king rook hm
  obtain ⟨-, h | h | h⟩ := eq_start_of_mem_legalMoves hm <;> cases h

/-- `1. h3`, with the variation `Ka2`. -/
def h3Events : List (Event library) :=
  [.leaf (.san "h3"), .enter, .leaf (.san "Ka2"), .leave]

theorem insertToDb_material_h3Events :
    ∃ game root, (Importer.new library).readGame (some startFen) h3Events = some game ∧
      startPosition library (some startFen) = some root ∧
      game.insertToDb.whiteMaterial =
        leastMaterial .white (library.positions root (mainlineMoves library root 0 h3Events)) ∧
      game.insertToDb.blackMaterial =
        leastMaterial .black (library.positions root (mainlineMoves library root 0 h3Events)) := by
  have hsome : ((Importer.new library).readGame (some startFen) h3Events).isSome := by decide
  obtain ⟨game, hgame⟩ := Option.isSome_iff_exists.mp hsome
  obtain ⟨root, hroot, hwhite, hblack⟩ :=
    insertToDb_material library_laws library_castlesOwn hgame
  exact ⟨game, root, hgame, hroot, hwhite, hblack⟩

end PawnEnding

end EnCroissant
