import EnCroissant.Accounts.AccountImporter
import EnCroissant.Database.MinimumMaterial
import EnCroissant.Database.PositionSearch

/-!
# What a fingerprint identifies

The names, the date and the time of a game stand behind their lengths in the bytes
of its fingerprint, in lower case.  The start position and the moves stand behind
one another, so they are known where no start position begins another one.
-/

namespace EnCroissant

open ByteOrder

/-- The bytes that the fingerprint is the digest of. -/
def fingerprintBytes (identity : AccountIdentity) (game : FingerprintFields) : List UInt8 :=
  [some identity.provider, some identity.account, game.whiteName, game.blackName, game.date,
      game.time].flatMap fingerprintField ++
    Utf8.encode (game.fen.getD startFen).toList ++ iterMainlineMoveBytes game.moves

theorem semanticFingerprint_eq (env : AccountEnv) (identity : AccountIdentity)
    (game : FingerprintFields) :
    env.semanticFingerprint identity game = env.sha256 (fingerprintBytes identity game) := rfl

/-! ## Fields -/

/-- A text whose length a length field counts. -/
def TextFits (field : Option String) : Prop :=
  ∀ text ∈ field, (Utf8.encode (toAsciiLowercase text).toList).length < 2 ^ 64 - 1

/-- A field is known, up to its case, whatever follows it. -/
theorem fingerprintField_append {field field' : Option String} (hfits : TextFits field)
    (hfits' : TextFits field') {rest rest' : List UInt8}
    (h : fingerprintField field ++ rest = fingerprintField field' ++ rest') :
    field.map toAsciiLowercase = field'.map toAsciiLowercase ∧ rest = rest' := by
  cases field with
  | none =>
      cases field' with
      | none => exact ⟨rfl, List.append_cancel_left h⟩
      | some text' =>
          have hlength := hfits' text' rfl
          rw [fingerprintField, fingerprintField, List.append_assoc] at h
          obtain ⟨hcode, -⟩ := List.append_inj h (by rw [length_leBytes, length_leBytes])
          have hsame := leBytes_inj (by decide) (by omega) hcode
          omega
  | some text =>
      have hlength := hfits text rfl
      cases field' with
      | none =>
          rw [fingerprintField, fingerprintField, List.append_assoc] at h
          obtain ⟨hcode, -⟩ := List.append_inj h (by rw [length_leBytes, length_leBytes])
          have hsame := leBytes_inj (by omega) (by decide) hcode
          omega
      | some text' =>
          have hlength' := hfits' text' rfl
          rw [fingerprintField, fingerprintField, List.append_assoc, List.append_assoc] at h
          obtain ⟨hcode, h⟩ := List.append_inj h (by rw [length_leBytes, length_leBytes])
          have hsame := leBytes_inj (by omega) (by omega) hcode
          obtain ⟨htext, hrest⟩ := List.append_inj h hsame
          have hlower := String.toList_inj.mp (Utf8.encode_injective htext)
          rw [Option.map_some, Option.map_some, hlower]
          exact ⟨rfl, hrest⟩

/-- The fields of a game fit their lengths. -/
structure FingerprintFields.Fits (game : FingerprintFields) : Prop where
  whiteName : TextFits game.whiteName
  blackName : TextFits game.blackName
  date : TextFits game.date
  time : TextFits game.time

/-- Two games of one account that agree in what has a length, and in the rest taken together. -/
structure FingerprintFields.Alike (game game' : FingerprintFields) : Prop where
  whiteName : game.whiteName.map toAsciiLowercase = game'.whiteName.map toAsciiLowercase
  blackName : game.blackName.map toAsciiLowercase = game'.blackName.map toAsciiLowercase
  date : game.date.map toAsciiLowercase = game'.date.map toAsciiLowercase
  time : game.time.map toAsciiLowercase = game'.time.map toAsciiLowercase
  rest : Utf8.encode (game.fen.getD startFen).toList ++ iterMainlineMoveBytes game.moves =
    Utf8.encode (game'.fen.getD startFen).toList ++ iterMainlineMoveBytes game'.moves

theorem alike_of_fingerprintBytes {identity : AccountIdentity} {game game' : FingerprintFields}
    (hfits : game.Fits) (hfits' : game'.Fits)
    (h : fingerprintBytes identity game = fingerprintBytes identity game') :
    game.Alike game' := by
  simp only [fingerprintBytes, List.flatMap_cons, List.flatMap_nil, List.nil_append,
    List.append_assoc] at h
  replace h := List.append_cancel_left (List.append_cancel_left h)
  obtain ⟨hwhite, h⟩ := fingerprintField_append hfits.whiteName hfits'.whiteName h
  obtain ⟨hblack, h⟩ := fingerprintField_append hfits.blackName hfits'.blackName h
  obtain ⟨hdate, h⟩ := fingerprintField_append hfits.date hfits'.date h
  obtain ⟨htime, h⟩ := fingerprintField_append hfits.time hfits'.time h
  exact ⟨hwhite, hblack, hdate, htime, h⟩

/-! ## The start position -/

/-- One text goes on where the other one ends. -/
def ProperPrefix (text text' : String) : Prop := text.toList <+: text'.toList ∧ text ≠ text'

theorem prefix_of_encode_append {cs ds : List Char} {bytes bytes' : List UInt8}
    (h : Utf8.encode cs ++ bytes = Utf8.encode ds ++ bytes') : cs <+: ds ∨ ds <+: cs := by
  induction cs generalizing ds with
  | nil => exact .inl List.nil_prefix
  | cons c cs ih =>
      cases ds with
      | nil => exact .inr List.nil_prefix
      | cons d ds =>
          rw [Utf8.encode_cons, Utf8.encode_cons, List.append_assoc, List.append_assoc] at h
          have hdecode := Utf8.decodeChar?_encodeChar_append c (Utf8.encode cs ++ bytes)
          rw [h, Utf8.decodeChar?_encodeChar_append] at hdecode
          obtain rfl := Option.some.inj hdecode
          rw [List.cons_prefix_cons, List.cons_prefix_cons]
          exact (ih (List.append_cancel_left h)).imp (⟨rfl, ·⟩) (⟨rfl, ·⟩)

/-- Two texts in front of the same bytes are one, unless one of them goes on. -/
theorem eq_of_encode_append {text text' : String} {bytes bytes' : List UInt8}
    (h : Utf8.encode text.toList ++ bytes = Utf8.encode text'.toList ++ bytes')
    (hproper : ¬ ProperPrefix text text') (hproper' : ¬ ProperPrefix text' text) :
    text = text' ∧ bytes = bytes' := by
  have htext : text = text' := by
    rcases prefix_of_encode_append h with hstarts | hstarts
    · exact of_not_not fun hne ↦ hproper ⟨hstarts, hne⟩
    · exact (of_not_not fun hne ↦ hproper' ⟨hstarts, hne⟩).symm
  subst htext
  exact ⟨rfl, List.append_cancel_left h⟩

/-! ## The moves of an imported game -/

section

variable {S : Shakmaty}

theorem LineBytes.append {chess : S.Chess} {ms ms' : List Move} {bytes bytes' : List UInt8}
    (h : LineBytes S chess ms bytes) (h' : LineBytes S (S.playLine chess ms) ms' bytes') :
    LineBytes S chess (ms ++ ms') (bytes ++ bytes') := by
  induction ms generalizing chess bytes with
  | nil =>
      cases bytes with
      | nil => exact h'
      | cons byte bytes => exact h.elim
  | cons m ms ih =>
      cases bytes with
      | nil => exact h.elim
      | cons byte bytes => exact ⟨h.1, ih h.2 h'⟩

/-- The bytes of a line determine its moves. -/
theorem LineBytes.moves_eq {chess : S.Chess} {ms ms' : List Move} {bytes : List UInt8}
    (h : LineBytes S chess ms bytes) (h' : LineBytes S chess ms' bytes) : ms = ms' := by
  induction bytes generalizing chess ms ms' with
  | nil =>
      cases ms with
      | cons m ms => exact h.elim
      | nil =>
          cases ms' with
          | cons m' ms' => exact h'.elim
          | nil => rfl
  | cons byte bytes ih =>
      cases ms with
      | nil => exact h.elim
      | cons m ms =>
          cases ms' with
          | nil => exact h'.elim
          | cons m' ms' =>
              obtain rfl : m = m' := Option.some.inj (h.1.symm.trans h'.1)
              rw [ih h.2 h'.2]

theorem mainlineMoveBytesFrom_encodeComment (text : String) (rest : List UInt8) (depth : ℕ) :
    mainlineMoveBytesFrom 0 depth (encodeComment text ++ rest) =
      mainlineMoveBytesFrom 0 depth rest := by
  have hstored : encodeComment text =
      storedBytes (commentForest (Utf8.encode text.toList) .nil) := by
    rw [storedBytes_commentForest]
    exact (List.append_nil _).symm
  rw [hstored, mainlineMoveBytesFrom_storedBytes, mainlineBytes_commentForest]
  cases depth <;> rfl

theorem mainlineMoveBytesFrom_encodeNag (code : UInt8) (rest : List UInt8) (depth : ℕ) :
    mainlineMoveBytesFrom 0 depth (encodeNag (nagToString code) ++ rest) =
      mainlineMoveBytesFrom 0 depth rest := by
  rw [encodeNag_nagToString]
  exact mainlineMoveBytesFrom_annotation (Or.inr rfl) ⟨nagBytes code, length_nagBytes_le code⟩
    rest depth

/-- The importer stands at the end of the main line `ms` inside `depth` variations, and has
written the bytes of that line. -/
structure Streamed (imp : Importer S) (root : S.Chess) (ms : List Move) (depth : ℕ) : Prop where
  opened : imp.frames.length = depth + 1
  frame : ∃ frame, imp.frames.getLast? = some frame ∧ frame.position = S.playLine root ms
  synced : imp.Synced
  bytes : ∃ bytes, LineBytes S root ms bytes ∧ ∀ rest,
    mainlineMoveBytesFrom 0 0 (imp.game.moves ++ rest) =
      bytes ++ mainlineMoveBytesFrom 0 depth rest

namespace Streamed

open Importer

variable {imp imp' : Importer S} {root : S.Chess} {ms ms' : List Move} {depth depth' : ℕ}
  {bytes line : List UInt8} {frames : List (ImportFrame S)}

theorem initial (imp : Importer S) (hmoves : imp.game.moves = []) :
    Streamed imp.endHeaders.1 imp.game.position [] 0 where
  opened := rfl
  frame := ⟨_, rfl, rfl⟩
  synced := ⟨_, rfl, rfl⟩
  bytes := by
    refine ⟨[], trivial, fun rest ↦ ?_⟩
    change mainlineMoveBytesFrom 0 0 (imp.game.moves ++ rest) = _
    rw [hmoves, List.nil_append, List.nil_append]

/-- What is written for moves of the main line reads as their bytes. -/
theorem of_wrote (h : Streamed imp root ms depth) (hwrote : Wrote imp imp' bytes frames)
    (hdepth : frames.length = depth' + 1)
    (hlast : ∃ frame, frames.getLast? = some frame ∧
      frame.position = S.playLine root (ms ++ ms'))
    (hline : LineBytes S (S.playLine root ms) ms' line)
    (hread : ∀ rest, mainlineMoveBytesFrom 0 depth (bytes ++ rest) =
      line ++ mainlineMoveBytesFrom 0 depth' rest) : Streamed imp' root (ms ++ ms') depth' where
  opened := by rw [hwrote.frames]; exact hdepth
  frame := by rw [hwrote.frames]; exact hlast
  synced := hwrote.synced
  bytes := by
    obtain ⟨before, hbefore, hall⟩ := h.bytes
    refine ⟨before ++ line, hbefore.append hline, fun rest ↦ ?_⟩
    rw [hwrote.moves, List.append_assoc, hall, hread, List.append_assoc]

/-- What is written beside the main line is passed over. -/
theorem of_side (h : Streamed imp root ms depth) (hwrote : Wrote imp imp' bytes frames)
    (hdepth : frames.length = depth' + 1) (hlast : frames.getLast? = imp.frames.getLast?)
    (hread : ∀ rest, mainlineMoveBytesFrom 0 depth (bytes ++ rest) =
      mainlineMoveBytesFrom 0 depth' rest) : Streamed imp' root (ms ++ []) depth' := by
  obtain ⟨frame, hframe, hposition⟩ := h.frame
  have hline : LineBytes S (S.playLine root ms) [] [] := trivial
  refine h.of_wrote hwrote hdepth ⟨frame, hlast.trans hframe, ?_⟩ hline hread
  rw [List.append_nil]
  exact hposition

/-- An event extends the main line by its moves. -/
theorem visit (h : Streamed imp root ms depth) (e : Event S)
    (hkept : (imp.visit e).skip = false) :
    ∃ ms' depth', Streamed (imp.visit e) root (ms ++ ms') depth' ∧
      (imp.visit e).game.fen = imp.game.fen ∧ ∀ events,
        mainlineMoves S (S.playLine root ms) depth (e :: events) =
          ms' ++ mainlineMoves S (S.playLine root (ms ++ ms')) depth' events := by
  obtain ⟨frame, parents, hframes⟩ := List.exists_cons_of_length_eq_add_one h.opened
  obtain ⟨last, hlast, hposition⟩ := h.frame
  have hdepth := h.opened
  rw [hframes, List.length_cons, Nat.add_right_cancel_iff] at hdepth
  cases e with
  | leaf a =>
      cases a with
      | comment raw =>
          have hwrote := wrote_pushBytes h.synced (encodeComment (fromUtf8Lossy raw))
          refine ⟨[], depth, h.of_side hwrote h.opened rfl fun rest ↦ ?_, hwrote.fen,
            fun events ↦ ?_⟩
          · exact mainlineMoveBytesFrom_encodeComment _ rest depth
          · cases depth <;> simp [mainlineMoves]
      | nag code =>
          have hwrote := wrote_pushBytes h.synced (encodeNag (nagToString code))
          refine ⟨[], depth, h.of_side hwrote h.opened rfl fun rest ↦ ?_, hwrote.fen,
            fun events ↦ ?_⟩
          · exact mainlineMoveBytesFrom_encodeNag code rest depth
          · cases depth <;> simp [mainlineMoves]
      | san s =>
          obtain ⟨m, byte, hmove, hencode⟩ := encoded_of_kept hframes hkept
          have hwrote := wrote_san hframes h.synced hmove hencode
          obtain ⟨hmarker, hdecode⟩ := encodeMove_eq_ok S hencode
          have hread := mainlineMoveBytesFrom_leaf (.move ⟨byte, hmarker⟩)
          cases depth with
          | zero =>
              obtain rfl := List.length_eq_zero_iff.mp hdepth
              rw [hframes, List.getLast?_singleton, Option.some.injEq] at hlast
              subst hlast
              rw [hposition] at hmove hdecode
              have hline : LineBytes S (S.playLine root ms) [m] [byte] := ⟨hdecode, trivial⟩
              refine ⟨[m], 0, h.of_wrote hwrote rfl ⟨_, rfl, ?_⟩ hline fun rest ↦ hread rest 0,
                hwrote.fen, fun events ↦ ?_⟩
              · rw [playLine_append, ← hposition]
                rfl
              · rw [mainlineMoves, hmove, playLine_append]
                rfl
          | succ depth =>
              obtain ⟨parent, parents', rfl⟩ := List.exists_cons_of_length_eq_add_one hdepth
              refine ⟨[], depth + 1, h.of_side hwrote ?_ ?_ fun rest ↦ hread rest (depth + 1),
                hwrote.fen, fun events ↦ ?_⟩
              · rw [List.length_cons, hdepth]
              · rw [hframes, List.getLast?_cons_cons, List.getLast?_cons_cons]
              · rw [mainlineMoves_inside, List.append_nil, List.nil_append]
  | enter =>
      have hwrote := wrote_beginVariation hframes h.synced
      refine ⟨[], depth + 1, h.of_side hwrote ?_ ?_ fun rest ↦ ?_, hwrote.fen, fun events ↦ ?_⟩
      · rw [List.length_cons, List.length_cons, hdepth]
      · rw [hframes, List.getLast?_cons_cons]
      · rw [List.singleton_append, mainlineMoveBytesFrom, if_pos rfl]
      · rw [List.append_nil, List.nil_append]
        cases depth <;> rw [mainlineMoves]
  | leave =>
      cases depth with
      | zero =>
          obtain rfl := List.length_eq_zero_iff.mp hdepth
          simp [Importer.visit, endVariation, pushBytes, hframes] at hkept
      | succ depth =>
          obtain ⟨parent, parents', rfl⟩ := List.exists_cons_of_length_eq_add_one hdepth
          have hwrote := wrote_endVariation hframes
          refine ⟨[], depth, h.of_side hwrote hdepth ?_ fun rest ↦ ?_, hwrote.fen,
            fun events ↦ ?_⟩
          · rw [hframes, List.getLast?_cons_cons]
          · rw [List.singleton_append, mainlineMoveBytesFrom, if_neg (by decide), if_pos rfl,
              Nat.add_sub_cancel]
          · rw [mainlineMoves, List.append_nil, List.nil_append, Nat.add_sub_cancel]

theorem visitAll (h : Streamed imp root ms depth) {events : List (Event S)}
    (hkept : (imp.visitAll events).skip = false) :
    (∃ depth', Streamed (imp.visitAll events) root
      (ms ++ mainlineMoves S (S.playLine root ms) depth events) depth') ∧
        (imp.visitAll events).game.fen = imp.game.fen := by
  induction events generalizing imp ms depth with
  | nil =>
      refine ⟨⟨depth, ?_⟩, rfl⟩
      rw [mainlineMoves, List.append_nil]
      exact h
  | cons e events ih =>
      have hrest : ((imp.visit e).visitAll events).skip = false := hkept
      obtain ⟨ms', depth', hstep, hfen, hmoves⟩ := h.visit e (skip_eq_false_of_visitAll hrest)
      obtain ⟨⟨depth'', hrun⟩, hrunFen⟩ := ih hstep hrest
      refine ⟨⟨depth'', ?_⟩, hrunFen.trans hfen⟩
      rw [hmoves, ← List.append_assoc]
      exact hrun

end Streamed

/-! ## The columns of an imported game -/

/-- The standard start position is stored as none. -/
theorem fen_headers_ne (hplain : S.FenPlain) (imp : Importer S) (fenHeader : Option (List UInt8))
    (hkept : (fenHeader.elim imp.beginGame imp.beginGame.headerFen).skip = false) :
    (fenHeader.elim imp.beginGame imp.beginGame.headerFen).game.fen ≠ some startFen := by
  cases fenHeader with
  | none => exact Option.some_ne_none _ ∘ Eq.symm
  | some value =>
      simp only [Option.elim_some, Importer.headerFen] at hkept ⊢
      split_ifs at hkept ⊢ with hstandard
      · exact Option.some_ne_none _ ∘ Eq.symm
      · cases hfen : S.fenFromAscii value with
        | error e => simp [hfen] at hkept
        | ok setup =>
            cases hsetup : databaseSetupToChess S setup with
            | error e => simp [hfen, hsetup] at hkept
            | ok position =>
                intro htext
                have hencode := encode_storedFen hplain hfen
                simp only [hsetup, Option.some.injEq] at htext
                rw [htext] at hencode
                exact hstandard hencode.symm

/-- The bytes of the main line are those of its moves, from the start that the `FEN` column
describes. -/
theorem lineBytes_readGame (hplain : S.FenPlain) {imp : Importer S}
    {fenHeader : Option (List UInt8)} {events : List (Event S)} {game : TempGame S}
    (h : imp.readGame fenHeader events = some game) :
    ∃ root, startPosition S fenHeader = some root ∧
      (∀ gameId, initialPosition S gameId game.fen = .ok root) ∧ game.fen ≠ some startFen ∧
        LineBytes S root (mainlineMoves S root 0 events) (iterMainlineMoveBytes game.moves) := by
  obtain ⟨headers, rfl, hheader, hvisit, rfl⟩ := Importer.readGame_kept h
  have hstart : startPosition S fenHeader =
      some (fenHeader.elim imp.beginGame imp.beginGame.headerFen).game.position := by
    cases fenHeader with
    | none => rfl
    | some value => exact (headerFen_of_kept hheader).1
  have hinitial := fun gameId ↦ initialPosition_header hplain gameId imp fenHeader hheader
  have hfen := fen_headers_ne hplain imp fenHeader hheader
  generalize fenHeader.elim imp.beginGame imp.beginGame.headerFen = headers at *
  obtain ⟨⟨depth, hstreamed⟩, hsame⟩ := (Streamed.initial headers (hinitial 0).2).visitAll hvisit
  rw [Shakmaty.playLine_nil, List.nil_append] at hstreamed
  obtain ⟨bytes, hline, hread⟩ := hstreamed.bytes
  refine ⟨headers.game.position, hstart, fun gameId ↦ ?_, ?_, ?_⟩
  · rw [hsame]
    exact (hinitial gameId).1
  · rw [hsame]
    exact hfen
  · have hall := hread []
    rw [List.append_nil, mainlineMoveBytesFrom, List.append_nil] at hall
    rw [iterMainlineMoveBytes, hall]
    exact hline

/-! ## The fingerprint -/

/-- Two imported games with one start position and one main line. -/
structure SameMainline (fenHeader fenHeader' : Option (List UInt8))
    (events events' : List (Event S)) (game game' : TempGame S) : Prop where
  fen : game.fen = game'.fen
  bytes : iterMainlineMoveBytes game.moves = iterMainlineMoveBytes game'.moves
  moves : ∃ root, startPosition S fenHeader = some root ∧
    startPosition S fenHeader' = some root ∧
      mainlineMoves S root 0 events = mainlineMoves S root 0 events'

theorem sameMainline_of_eq (hplain : S.FenPlain) {imp imp' : Importer S}
    {fenHeader fenHeader' : Option (List UInt8)} {events events' : List (Event S)}
    {game game' : TempGame S} (h : imp.readGame fenHeader events = some game)
    (h' : imp'.readGame fenHeader' events' = some game')
    (htext : game.fen.getD startFen = game'.fen.getD startFen)
    (hbytes : iterMainlineMoveBytes game.moves = iterMainlineMoveBytes game'.moves) :
    SameMainline fenHeader fenHeader' events events' game game' := by
  obtain ⟨root, hroot, hinitial, hne, hline⟩ := lineBytes_readGame hplain h
  obtain ⟨root', hroot', hinitial', hne', hline'⟩ := lineBytes_readGame hplain h'
  have hfen : game.fen = game'.fen := by
    cases hcolumn : game.fen with
    | none =>
        cases hcolumn' : game'.fen with
        | none => rfl
        | some text' =>
            rw [hcolumn, hcolumn', Option.getD_none, Option.getD_some] at htext
            rw [hcolumn', ← htext] at hne'
            exact absurd rfl hne'
    | some text =>
        cases hcolumn' : game'.fen with
        | none =>
            rw [hcolumn, hcolumn', Option.getD_none, Option.getD_some] at htext
            rw [hcolumn, htext] at hne
            exact absurd rfl hne
        | some text' =>
            rw [hcolumn, hcolumn', Option.getD_some, Option.getD_some] at htext
            rw [htext]
  obtain rfl : root = root' := by
    have hstart := hinitial 0
    rw [hfen, hinitial' 0] at hstart
    exact (Except.ok.inj hstart).symm
  rw [hbytes] at hline
  exact ⟨hfen, hbytes, root, hroot, hroot', hline.moves_eq hline'⟩

/-- What a fingerprint tells of two imported games. -/
structure Identified (fenHeader fenHeader' : Option (List UInt8))
    (events events' : List (Event S)) (game game' : AccountGame S) : Prop where
  alike : game.fingerprintFields.Alike game'.fingerprintFields
  mainline : ¬ ProperPrefix (game.fen.getD startFen) (game'.fen.getD startFen) →
    ¬ ProperPrefix (game'.fen.getD startFen) (game.fen.getD startFen) →
      SameMainline fenHeader fenHeader' events events' game.toTempGame game'.toTempGame

theorem identified_of_fingerprintBytes (hplain : S.FenPlain) {identity : AccountIdentity}
    {imp imp' : Importer S} {fenHeader fenHeader' : Option (List UInt8)}
    {events events' : List (Event S)} {game game' : AccountGame S}
    (hgame : imp.readGame fenHeader events = some game.toTempGame)
    (hgame' : imp'.readGame fenHeader' events' = some game'.toTempGame)
    (hfits : game.fingerprintFields.Fits) (hfits' : game'.fingerprintFields.Fits)
    (h : fingerprintBytes identity game.fingerprintFields =
      fingerprintBytes identity game'.fingerprintFields) :
    Identified fenHeader fenHeader' events events' game game' := by
  have halike := alike_of_fingerprintBytes hfits hfits' h
  refine ⟨halike, fun hproper hproper' ↦ ?_⟩
  obtain ⟨htext, hbytes⟩ := eq_of_encode_append halike.rest hproper hproper'
  exact sameMainline_of_eq hplain hgame hgame' htext hbytes

/-- Two imported games of one account with one fingerprint are alike, and where no start position
begins the other they have one main line; otherwise the digests of two byte strings collide. -/
theorem semanticFingerprint_identifies (hplain : S.FenPlain) {identity : AccountIdentity}
    {imp imp' : Importer S} {fenHeader fenHeader' : Option (List UInt8)}
    {events events' : List (Event S)} {game game' : AccountGame S}
    (hgame : imp.readGame fenHeader events = some game.toTempGame)
    (hgame' : imp'.readGame fenHeader' events' = some game'.toTempGame)
    (hfits : game.fingerprintFields.Fits) (hfits' : game'.fingerprintFields.Fits) :
    (fingerprintBytes identity game.fingerprintFields =
        fingerprintBytes identity game'.fingerprintFields →
      Identified fenHeader fenHeader' events events' game game') ∧
    ∀ env : AccountEnv, env.semanticFingerprint identity game.fingerprintFields =
        env.semanticFingerprint identity game'.fingerprintFields →
      Identified fenHeader fenHeader' events events' game game' ∨
        ∃ bytes bytes', bytes ≠ bytes' ∧ env.sha256 bytes = env.sha256 bytes' := by
  refine ⟨identified_of_fingerprintBytes hplain hgame hgame' hfits hfits', fun env hdigest ↦ ?_⟩
  by_cases hbytes : fingerprintBytes identity game.fingerprintFields =
      fingerprintBytes identity game'.fingerprintFields
  · exact .inl (identified_of_fingerprintBytes hplain hgame hgame' hfits hfits' hbytes)
  · exact .inr ⟨_, _, hbytes, hdigest⟩

end

/-! ## A move that reads as a digit

The rules library on one queen ending, White with `Ka1`, `Qd4` and `Qe1` against `Kh7`, one
move deep.  The number of the last legal move is the byte of the digit `0`. -/

namespace QueenEnding

inductive Position where
  | initial
  | start
  | after (m : Move)
  deriving DecidableEq, Repr

def a1 : Square := Square.fromCoords 0 0
def e1 : Square := Square.fromCoords 4 0
def d4 : Square := Square.fromCoords 3 3
def h7 : Square := Square.fromCoords 7 6

def startBoard : Board := fun s ↦
  if s = a1 then some ⟨.white, .king⟩
  else if s = e1 ∨ s = d4 then some ⟨.white, .queen⟩
  else if s = h7 then some ⟨.black, .king⟩
  else none

def moveTo (role : Role) (source target : Square) : Move := .normal role source none target none

/-- The legal moves in the order of the generator: queens before the king. -/
def startMoves : List Move :=
  [1, 2, 3, 5, 6, 7, 11, 12, 13, 18, 20, 22, 25, 28, 31, 32, 36, 44, 52, 60].map
      (moveTo .queen e1) ++
    [3, 6, 9, 11, 13, 18, 19, 20, 24, 25, 26, 28, 29, 30, 31, 34, 35, 36, 41, 43, 45, 48, 51, 54,
      59, 63].map (moveTo .queen d4) ++
    [1, 8, 9].map (moveTo .king a1)

def kb2 : Move := moveTo .king a1 9

def board : Position → Board
  | .initial => PawnEnding.initialBoard
  | .start => startBoard
  | .after m => startBoard.playMove .white m

def turn : Position → Color
  | .initial | .start => .white
  | .after _ => .black

def legalMoves : Position → List Move
  | .start => startMoves
  | _ => []

def playUnchecked : Position → Move → Position
  | .start, m => .after m
  | p, _ => p

def toMove (san : String) : Position → Option Move
  | .start => if san = "Kb2" then some kb2 else none
  | _ => none

def firstFen : String := "8/7k/8/8/3Q4/8/8/K3Q3 w - - 0 1"

def tenthFen : String := "8/7k/8/8/3Q4/8/8/K3Q3 w - - 0 10"

abbrev library : Shakmaty where
  Chess := Position
  Setup := Position
  San := String
  CastlingMode := Unit
  PositionError := Unit
  default := .initial
  board := board
  turn := turn
  castlingRights := fun _ ↦ 0
  epSquare := fun _ ↦ none
  legalMoves := legalMoves
  playUnchecked := playUnchecked
  toMove := toMove
  sanFromMove := fun _ m ↦ if m = kb2 then "Kb2" else "--"
  sanToString := id
  setupBoard := board
  fenFromAscii := fun fen ↦
    if fen = Utf8.encode firstFen.toList ∨ fen = Utf8.encode tenthFen.toList then .ok .start
    else .error "invalid fen"
  detectCastlingMode := fun _ ↦ ()
  fromSetup := fun p _ ↦ .ok p
  ignoreTooMuchMaterial := .error
  ignoreInvalidCastlingRights := .error
  positionErrorToString := fun _ ↦ "illegal position"

theorem library_fenPlain : library.FenPlain := by
  intro bs setup h
  simp only at h
  split_ifs at h with hfen
  rcases hfen with rfl | rfl <;> decide +kernel

def identity : AccountIdentity := ⟨"lichess", "alice"⟩

def game (temp : TempGame library) (date white : String) : AccountGame library where
  toTempGame := temp
  date := some date
  time := some "12:30:00"
  round := none
  whiteElo := none
  blackElo := none
  result := some "1-0"
  timeControl := none
  eco := none
  orientation := none
  eventName := none
  siteName := none
  whiteName := some white
  blackName := some "Bob"
  providerHeaders := []

/-- The importer behind the headers of a game from the start position. -/
def headersRead (text : String) : Importer library where
  game := ⟨some text, [], Position.start, {}⟩
  skip := false
  frames := [ImportFrame.new Position.start]

theorem readGame_start {text : String} (htext : text = firstFen ∨ text = tenthFen)
    (events : List (Event library)) :
    (Importer.new library).readGame (some (Utf8.encode text.toList)) events =
      ((headersRead text).visitAll events).endGame := by
  have hbytes := htext.imp (congrArg (Utf8.encode ·.toList)) (congrArg (Utf8.encode ·.toList))
  have hfen : library.fenFromAscii (Utf8.encode text.toList) = .ok Position.start := if_pos hbytes
  have hstandard : Utf8.encode text.toList ≠ standardFen := by
    rcases htext with rfl | rfl <;> decide +kernel
  have hstored : fromUtf8Lossy (decodeHeader (Utf8.encode text.toList)) = text :=
    String.toList_inj.mp (Utf8.encode_injective (encode_storedFen library_fenPlain hfen))
  have hheaders : (Importer.new library).beginGame.headerFen (Utf8.encode text.toList) =
      { headersRead text with frames := [] } := by
    rw [Importer.headerFen, if_neg hstandard, hfen]
    dsimp only
    rw [hstored]
    rfl
  rw [Importer.readGame, Option.elim_some, hheaders]
  rfl

def played : TempGame library := ⟨some firstFen, [48], Position.after kb2, {}⟩

theorem readGame_played :
    (Importer.new library).readGame (some (Utf8.encode firstFen.toList)) [.leaf (.san "Kb2")] =
      some played := by
  rw [readGame_start (Or.inl rfl)]
  rfl

def unplayed : TempGame library := ⟨some tenthFen, [], Position.start, {}⟩

theorem readGame_unplayed :
    (Importer.new library).readGame (some (Utf8.encode tenthFen.toList)) [] = some unplayed := by
  rw [readGame_start (Or.inr rfl)]
  rfl

end QueenEnding

open QueenEnding in
/-- A month in the other case, or a move in place of the last digit of the start position, leaves
the same bytes. -/
theorem fingerprintBytes_collide :
    (∃ game game' : AccountGame library, ∃ temp,
      (Importer.new library).readGame none [] = some temp ∧ game.toTempGame = temp ∧
        game'.toTempGame = temp ∧
        fingerprintBytes identity game.fingerprintFields =
          fingerprintBytes identity game'.fingerprintFields ∧ game.date ≠ game'.date) ∧
    ∃ game game' : AccountGame library,
      (Importer.new library).readGame (some (Utf8.encode firstFen.toList)) [.leaf (.san "Kb2")] =
        some game.toTempGame ∧
      (Importer.new library).readGame (some (Utf8.encode tenthFen.toList)) [] =
        some game'.toTempGame ∧
      fingerprintBytes identity game.fingerprintFields =
        fingerprintBytes identity game'.fingerprintFields ∧
      game.fen ≠ game'.fen ∧
      mainlineMoves library Position.start 0 [.leaf (.san "Kb2")] ≠
        mainlineMoves library Position.start 0 [] := by
  refine ⟨⟨game (TempGame.default library) "2024.JAN.01" "Alice",
    game (TempGame.default library) "2024.jan.01" "Alice", TempGame.default library, rfl, rfl,
    rfl, by decide +kernel, by decide⟩, game played "2024.01.01" "Alice",
    game unplayed "2024.01.01" "Alice", readGame_played, readGame_unplayed, by decide +kernel,
    by decide, by decide⟩

namespace QueenEnding

def praised : TempGame library :=
  { played with moves := 48 :: encodeNag (nagToString 1) }

theorem readGame_praised :
    (Importer.new library).readGame (some (Utf8.encode firstFen.toList))
      [.leaf (.san "Kb2"), .leaf (.nag 1)] = some praised := by
  rw [readGame_start (Or.inl rfl)]
  rfl

theorem textFits_some {text : String}
    (h : (Utf8.encode (toAsciiLowercase text).toList).length < 2 ^ 64 - 1) :
    TextFits (some text) := by
  intro text' htext
  obtain rfl := Option.some.inj htext
  exact h

theorem game_fits (temp : TempGame library) {date white : String}
    (hdate : TextFits (some date)) (hwhite : TextFits (some white)) :
    (game temp date white).fingerprintFields.Fits where
  whiteName := hwhite
  blackName := textFits_some (by decide +kernel)
  date := hdate
  time := textFits_some (by decide +kernel)

end QueenEnding

open QueenEnding in
theorem identified_queenEnding :
    Identified (some (Utf8.encode firstFen.toList)) (some (Utf8.encode firstFen.toList))
      [.leaf (.san "Kb2")] [.leaf (.san "Kb2"), .leaf (.nag 1)]
      (game played "2024.01.01" "Alice") (game praised "2024.01.01" "ALICE") := by
  have hdate : TextFits (some "2024.01.01") := textFits_some (by decide +kernel)
  have hidentifies := @semanticFingerprint_identifies library library_fenPlain identity _ _ _ _ _ _
    (game played "2024.01.01" "Alice") (game praised "2024.01.01" "ALICE") readGame_played
    readGame_praised (game_fits played hdate (textFits_some (by decide +kernel)))
    (game_fits praised hdate (textFits_some (by decide +kernel)))
  exact hidentifies.1 (by decide +kernel)

end EnCroissant
