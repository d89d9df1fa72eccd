import Mathlib
import EnCroissant.Database.Importer
import EnCroissant.Database.Readers

/-!
# What the importer writes

The events of a game form a forest.  If its moves are legal, the importer
appends the serialization of a forest of chunks, and its innermost frame ends
where the moves outside every variation lead.
-/

namespace EnCroissant

open Bracketed

/-! ## Annotations -/

/-- A comment as a row of chunks: full ones, then one that is not full. -/
def commentForest (text : List UInt8) (next : Forest Chunk) : Forest Chunk :=
  if h : text.length < maxChunk then .leaf (.comment ⟨text, h.le⟩) next
  else
    .leaf (.comment ⟨text.take maxChunk, List.length_take_le _ _⟩)
      (commentForest (text.drop maxChunk) next)
termination_by text.length
decreasing_by
  rw [List.length_drop]
  simp only [maxChunk] at *
  omega

theorem commentForest_of_lt {text : List UInt8} (h : text.length < maxChunk)
    (next : Forest Chunk) :
    commentForest text next = .leaf (.comment ⟨text, h.le⟩) next := by
  rw [commentForest, dif_pos h]

theorem commentForest_append (full text : List UInt8) (h : full.length = maxChunk)
    (next : Forest Chunk) :
    commentForest (full ++ text) next =
      .leaf (.comment ⟨full, h.le⟩) (commentForest text next) := by
  rw [commentForest, dif_neg (by simp [h])]
  simp only [← h, List.take_left, List.drop_left]

/-- A list of at least `n` elements, split after `n` of them. -/
theorem exists_append_of_le {α : Type*} {xs : List α} {n : ℕ} (h : n ≤ xs.length) :
    ∃ ys zs, xs = ys ++ zs ∧ ys.length = n :=
  ⟨xs.take n, xs.drop n, (List.take_append_drop n xs).symm, by simpa using h⟩

theorem chunks_nil {α : Type*} (size : ℕ) : chunks size ([] : List α) = [] := by
  rw [chunks, dif_pos (Or.inr rfl)]

theorem chunks_of_le {α : Type*} {size : ℕ} {xs : List α} (hne : xs ≠ [])
    (h : xs.length ≤ size) : chunks size xs = [xs] := by
  have hpos := List.length_pos_of_ne_nil hne
  rw [chunks, dif_neg (by simp only [not_or]; exact ⟨by omega, hne⟩), List.take_of_length_le h,
    List.drop_of_length_le h, chunks_nil]

theorem chunks_append {α : Type*} {size : ℕ} (hsize : 0 < size) {xs : List α}
    (h : xs.length = size) (ys : List α) :
    chunks size (xs ++ ys) = xs :: chunks size ys := by
  have hne : xs ++ ys ≠ [] := by
    rintro heq
    rw [(List.append_eq_nil_iff.mp heq).1, List.length_nil] at h
    omega
  rw [chunks, dif_neg (by simp only [not_or]; exact ⟨by omega, hne⟩)]
  simp only [← h, List.take_left, List.drop_left]

/-- The bytes pushed for a comment text. -/
theorem storedBytes_commentForest (text : List UInt8) (next : Forest Chunk) :
    storedBytes (commentForest text next) =
      ((chunks maxChunk text).flatMap (annotationChunk commentMarker) ++
        if text.length % maxChunk = 0 then [commentMarker, 0, 0] else []) ++
          storedBytes next := by
  induction hn : text.length using Nat.strong_induction_on generalizing text with
  | _ n ih =>
    subst hn
    by_cases hlt : text.length < maxChunk
    · rw [commentForest_of_lt hlt, storedBytes_leaf, Chunk.bytes]
      rcases eq_or_ne text [] with rfl | hne
      · simp [chunks_nil, annotationChunk, toLeBytes]
      · have hpos := List.length_pos_of_ne_nil hne
        rw [chunks_of_le hne hlt.le, Nat.mod_eq_of_lt hlt, if_neg (by omega)]
        simp
    · obtain ⟨full, tail, rfl, hfull⟩ := exists_append_of_le (Nat.le_of_not_lt hlt)
      have htail : tail.length < (full ++ tail).length := by
        rw [List.length_append, hfull, maxChunk]
        omega
      have hmod : (full ++ tail).length % maxChunk = tail.length % maxChunk := by
        rw [List.length_append, hfull, Nat.add_mod_left]
      rw [commentForest_append full tail hfull, storedBytes_leaf, ih _ htail tail rfl,
        chunks_append (by decide) hfull, List.flatMap_cons, hmod]
      simp only [Chunk.bytes, List.append_assoc]

theorem merge_commentForest (text : List UInt8) (next : Forest Chunk) :
    merge (commentForest text next) = .leaf (.comment text) (merge next) := by
  induction hn : text.length using Nat.strong_induction_on generalizing text with
  | _ n ih =>
    subst hn
    by_cases hlt : text.length < maxChunk
    · rw [commentForest_of_lt hlt, merge, if_neg hlt.ne]
    · obtain ⟨full, tail, rfl, hfull⟩ := exists_append_of_le (Nat.le_of_not_lt hlt)
      have htail : tail.length < (full ++ tail).length := by
        rw [List.length_append, hfull, maxChunk]
        omega
      rw [commentForest_append full tail hfull, merge, if_pos hfull, ih _ htail tail rfl]
      rfl

def nagBytes (code : UInt8) : List UInt8 := Utf8.encode (nagToString code).toList

theorem nagBytes_ne_nil (code : UInt8) : nagBytes code ≠ [] := by
  simp [nagBytes, nagToString]

theorem length_nagBytes_le (code : UInt8) : (nagBytes code).length ≤ maxChunk := by
  have hencode : ∀ cs : List Char, (Utf8.encode cs).length ≤ 4 * cs.length := by
    intro cs
    induction cs with
    | nil => simp
    | cons c cs ih =>
        have := c.utf8Size_le_four
        rw [Utf8.encode_cons, List.length_append, List.length_cons,
          String.length_utf8EncodeChar]
        omega
  have hrepr : (toString code.toNat).length ≤ 3 :=
    Nat.repr_length code.toNat 3 (by decide) (by have := code.toNat_lt; omega)
  have := hencode (nagToString code).toList
  simp only [nagBytes, maxChunk, nagToString, String.length_toList, String.length_append] at *
  have hdollar : "$".length = 1 := rfl
  omega

theorem encodeNag_nagToString (code : UInt8) :
    encodeNag (nagToString code) = annotationChunk nagMarker (nagBytes code) := by
  rw [encodeNag, ← nagBytes, chunks_of_le (nagBytes_ne_nil code) (length_nagBytes_le code)]
  simp

section

variable (S : Shakmaty)

/-! ## Legal games and their moves -/

/-- Every move of the events is legal where it is played.  `prev` is the
position before the last move of the line. -/
def LegalGame : Forest (EventLeaf S) → S.Chess → Option S.Chess → Prop
  | .nil, _, _ => True
  | .leaf (.san s) next, chess, _ =>
      ∃ m ∈ S.legalMoves chess, S.toMove s chess = some m ∧
        LegalGame next (S.playUnchecked chess m) (some chess)
  | .leaf (.comment _) next, chess, prev => LegalGame next chess prev
  | .leaf (.nag _) next, chess, prev => LegalGame next chess prev
  | .branch inner next, chess, prev =>
      LegalGame inner (prev.getD chess) none ∧ LegalGame next chess prev

/-- The moves outside every variation. -/
def lineMoves : Forest (EventLeaf S) → S.Chess → List Move
  | .nil, _ => []
  | .leaf (.san s) next, chess =>
      match S.toMove s chess with
      | none => lineMoves next chess
      | some m => m :: lineMoves next (S.playUnchecked chess m)
  | .leaf (.comment _) next, chess => lineMoves next chess
  | .leaf (.nag _) next, chess => lineMoves next chess
  | .branch _ next, chess => lineMoves next chess

/-- The bytes are the indices of the moves along a line. -/
def LineBytes : S.Chess → List Move → List UInt8 → Prop
  | _, [], [] => True
  | chess, m :: ms, byte :: bytes =>
      decodeMove S byte chess = some m ∧ LineBytes (S.playUnchecked chess m) ms bytes
  | _, _, _ => False

theorem legalLine_of_lineBytes {chess : S.Chess} {ms : List Move} {bytes : List UInt8}
    (h : LineBytes S chess ms bytes) : S.LegalLine chess ms := by
  induction ms generalizing chess bytes with
  | nil => trivial
  | cons m ms ih =>
      cases bytes with
      | nil => exact h.elim
      | cons byte bytes => exact ⟨List.mem_of_getElem? h.1, ih h.2⟩

/-- The byte of a move is no marker and decodes to the move. -/
theorem encodeMove_eq_ok {chess : S.Chess} {m : Move} {byte : UInt8}
    (h : encodeMove S m chess = .ok byte) :
    byte < nagMarker ∧ decodeMove S byte chess = some m := by
  simp only [encodeMove] at h
  cases hindex : (S.legalMoves chess).findIdx? (· == m) with
  | none => simp [hindex] at h
  | some index =>
      simp only [hindex] at h
      split_ifs at h with hsize hmarker
      obtain rfl := Except.ok.inj h
      obtain ⟨hlt, heq, -⟩ := List.findIdx?_eq_some_iff_getElem.mp hindex
      have htoNat : (UInt8.ofNat index).toNat = index := by
        rw [UInt8.toNat_ofNat']
        exact Nat.mod_eq_of_lt hsize
      refine ⟨UInt8.not_le.mp hmarker, ?_⟩
      rw [decodeMove, htoNat, List.getElem?_eq_getElem hlt]
      exact congrArg some (beq_iff_eq.mp heq)

theorem exists_encodeMove (hbyte : S.MovesFitByte) {chess : S.Chess} {m : Move}
    (hm : m ∈ S.legalMoves chess) :
    ∃ byte, encodeMove S m chess = .ok byte := by
  have hlen : (S.legalMoves chess).length < 252 := hbyte chess
  obtain ⟨index, hindex⟩ : ∃ i, (S.legalMoves chess).findIdx? (· == m) = some i := by
    rw [← Option.isSome_iff_exists, List.findIdx?_isSome, List.any_eq_true]
    exact ⟨m, hm, beq_self_eq_true m⟩
  obtain ⟨hlt, -, -⟩ := List.findIdx?_eq_some_iff_getElem.mp hindex
  have hsize : index < UInt8.size := by
    rw [UInt8.size]
    omega
  have hmarker : UInt8.ofNat index < nagMarker := by
    rw [UInt8.lt_iff_toNat_lt, UInt8.toNat_ofNat', Nat.mod_eq_of_lt hsize]
    exact hlt.trans hlen
  refine ⟨UInt8.ofNat index, ?_⟩
  simp only [encodeMove, hindex]
  rw [if_pos hsize, if_neg (UInt8.not_le.mpr hmarker)]

/-- The chunks that the importer writes for the events. -/
def Encodes : Forest (EventLeaf S) → S.Chess → Option S.Chess → Forest Chunk → Prop
  | .nil, _, _, g => g = .nil
  | .leaf (.san s) next, chess, _, g =>
      ∃ (m : Move) (byte : MoveByte) (g' : Forest Chunk),
        S.toMove s chess = some m ∧ encodeMove S m chess = .ok byte.1 ∧
          Encodes next (S.playUnchecked chess m) (some chess) g' ∧ g = .leaf (.move byte) g'
  | .leaf (.comment raw) next, chess, prev, g =>
      ∃ g', Encodes next chess prev g' ∧
        g = commentForest (Utf8.encode (Utf8.lossy raw)) g'
  | .leaf (.nag code) next, chess, prev, g =>
      ∃ g', Encodes next chess prev g' ∧
        g = .leaf (.nag ⟨nagBytes code, length_nagBytes_le code⟩) g'
  | .branch inner next, chess, prev, g =>
      ∃ gInner gNext, Encodes inner (prev.getD chess) none gInner ∧
        Encodes next chess prev gNext ∧ g = .branch gInner gNext

theorem exists_encodes (hbyte : S.MovesFitByte) {f : Forest (EventLeaf S)}
    {chess : S.Chess} {prev : Option S.Chess} (h : LegalGame S f chess prev) :
    ∃ g, Encodes S f chess prev g := by
  induction f generalizing chess prev with
  | nil => exact ⟨.nil, rfl⟩
  | leaf a next ih =>
      cases a with
      | san s =>
          obtain ⟨m, hm, hmove, hnext⟩ := h
          obtain ⟨byte, hencode⟩ := exists_encodeMove S hbyte hm
          obtain ⟨g', hg'⟩ := ih hnext
          exact ⟨_, m, ⟨byte, (encodeMove_eq_ok S hencode).1⟩, g', hmove, hencode, hg', rfl⟩
      | comment raw =>
          obtain ⟨g', hg'⟩ := ih h
          exact ⟨_, g', hg', rfl⟩
      | nag code =>
          obtain ⟨g', hg'⟩ := ih h
          exact ⟨_, g', hg', rfl⟩
  | branch inner next ihInner ihNext =>
      obtain ⟨gInner, hInner⟩ := ihInner h.1
      obtain ⟨gNext, hNext⟩ := ihNext h.2
      exact ⟨_, gInner, gNext, hInner, hNext, rfl⟩

theorem mainlineBytes_commentForest (text : List UInt8) (next : Forest Chunk) :
    mainlineBytes Chunk.moveByte? (commentForest text next) =
      mainlineBytes Chunk.moveByte? next := by
  rw [← mainlineBytes_merge, merge_commentForest, mainlineBytes_leaf, mainlineBytes_merge]
  rfl

/-- The mainline bytes that the importer writes are those of the mainline. -/
theorem lineBytes_of_encodes {f : Forest (EventLeaf S)} {chess : S.Chess}
    {prev : Option S.Chess} {g : Forest Chunk} (h : Encodes S f chess prev g) :
    LineBytes S chess (lineMoves S f chess) (mainlineBytes Chunk.moveByte? g) := by
  induction f generalizing chess prev g with
  | nil =>
      obtain rfl := h
      trivial
  | leaf a next ih =>
      cases a with
      | san s =>
          obtain ⟨m, byte, g', hmove, hencode, hg', rfl⟩ := h
          simp only [lineMoves, hmove]
          rw [mainlineBytes_leaf]
          exact ⟨(encodeMove_eq_ok S hencode).2, ih hg'⟩
      | comment raw =>
          obtain ⟨g', hg', rfl⟩ := h
          rw [mainlineBytes_commentForest]
          exact ih hg'
      | nag code =>
          obtain ⟨g', hg', rfl⟩ := h
          rw [mainlineBytes_leaf]
          exact ih hg'
  | branch inner next _ ihNext =>
      obtain ⟨gInner, gNext, -, hNext, rfl⟩ := h
      change LineBytes S chess (lineMoves S next chess) (mainlineBytes Chunk.moveByte? gNext)
      exact ihNext hNext

end

/-! ## The visitor -/

namespace Importer

variable {S : Shakmaty}

/-- The position of the game is the one of the root frame. -/
def Synced (imp : Importer S) : Prop :=
  ∃ root, imp.frames.getLast? = some root ∧ imp.game.position = root.position

/-- What a run of events does to the importer. -/
structure Wrote (imp imp' : Importer S) (bytes : List UInt8)
    (frames : List (ImportFrame S)) : Prop where
  moves : imp'.game.moves = imp.game.moves ++ bytes
  fen : imp'.game.fen = imp.game.fen
  skip : imp'.skip = imp.skip
  frames : imp'.frames = frames
  synced : imp'.Synced

theorem Wrote.trans {imp imp' imp'' : Importer S} {bytes bytes' : List UInt8}
    {frames frames' : List (ImportFrame S)} (h : Wrote imp imp' bytes frames)
    (h' : Wrote imp' imp'' bytes' frames') :
    Wrote imp imp'' (bytes ++ bytes') frames' where
  moves := by rw [h'.moves, h.moves, List.append_assoc]
  fen := h'.fen.trans h.fen
  skip := h'.skip.trans h.skip
  frames := h'.frames
  synced := h'.synced

theorem wrote_pushBytes {imp : Importer S} (hsync : imp.Synced) (bytes : List UInt8) :
    Wrote imp (imp.pushBytes bytes) bytes imp.frames where
  moves := rfl
  fen := rfl
  skip := rfl
  frames := rfl
  synced := hsync

theorem ensureFrame_of_frames {imp : Importer S} {frame : ImportFrame S}
    {parents : List (ImportFrame S)} (h : imp.frames = frame :: parents) :
    imp.ensureFrame = imp := by
  simp only [ensureFrame, h]

theorem wrote_san {imp : Importer S} {frame : ImportFrame S} {parents : List (ImportFrame S)}
    (hframes : imp.frames = frame :: parents) (hsync : imp.Synced) {s : S.San} {m : Move}
    {byte : UInt8} (hmove : S.toMove s frame.position = some m)
    (hencode : encodeMove S m frame.position = .ok byte) :
    Wrote imp (imp.san s) [byte] (frame.play m :: parents) := by
  simp only [san, ensureFrame_of_frames hframes, hframes, hmove, hencode]
  cases parents with
  | nil => exact ⟨rfl, rfl, rfl, rfl, frame.play m, rfl, rfl⟩
  | cons parent parents =>
      refine ⟨rfl, rfl, rfl, rfl, ?_⟩
      obtain ⟨root, hroot, hposition⟩ := hsync
      rw [hframes, List.getLast?_cons_cons] at hroot
      exact ⟨root, by simpa using hroot, hposition⟩

theorem wrote_beginVariation {imp : Importer S} {frame : ImportFrame S}
    {parents : List (ImportFrame S)} (hframes : imp.frames = frame :: parents)
    (hsync : imp.Synced) :
    Wrote imp imp.beginVariation [variationStartMarker]
      (ImportFrame.new frame.variationStart :: frame :: parents) := by
  simp only [beginVariation, ensureFrame_of_frames hframes, hframes]
  refine ⟨rfl, rfl, rfl, rfl, ?_⟩
  obtain ⟨root, hroot, hposition⟩ := hsync
  rw [hframes] at hroot
  exact ⟨root, by simpa using hroot, hposition⟩

theorem wrote_endVariation {imp : Importer S} {frame parent : ImportFrame S}
    {parents : List (ImportFrame S)} (hframes : imp.frames = frame :: parent :: parents) :
    Wrote imp imp.endVariation [variationEndMarker] (parent :: parents) := by
  obtain ⟨root, hroot⟩ : ∃ root, (parent :: parents).getLast? = some root :=
    ⟨_, List.getLast?_eq_some_getLast (List.cons_ne_nil parent parents)⟩
  simp only [endVariation, pushBytes, hframes, hroot]
  exact ⟨rfl, rfl, rfl, rfl, root, hroot, rfl⟩

theorem visitAll_branch (imp : Importer S) (inner next : Forest (EventLeaf S)) :
    imp.visitAll (Forest.branch inner next).tokens =
      ((imp.beginVariation.visitAll inner.tokens).endVariation).visitAll next.tokens := by
  simp only [visitAll, Forest.tokens, List.foldl_cons, List.foldl_append, visit]

/-- The importer writes the chunks of the events, and the innermost frame ends
where their moves lead. -/
theorem wrote_visitAll {f : Forest (EventLeaf S)} {imp : Importer S} {frame : ImportFrame S}
    {parents : List (ImportFrame S)} {g : Forest Chunk}
    (hframes : imp.frames = frame :: parents) (hsync : imp.Synced)
    (hg : Encodes S f frame.position frame.preMovePositions.getLast? g) :
    Wrote imp (imp.visitAll f.tokens) (storedBytes g)
      ((lineMoves S f frame.position).foldl ImportFrame.play frame :: parents) := by
  induction f generalizing imp frame parents g with
  | nil =>
      obtain rfl := hg
      exact ⟨(List.append_nil _).symm, rfl, rfl, hframes, hsync⟩
  | leaf a next ih =>
      cases a with
      | san s =>
          obtain ⟨m, byte, g', hmove, hencode, hg', rfl⟩ := hg
          have hstep := wrote_san hframes hsync hmove hencode
          have hprev : (frame.play m).preMovePositions.getLast? = some frame.position := by
            simp [ImportFrame.play]
          have hnext := ih hstep.frames hstep.synced (hprev ▸ hg')
          have hrun := hstep.trans hnext
          simp only [lineMoves, hmove]
          exact hrun
      | comment raw =>
          obtain ⟨g', hg', rfl⟩ := hg
          have hstep := wrote_pushBytes hsync (encodeComment (fromUtf8Lossy raw))
          have hnext := ih (hstep.frames.trans hframes) hstep.synced hg'
          have htext : (fromUtf8Lossy raw).toList = Utf8.lossy raw := String.toList_ofList
          rw [storedBytes_commentForest, ← htext]
          exact hstep.trans hnext
      | nag code =>
          obtain ⟨g', hg', rfl⟩ := hg
          have hstep := wrote_pushBytes hsync (encodeNag (nagToString code))
          have hnext := ih (hstep.frames.trans hframes) hstep.synced hg'
          rw [storedBytes_leaf, Chunk.bytes, ← encodeNag_nagToString]
          exact hstep.trans hnext
  | branch inner next ihInner ihNext =>
      obtain ⟨gInner, gNext, hInner, hNext, rfl⟩ := hg
      have hbegin := wrote_beginVariation hframes hsync
      have hinner := ihInner hbegin.frames hbegin.synced hInner
      have hend := wrote_endVariation hinner.frames
      have hnext := ihNext hend.frames hend.synced hNext
      have hrun := ((hbegin.trans hinner).trans hend).trans hnext
      have hbytes : storedBytes (.branch gInner gNext) =
          [variationStartMarker] ++ storedBytes gInner ++ [variationEndMarker] ++
            storedBytes gNext := by
        simp
      rw [visitAll_branch, hbytes]
      exact hrun

/-- Nothing but a new game clears the skip mark. -/
theorem skip_visit {imp : Importer S} (h : imp.skip = true) (e : Event S) :
    (imp.visit e).skip = true := by
  cases e with
  | leaf a =>
      cases a with
      | san s =>
          have hensure : imp.ensureFrame.skip = true := by
            rw [ensureFrame]
            split <;> exact h
          simp only [visit, san]
          repeat' split
          all_goals first
            | rfl
            | exact hensure
      | comment raw => exact h
      | nag code => exact h
  | enter =>
      have hensure : imp.ensureFrame.skip = true := by
        rw [ensureFrame]
        split <;> exact h
      simp only [visit, beginVariation]
      split
      · rfl
      · exact hensure
  | leave =>
      simp only [visit, endVariation, pushBytes]
      repeat' split
      all_goals first
        | rfl
        | exact h

theorem skip_visitAll {imp : Importer S} (h : imp.skip = true) (events : List (Event S)) :
    (imp.visitAll events).skip = true := by
  induction events generalizing imp with
  | nil => exact h
  | cons e events ih => exact ih (skip_visit h e)

theorem skip_eq_false_of_visitAll {imp : Importer S} {events : List (Event S)}
    (h : (imp.visitAll events).skip = false) : imp.skip = false := by
  by_contra hskip
  rw [skip_visitAll (Bool.eq_true_of_not_eq_false hskip)] at h
  cases h

/-- A move that is kept was encoded. -/
theorem encoded_of_kept {imp : Importer S} {frame : ImportFrame S}
    {parents : List (ImportFrame S)} (hframes : imp.frames = frame :: parents) {s : S.San}
    (hkept : (imp.san s).skip = false) :
    ∃ m byte, S.toMove s frame.position = some m ∧ encodeMove S m frame.position = .ok byte := by
  cases hmove : S.toMove s frame.position with
  | none => simp [san, ensureFrame_of_frames hframes, hframes, hmove] at hkept
  | some m =>
      cases hencode : encodeMove S m frame.position with
      | error e => simp [san, ensureFrame_of_frames hframes, hframes, hmove, hencode] at hkept
      | ok byte => exact ⟨m, byte, rfl, hencode⟩

/-- A game that is kept had every move encoded. -/
theorem exists_encodes_of_kept {f : Forest (EventLeaf S)} {imp : Importer S}
    {frame : ImportFrame S} {parents : List (ImportFrame S)}
    (hframes : imp.frames = frame :: parents) (hsync : imp.Synced)
    (hkept : (imp.visitAll f.tokens).skip = false) :
    ∃ g, Encodes S f frame.position frame.preMovePositions.getLast? g := by
  induction f generalizing imp frame parents with
  | nil => exact ⟨.nil, rfl⟩
  | leaf a next ih =>
      cases a with
      | san s =>
          obtain ⟨m, byte, hmove, hencode⟩ :=
            encoded_of_kept hframes (skip_eq_false_of_visitAll hkept)
          have hstep := wrote_san hframes hsync hmove hencode
          obtain ⟨g', hg'⟩ := ih hstep.frames hstep.synced hkept
          have hprev : (frame.play m).preMovePositions.getLast? = some frame.position := by
            simp [ImportFrame.play]
          rw [hprev] at hg'
          exact ⟨_, m, ⟨byte, (encodeMove_eq_ok S hencode).1⟩, g', hmove, hencode, hg', rfl⟩
      | comment raw =>
          have hstep := wrote_pushBytes hsync (encodeComment (fromUtf8Lossy raw))
          obtain ⟨g', hg'⟩ := ih (hstep.frames.trans hframes) hstep.synced hkept
          exact ⟨_, g', hg', rfl⟩
      | nag code =>
          have hstep := wrote_pushBytes hsync (encodeNag (nagToString code))
          obtain ⟨g', hg'⟩ := ih (hstep.frames.trans hframes) hstep.synced hkept
          exact ⟨_, g', hg', rfl⟩
  | branch inner next ihInner ihNext =>
      rw [visitAll_branch] at hkept
      have hend : (imp.beginVariation.visitAll inner.tokens).endVariation.skip = false :=
        skip_eq_false_of_visitAll hkept
      have hinnerKept : (imp.beginVariation.visitAll inner.tokens).skip = false := by
        by_contra hskip
        have hleave := skip_visit (Bool.eq_true_of_not_eq_false hskip) .leave
        rw [visit, hend] at hleave
        cases hleave
      have hbegin := wrote_beginVariation hframes hsync
      obtain ⟨gInner, hInner⟩ := ihInner hbegin.frames hbegin.synced hinnerKept
      have hinner := wrote_visitAll hbegin.frames hbegin.synced hInner
      have hstep := wrote_endVariation hinner.frames
      obtain ⟨gNext, hNext⟩ := ihNext hstep.frames hstep.synced hkept
      exact ⟨_, gInner, gNext, hInner, hNext, rfl⟩

/-- A game that is kept was kept by its headers and by its movetext. -/
theorem readGame_kept {imp : Importer S} {fenHeader : Option (List UInt8)}
    {events : List (Event S)} {game : TempGame S}
    (h : imp.readGame fenHeader events = some game) :
    ∃ headers, fenHeader.elim imp.beginGame imp.beginGame.headerFen = headers ∧
      headers.skip = false ∧ (headers.endHeaders.1.visitAll events).skip = false ∧
      game = (headers.endHeaders.1.visitAll events).game := by
  rw [readGame] at h
  generalize hheaders : fenHeader.elim imp.beginGame imp.beginGame.headerFen = headers at h
  have hskip : headers.endHeaders.2 = headers.skip := rfl
  simp only [hskip, endGame] at h
  refine ⟨headers, rfl, ?_⟩
  split_ifs at h with hheader hvisit hvisit
  · rw [show headers.endHeaders.1.skip = headers.skip from rfl, hheader] at hvisit
    exact absurd rfl hvisit
  · exact ⟨Bool.eq_false_iff.mpr hheader, Bool.eq_false_iff.mpr hvisit,
      (Option.some.inj h).symm⟩

end Importer

end EnCroissant
