import EnCroissant.Tree.Reloading
import EnCroissant.Tree.StoreRuns

/-!
# A game that is saved and loaded again

The tags of a save lead to its start position and its result, and its moves to a tree with the
same nodes.
-/

namespace EnCroissant.Saving

open RoseTree
open PgnHeaders (JsonValue Token)

variable {ι : Type} {C : Chessops} {R : CommentReader} {ref : ι} {F : NumberFormat}
  {opt : SaveOptions} {S : PgnLexer.SanReader}

/-! ## Tags -/

/-- Moves and comments are no tags. -/
theorem get?_collect_parts {name : String} (hname : name ≠ "Result") (parts : List PgnPart)
    (r : Record String Text) :
    ((partsTokens parts).foldl PgnHeaders.collectTag r).get? name = r.get? name := by
  induction parts generalizing r with
  | nil => rfl
  | cons part parts ih =>
      have hcons : partsTokens (part :: parts) = part.tokens ++ partsTokens parts := rfl
      rw [hcons, List.foldl_append, ih]
      cases part with
      | result outcome =>
          have htokens : (PgnPart.result outcome).tokens =
              [.outcome (PgnHeaders.resultText outcome)] := rfl
          rw [htokens, List.foldl_cons, List.foldl_nil, PgnHeaders.collectTag, Record.get?_set,
            if_neg hname]
      | glyph code => rfl
      | nag code => rfl
      | _ => rfl

/-- Below a start position of its own, a save names it. -/
theorem get?_fen_savedTags {root : TreeNode ι} {headers : PgnHeaders.GameHeaders}
    (hfen : headers.other.get? "FEN" = none) :
    (Record.ofList (savedTags root headers)).get? "FEN" =
      if root.label.fen = initialFen then none else some root.label.fen := by
  have hother : (savedHeaders root headers).other.get? "FEN" = none := by
    have hwithout : (headers.other.without (· == "Termination")).get? "FEN" = none := by
      rw [Record.get?_without, hfen]
      exact ite_self none
    rw [savedHeaders]
    dsimp only
    split
    · rw [Record.get?_set, if_neg (by decide), hwithout]
    · exact hwithout
  have hknown : (savedHeaders root headers).rows.lookup "FEN" = none := rfl
  rw [Record.get?_ofList, savedTags, List.reverse_append, List.reverse_append, List.lookup_append,
    List.lookup_append, Record.lookup_reverse (PgnHeaders.nodup_setUpTags _),
    Record.lookup_reverse (PgnHeaders.nodup_otherTags _),
    Record.lookup_reverse (PgnHeaders.nodup_knownTags _), PgnHeaders.lookup_otherTags, hother,
    PgnHeaders.lookup_knownTags, hknown, ite_self, PgnHeaders.setUpTags]
  split_ifs
  · rfl
  · rfl

/-- The tokens of a save. -/
def savedTokens (F : NumberFormat) [DecidableEq ι] (root : TreeNode ι)
    (headers : PgnHeaders.GameHeaders) : List Token :=
  (savedTags root headers).map PgnLexer.headerToken ++ (rootTokens F root.label ++
    belowTokens F .all (omittedEnd root (some headers)) root ++
      [.outcome (PgnHeaders.resultText headers.result)])

theorem fen_headersOf (parseJson : Text → Option JsonValue) (r : Record String Text) :
    (PgnHeaders.headersOf parseJson r).fen = normalizeFen ((r.get? "FEN").getD []) := rfl

theorem result_headersOf (parseJson : Text → Option JsonValue) (r : Record String Text) :
    (PgnHeaders.headersOf parseJson r).result = PgnHeaders.parseResult (r.get? "Result") := rfl

variable (F) in
/-- A save says where its game starts and how it ends. -/
theorem getPgnHeaders_saved [DecidableEq ι] (parseJson : Text → Option JsonValue)
    {root : TreeNode ι} {headers : PgnHeaders.GameHeaders}
    (hfen : headers.other.get? "FEN" = none)
    (hnormal : normalizeFen root.label.fen = root.label.fen) :
    (PgnHeaders.getPgnHeaders parseJson (savedTokens F root headers)).fen = root.label.fen ∧
      (PgnHeaders.getPgnHeaders parseJson (savedTokens F root headers)).result =
        headers.result := by
  rw [PgnHeaders.getPgnHeaders, fen_headersOf, result_headersOf]
  constructor
  · have hget : (PgnHeaders.readTags (savedTokens F root headers)).get? "FEN" =
        (Record.ofList (savedTags root headers)).get? "FEN" := by
      rw [savedTokens, ← partsTokens_gameParts, PgnHeaders.readTags, List.foldl_append,
        get?_collect_parts (by decide), ← PgnHeaders.readTags_escaped]
      rfl
    rw [hget, get?_fen_savedTags hfen]
    split_ifs with hinitial
    · rw [hinitial]
      rfl
    · exact hnormal
  · rw [savedTokens, PgnHeaders.readTags, List.foldl_append, List.foldl_append, List.foldl_cons,
      List.foldl_nil, PgnHeaders.collectTag, Record.get?_set, if_pos rfl,
      PgnHeaders.parseResult_resultText]

/-! ## The tree -/

theorem Kept.sameMove {index : ℕ} {a b b' : NodeData ι} (h : Kept opt index a b)
    (hsame : SameMove b b') : Kept opt index a b' :=
  ⟨hsame.fen.trans h.fen, hsame.san.trans h.san, hsame.halfMoves.trans h.halfMoves,
    hsame.nags.trans h.nags, hsame.startingComment.trans h.startingComment⟩

/-- Marks of an end change none of what is kept. -/
theorem SameBelow.relabels {t u u' : TreeNode ι} (h : SameBelow opt t u)
    (hu : Relabels SameMove u u') : SameBelow opt t u' := by
  intro path index
  have hkept := h path index
  have hsame := hu (path ++ [index])
  generalize t.labelAt (path ++ [index]) = a, u.labelAt (path ++ [index]) = b,
    u'.labelAt (path ++ [index]) = b' at hkept hsame ⊢
  cases hkept with
  | none =>
      cases hsame
      exact .none
  | some hkept =>
      cases hsame with
      | some hsame => exact .some (hkept.sameMove hsame)

theorem relabels_applyGameEndLoadDefault {s : TreeState ι} {root : TreeNode ι}
    (hs : s.root = root) : Relabels SameMove root (applyGameEndLoadDefault s).root := by
  subst hs
  have hrefl : Relabels SameMove s.root s.root := relabels_refl SameMove.refl s.root
  rw [applyGameEndLoadDefault]
  dsimp only
  split
  · exact hrefl
  · split
    · exact hrefl
    · dsimp only
      apply relabels_updateLabel SameMove.refl
      exact fun data ↦ ⟨rfl, rfl, rfl, rfl, rfl⟩

theorem result_applyGameEndLoadDefault (s : TreeState ι) :
    (applyGameEndLoadDefault s).headers.result = s.headers.result := by
  rw [applyGameEndLoadDefault]
  dsimp only
  split
  · rfl
  · split
    · rfl
    · rfl

variable (C R ref) in
/-- Loading a game only marks an end in the tree that is read. -/
theorem loadGame_relabels (parseJson : Text → Option JsonValue) (tokens : List Token) :
    Relabels SameMove
        (innerParsePGN C R ref (PgnHeaders.getPgnHeaders parseJson tokens).fen.trim tokens).1
        (loadGame C R parseJson ref [] tokens).root ∧
      (loadGame C R parseJson ref [] tokens).headers.result =
        (PgnHeaders.getPgnHeaders parseJson tokens).result := by
  have hnil : Text.trim [] = [] := rfl
  rw [loadGame]
  generalize PgnHeaders.getPgnHeaders parseJson tokens = headers
  rw [if_pos hnil]
  generalize innerParsePGN C R ref headers.fen.trim tokens = read
  constructor
  · exact relabels_applyGameEndLoadDefault rfl
  · apply result_applyGameEndLoadDefault

theorem readTokens_headers {isVariation : Bool} {parent : Option (NodeData ι)} {node : NodeData ι}
    {children siblings : List (TreeNode ι)} {st : ReadState} (hended : st.ended = false)
    (tags : List (String × Text)) (tokens : List Token) :
    readTokens C R ref isVariation parent node children siblings st
        (tags.map PgnLexer.headerToken ++ tokens) =
      readTokens C R ref isVariation parent node children siblings st tokens := by
  induction tags with
  | nil => rfl
  | cons tag tags ih =>
      rw [List.map_cons, List.cons_append, PgnLexer.headerToken, readTokens_header hended]
      exact ih

section

variable [DecidableEq ι]

variable (F R ref) in
/-- The tokens of a save are read into a tree with its nodes. -/
theorem innerParsePGN_saved (laws : C.FenLaws) (sanLaws : SanLaws C S) {root : TreeNode ι}
    {headers : PgnHeaders.GameHeaders} (hconsistent : Consistent C root)
    (hnormal : normalizeFen root.label.fen = root.label.fen) (h : SavableGame S root headers) :
    SameBelow .all root (innerParsePGN C R ref root.label.fen (savedTokens F root headers)).1 ∧
      SameMove (rootData C ref root.label.fen)
        (innerParsePGN C R ref root.label.fen (savedTokens F root headers)).1.label ∧
      ∀ loss ∈ (innerParsePGN C R ref root.label.fen (savedTokens F root headers)).2,
        loss ∈ commentLosses := by
  obtain ⟨comments, hcomments⟩ := rootTokens_eq F h.noMove
  have hroot : StandsFor (rootData C ref root.label.fen) root.label := by
    refine ⟨hnormal, ?_⟩
    rw [hconsistent.root, rootData, hnormal]
  obtain ⟨node, st, hsame, hproceeds, hstart⟩ := readTokens_comments C R ref false none
    (rootData C ref root.label.fen) [] [] {} rfl rfl comments
  have hrereads : Rereads C R ref F .all (omittedEnd root (some headers)) root.label
      root.children :=
    rereads_below laws sanLaws rfl root hnormal hconsistent.follows h.below
  obtain ⟨node', ds, st', hsame', hline, hlosses, hread⟩ := hrereads false none node [] [] st
    [.outcome (PgnHeaders.resultText headers.result)] (hroot.sameMove hsame) rfl hproceeds.ended
    (.inr ⟨rfl, _, rfl⟩)
  have hparse : readTokens C R ref false none (rootData C ref root.label.fen) [] [] {}
      (savedTokens F root headers) = ⟨.node node' ds, [], st'⟩ := by
    rw [savedTokens, readTokens_headers rfl, hcomments, List.append_assoc, hstart, belowTokens_eq,
      hread, List.nil_append]
  rw [innerParsePGN, hparse]
  refine ⟨SameLine.sameBelow hline, hsame.trans hsame', ?_⟩
  obtain ⟨lost, hlost, hlittle⟩ := hproceeds.losses.trans hlosses
  intro loss hloss
  rw [hlost, List.nil_append] at hloss
  exact hlittle loss hloss

theorem trim_of_normal {fen : Text} (h : normalizeFen fen = fen) : fen.trim = fen := by
  have hinitial : initialFen.trim = initialFen := by decide
  rw [normalizeFen] at h
  split at h
  · rw [← h, hinitial]
  · exact h

end

end EnCroissant.Saving

namespace EnCroissant.KingPawn

open Saving

/-- Knows the moves of the sample. -/
def sanReader : PgnLexer.SanReader where
  fromAscii text :=
    if text = "e4".toList ∨ text = "e5".toList ∨ text = "d4".toList then some text else none

def numberFormat : NumberFormat := ⟨fun _ ↦ ['0'], fun _ ↦ ['0'], fun _ ↦ ['0']⟩

theorem braceless_numberFormat : numberFormat.Braceless :=
  have hzero : '\x7d' ∉ ['0'] := by decide
  ⟨fun _ ↦ hzero, fun _ ↦ hzero, fun _ ↦ hzero⟩

def drawn : PgnHeaders.GameHeaders where
  fen := initialFen
  event := []
  site := []
  date := []
  time := none
  round := []
  white := []
  whiteElo := none
  black := []
  blackElo := none
  result := .draw
  timeControl := none
  whiteTimeControl := none
  blackTimeControl := none
  eco := none
  variant := none
  start := none
  orientation := none
  other := Record.empty

theorem reads_san {san : Text} (h : san ∈ ["e4".toList, "e5".toList, "d4".toList]) :
    sanReader.Reads san := by
  refine ⟨?_, ?_, if_pos (by simpa using h)⟩
  · fin_cases h <;> simp
  · fin_cases h <;> simp [PgnLexer.isTokenEnd, Text.isSpace]

theorem sanLaws : SanLaws chessops sanReader where
  reads := by
    intro pos move h
    obtain ⟨found, hfound, rfl⟩ := isLegal_iff.mp h
    apply reads_san
    revert found
    cases pos <;> decide
  parse := by
    intro pos move h
    obtain ⟨found, hfound, rfl⟩ := isLegal_iff.mp h
    refine ⟨found.1, ?_, rfl⟩
    revert found
    cases pos <;> decide

theorem tags_tree : savedTags tree drawn = [("Event", ['?']), ("Site", ['?']),
    ("Date", "????.??.??".toList), ("Round", ['?']), ("White", ['?']), ("Black", ['?']),
    ("Result", "1/2-1/2".toList)] := by
  decide +kernel

theorem savable_tree : SavableGame sanReader tree drawn where
  tags := by
    have hall : (savedTags tree drawn).all (fun tag ↦
        tag.1.toList.all Char.isAlpha && tag.2.all (· ≠ '\n')) = true := by
      rw [tags_tree]
      rfl
    intro tag htag
    have htag := List.all_eq_true.mp hall tag htag
    rw [Bool.and_eq_true] at htag
    obtain ⟨hname, hvalue⟩ := htag
    refine ⟨⟨PgnHeaders.legibleName_of_isAlpha hname, fun hmem ↦ ?_⟩, fun c hc ↦ ?_⟩
    · exact absurd (List.all_eq_true.mp hvalue _ hmem) (by decide)
    · have halpha := List.all_eq_true.mp hname c (List.mem_of_getLast? hc)
      constructor <;> rintro rfl <;> cases halpha
  fen := by
    have hall : initialFen.all (fun c ↦ !PgnHeaders.isEscaped c) = true := rfl
    have hplain : ∀ c ∈ initialFen, PgnHeaders.isEscaped c = false := by simpa using hall
    exact hplain
  start := ⟨⟨by decide, nofun, nofun, nofun⟩, nofun, by decide⟩
  noMove := rfl
  below := by
    have hmove : ∀ (data : NodeData ℕ) (san : Text), data.san = some san →
        san ∈ ["e4".toList, "e5".toList, "d4".toList] → data.comment = [] →
        data.commands = none → data.startingComment = none → data.nags = [] →
        0 ≤ data.halfMoves → Savable sanReader data ∧ data.san.isSome := by
      intro data san hsan hmem hcomment hcommands hstart hnags hply
      refine ⟨⟨⟨?_, ?_, ?_, ?_⟩, ?_, hply⟩, ?_⟩
      · simp [hcomment]
      · simp [hcommands]
      · simp [hstart]
      · simp [hnags]
      · rw [hsan]
        rintro _ ⟨⟩
        exact reads_san hmem
      · rw [hsan]
        rfl
    refine .node ?_ fun c hc ↦ ?_
    · intro child hchild
      rcases List.mem_cons.mp hchild with rfl | hchild
      · exact hmove _ "e4".toList rfl (by decide) rfl rfl rfl rfl (by decide)
      · obtain rfl := List.mem_singleton.mp hchild
        exact hmove _ "d4".toList rfl (by decide) rfl rfl rfl rfl (by decide)
    · rcases List.mem_cons.mp hc with rfl | hc
      · refine .node ?_ fun c hc ↦ ?_
        · intro child hchild
          obtain rfl := List.mem_singleton.mp hchild
          exact hmove _ "e5".toList rfl (by decide) rfl rfl rfl rfl (by decide)
        · obtain rfl := List.mem_singleton.mp hc
          exact .leaf (by simp)
      · obtain rfl := List.mem_singleton.mp hc
        exact .leaf (by simp)

theorem size_tree :
    (Utf8.encode (serializeStoreTree numberFormat tree drawn)).length ≤ PgnLexer.maxPgnLength := by
  decide +kernel

end EnCroissant.KingPawn
