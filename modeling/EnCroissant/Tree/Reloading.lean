import EnCroissant.Tree.Saved

/-!
# Reading a saved game

The reader follows the writer: a move is read behind the moves in front of it, its codes and
its comments go to its node, and the variations behind it become its siblings.
-/

namespace EnCroissant.Saving

open RoseTree
open PgnHeaders (Token)

variable {ι : Type} {C : Chessops} {R : CommentReader} {ref : ι}

/-! ## Comments -/

/-- What is lost where a comment says a thing twice. -/
def commentLosses : List Loss := [.multipleClocks, .multipleEvaluations, .multipleGameEnds]

/-- What is lost besides is what comments say twice. -/
def LosesLittle (st st' : ReadState) : Prop :=
  ∃ lost, st'.losses = st.losses ++ lost ∧ ∀ loss ∈ lost, loss ∈ commentLosses

theorem LosesLittle.of_eq {st st' : ReadState} (h : st'.losses = st.losses) : LosesLittle st st' :=
  ⟨[], by rw [h, List.append_nil], nofun⟩

theorem LosesLittle.trans {st st' st'' : ReadState} (h : LosesLittle st st')
    (h' : LosesLittle st' st'') : LosesLittle st st'' := by
  obtain ⟨lost, hlosses, hlost⟩ := h
  obtain ⟨lost', hlosses', hlost'⟩ := h'
  refine ⟨lost ++ lost', ?_, ?_⟩
  · rw [hlosses', hlosses, List.append_assoc]
  · rw [List.forall_mem_append]
    exact ⟨hlost, hlost'⟩

/-- The reader goes on, and loses little. -/
structure Proceeds (st st' : ReadState) : Prop where
  ended : st'.ended = st.ended
  losses : LosesLittle st st'

theorem Proceeds.refl (st : ReadState) : Proceeds st st := ⟨rfl, .of_eq rfl⟩

theorem Proceeds.trans {st st' st'' : ReadState} (h : Proceeds st st') (h' : Proceeds st' st'') :
    Proceeds st st'' :=
  ⟨h'.ended.trans h.ended, h.losses.trans h'.losses⟩

theorem Proceeds.lose {st st' : ReadState} (h : Proceeds st st') {loss : Loss}
    (hloss : loss ∈ commentLosses) : Proceeds st (st'.lose loss) :=
  h.trans ⟨rfl, [loss], rfl, List.forall_mem_singleton.mpr hloss⟩

theorem Proceeds.loseIf {st st' : ReadState} (h : Proceeds st st') (condition : Bool) {loss : Loss}
    (hloss : loss ∈ commentLosses) : Proceeds st (st'.loseIf condition loss) := by
  rw [ReadState.loseIf]
  split
  · exact h.lose hloss
  · exact h

/-- What comments leave in a node. -/
structure SameMove (node node' : NodeData ι) : Prop where
  fen : node'.fen = node.fen
  san : node'.san = node.san
  halfMoves : node'.halfMoves = node.halfMoves
  nags : node'.nags = node.nags
  startingComment : node'.startingComment = node.startingComment

theorem SameMove.refl (node : NodeData ι) : SameMove node node := ⟨rfl, rfl, rfl, rfl, rfl⟩

theorem SameMove.trans {a b c : NodeData ι} (h : SameMove a b) (h' : SameMove b c) :
    SameMove a c :=
  ⟨h'.fen.trans h.fen, h'.san.trans h.san, h'.halfMoves.trans h.halfMoves, h'.nags.trans h.nags,
    h'.startingComment.trans h.startingComment⟩

theorem proceeds_countCommand (st : ReadState) (found : CommentCommand) :
    Proceeds st (R.countCommand st found) := by
  have hclocks : ∀ (st : ReadState) (clocks : ℕ), Proceeds st { st with clocks := clocks } :=
    fun st _ ↦ ⟨rfl, .of_eq rfl⟩
  have hevaluations : ∀ (st : ReadState) (evaluations : ℕ),
      Proceeds st { st with evaluations := evaluations } := fun st _ ↦ ⟨rfl, .of_eq rfl⟩
  rw [CommentReader.countCommand]
  have hfirst : Proceeds st
      (if (R.splitPgnComment found.text false).clock.isSome then
        ReadState.loseIf { st with clocks := st.clocks + 1 } (decide (1 < st.clocks + 1))
          .multipleClocks
      else st) := by
    split
    · exact (hclocks st _).loseIf _ (by decide)
    · exact .refl st
  split
  · exact (hfirst.trans (hevaluations _ _)).loseIf _ (by decide)
  · exact hfirst

theorem proceeds_readComment {isVariation atRoot : Bool} (h : (isVariation && atRoot) = false)
    (node : NodeData ι) (st : ReadState) (value : Text) :
    SameMove node (R.readComment isVariation atRoot node st value).1 ∧
      Proceeds st (R.readComment isVariation atRoot node st value).2 := by
  have hcount : ∀ (found : List CommentCommand) (st : ReadState),
      Proceeds st (found.foldl R.countCommand st) := by
    intro found
    induction found with
    | nil => exact Proceeds.refl
    | cons command found ih =>
        intro st
        exact (proceeds_countCommand st command).trans (ih _)
  have hend : ∀ (found : NodeData ι × ReadState) (gameEnd : GameEnd),
      SameMove found.1 (CommentReader.addGameEnd found gameEnd).1 ∧
        Proceeds found.2 (CommentReader.addGameEnd found gameEnd).2 := by
    intro found gameEnd
    rw [CommentReader.addGameEnd]
    split
    · exact ⟨.refl found.1, (Proceeds.refl found.2).lose (by decide)⟩
    · exact ⟨⟨rfl, rfl, rfl, rfl, rfl⟩, .refl found.2⟩
  have hends : ∀ (ends : List GameEnd) (found : NodeData ι × ReadState),
      SameMove found.1 (ends.foldl CommentReader.addGameEnd found).1 ∧
        Proceeds found.2 (ends.foldl CommentReader.addGameEnd found).2 := by
    intro ends
    induction ends with
    | nil => exact fun found ↦ ⟨.refl found.1, .refl found.2⟩
    | cons gameEnd ends ih =>
        intro found
        obtain ⟨hsame, hproceeds⟩ := hend found gameEnd
        obtain ⟨hsame', hproceeds'⟩ := ih (CommentReader.addGameEnd found gameEnd)
        exact ⟨hsame.trans hsame', hproceeds.trans hproceeds'⟩
  rw [CommentReader.readComment]
  dsimp only
  rw [h]
  have hcounted := hcount (commandsIn value) st
  obtain ⟨hsame, hproceeds⟩ := hends (R.splitPgnComment value !atRoot).gameEnds
    (node, (commandsIn value).foldl R.countCommand st)
  exact ⟨hsame.trans ⟨rfl, rfl, rfl, rfl, rfl⟩, hcounted.trans hproceeds⟩

/-! ## One token -/

section

variable {isVariation : Bool} {parent : Option (NodeData ι)} {node : NodeData ι}
  {children siblings : List (TreeNode ι)} {st : ReadState}

theorem readTokens_comment (hended : st.ended = false) (value : Text) (tokens : List Token) :
    readTokens C R ref isVariation parent node children siblings st (.comment value :: tokens) =
      readTokens C R ref isVariation parent
        (R.readComment isVariation parent.isNone node st value).1 children siblings
        (R.readComment isVariation parent.isNone node st value).2 tokens := by
  rw [readTokens]
  simp [hended]

theorem nagCode_digits {code : ℕ} (h : code ≤ maxNag) :
    nagCode ('$' :: Decimal.digits code) = some code := by
  have hdigits : ∀ c ∈ Decimal.digits code, c.isDigit = true := Decimal.isDigit_digits
  have hvalue : Text.digitsValue (Decimal.digits code) = code := Decimal.ofDigitChars_digits
  rw [nagCode, if_pos ⟨Decimal.digits_ne_nil, List.all_eq_true.mpr hdigits⟩, hvalue, if_pos h]

theorem readTokens_nag (hended : st.ended = false) {code : ℕ} (hcode : code ≤ maxNag)
    {data : NodeData ι} (tokens : List Token) :
    readTokens C R ref isVariation (some data) node children siblings st
        (PgnLexer.nagToken code :: tokens) =
      readTokens C R ref isVariation (some data) { node with nags := node.nags ++ [code] } children
        siblings st tokens := by
  rw [PgnLexer.nagToken, readTokens, nagCode_digits hcode]
  simp [hended, ReadState.loseIf]

theorem readTokens_header (hended : st.ended = false) (tag : String) (value : Text)
    (tokens : List Token) :
    readTokens C R ref isVariation parent node children siblings st (.header tag value :: tokens) =
      readTokens C R ref isVariation parent node children siblings st tokens := by
  rw [readTokens]
  simp [hended]

variable (C R ref isVariation parent node children siblings st) in
/-- Comments go to the node, unless it is the root of a variation. -/
theorem readTokens_comments (h : (isVariation && parent.isNone) = false) (hended : st.ended = false)
    (comments : List Text) : ∃ node' st', SameMove node node' ∧ Proceeds st st' ∧
      ∀ tokens, readTokens C R ref isVariation parent node children siblings st
          (comments.map .comment ++ tokens) =
        readTokens C R ref isVariation parent node' children siblings st' tokens := by
  induction comments generalizing node st with
  | nil => exact ⟨node, st, .refl node, .refl st, fun _ ↦ rfl⟩
  | cons comment comments ih =>
      obtain ⟨hsame, hproceeds⟩ := proceeds_readComment (R := R) h node st comment
      obtain ⟨node', st', hsame', hproceeds', hread⟩ := ih _ _ (hproceeds.ended.trans hended)
      refine ⟨node', st', hsame.trans hsame', hproceeds.trans hproceeds', fun tokens ↦ ?_⟩
      rw [List.map_cons, List.cons_append, readTokens_comment hended, hread]

theorem readTokens_nags (hended : st.ended = false) {codes : List ℕ}
    (hcodes : ∀ code ∈ codes, code ≤ maxNag) {data : NodeData ι} (tokens : List Token) :
    readTokens C R ref isVariation (some data) node children siblings st
        (codes.map PgnLexer.nagToken ++ tokens) =
      readTokens C R ref isVariation (some data) { node with nags := node.nags ++ codes } children
        siblings st tokens := by
  induction codes generalizing node with
  | nil => simp
  | cons code codes ih =>
      rw [List.forall_mem_cons] at hcodes
      rw [List.map_cons, List.cons_append, readTokens_nag hended hcodes.1, ih hcodes.2]
      simp

end

/-! ## One move -/

variable {F : NumberFormat} {opt : SaveOptions} {S : PgnLexer.SanReader}

def startComments (opt : SaveOptions) (data : NodeData ι) : List Text :=
  if opt.comments then (truthy data.startingComment).toList else []

/-- The codes of a node as a save has them. -/
def keptNags (opt : SaveOptions) (data : NodeData ι) : List ℕ :=
  if opt.glyphs then sortedNags data.nags else []

theorem partsTokens_nagParts (codes : List ℕ) :
    partsTokens (nagParts codes) = codes.map PgnLexer.nagToken := by
  have hbehind : ∀ codes : List ℕ,
      partsTokens (codes.flatMap nagPart) = codes.map PgnLexer.nagToken := by
    intro codes
    induction codes with
    | nil => rfl
    | cons code codes ih =>
        rw [List.flatMap_cons, partsTokens_append, ih]
        rfl
  cases codes with
  | nil => rfl
  | cons code codes =>
      rw [nagParts, partsTokens_append, hbehind]
      split <;> rfl

theorem partsTokens_startingParts (opt : SaveOptions) (data : NodeData ι) :
    partsTokens (startingParts opt data) = (startComments opt data).map .comment := by
  rw [startingParts, startComments]
  cases truthy data.startingComment with
  | none => cases opt.comments <;> rfl
  | some comment => cases opt.comments <;> rfl

theorem partsTokens_contentParts (F : NumberFormat) (opt : SaveOptions) (data : NodeData ι) :
    ∃ comments : List Text, partsTokens (contentParts F opt data) = comments.map .comment := by
  rw [contentParts]
  split
  · exact ⟨[], rfl⟩
  · exact ⟨[commentContent F opt data], rfl⟩

theorem partsTokens_gameEndParts (opt : SaveOptions) (data : NodeData ι) (omitGameEnd : Bool) :
    ∃ comments : List Text,
      partsTokens (gameEndParts opt data omitGameEnd) = comments.map .comment := by
  rw [gameEndParts]
  split
  · next gameEnd _ =>
    split
    · exact ⟨[gameEndComment gameEnd], rfl⟩
    · exact ⟨[], rfl⟩
  · exact ⟨[], rfl⟩

/-- The tokens of a move: the comments in front of it, its notation, its codes and its comments. -/
theorem moveTokens_eq [DecidableEq ι] (F : NumberFormat) (opt : SaveOptions)
    (omitGameEnd : Option ι) {data : NodeData ι} {san : Text} (hsan : data.san = some san)
    (hne : san ≠ []) : ∃ comments : List Text,
      moveTokens F opt omitGameEnd data = (startComments opt data).map .comment ++
        .san san :: ((keptNags opt data).map PgnLexer.nagToken ++ comments.map .comment) := by
  have htruthy : truthy data.san = some san := by
    rw [hsan]
    exact Option.filter_some_pos (by simpa using hne)
  have hmove : partsTokens (sanParts opt data true) =
      .san san :: (keptNags opt data).map PgnLexer.nagToken := by
    have hnumber : partsTokens (numberParts data true) = [] := by
      rw [numberParts]
      split_ifs <;> rfl
    have hnags : partsTokens (if opt.glyphs then nagParts (sortedNags data.nags) else []) =
        (keptNags opt data).map PgnLexer.nagToken := by
      rw [keptNags]
      split
      · exact partsTokens_nagParts _
      · rfl
    have hcons : ∀ part parts, partsTokens (part :: parts) = part.tokens ++ partsTokens parts :=
      fun _ _ ↦ rfl
    simp only [sanParts, htruthy]
    rw [partsTokens_append, partsTokens_append, hnumber, hcons, hnags]
    simp [PgnPart.tokens, partsTokens]
  obtain ⟨content, hcontent⟩ := partsTokens_contentParts F opt data
  obtain ⟨ends, hend⟩ := partsTokens_gameEndParts opt data (omits omitGameEnd data)
  refine ⟨content ++ ends, ?_⟩
  rw [moveTokens, moveParts, partsTokens_append, partsTokens_append, partsTokens_append,
    partsTokens_startingParts, hmove, hcontent, hend]
  simp

/-- In front of the first move stand comments only. -/
theorem rootTokens_eq (F : NumberFormat) {data : NodeData ι} (h : data.san = none) :
    ∃ comments : List Text, rootTokens F data = comments.map .comment := by
  obtain ⟨content, hcontent⟩ := partsTokens_contentParts F .all data
  obtain ⟨ends, hend⟩ := partsTokens_gameEndParts .all data false
  have hsan : sanParts .all data false = [] := by
    rw [sanParts, h]
    rfl
  refine ⟨startComments .all data ++ content ++ ends, ?_⟩
  rw [rootTokens, moveParts, hsan, List.append_nil, partsTokens_append, partsTokens_append,
    partsTokens_startingParts, hcontent, hend]
  simp

/-! ## Brackets -/

/-- The brackets in these tokens close each other. -/
def Balanced (tokens : List Token) : Prop :=
  ∀ count rest, takeVariation count (tokens ++ rest) =
    (tokens ++ (takeVariation count rest).1, (takeVariation count rest).2)

theorem balanced_nil : Balanced [] := fun _ _ ↦ rfl

theorem Balanced.append {tokens tokens' : List Token} (h : Balanced tokens)
    (h' : Balanced tokens') : Balanced (tokens ++ tokens') := by
  intro count rest
  rw [List.append_assoc, h, h', List.append_assoc]

theorem Balanced.wrap {tokens : List Token} (h : Balanced tokens) :
    Balanced (.parenOpen :: (tokens ++ [.parenClose])) := by
  intro count rest
  have hopen : ∀ rest, takeVariation count (.parenOpen :: rest) =
      (.parenOpen :: (takeVariation (count + 1) rest).1, (takeVariation (count + 1) rest).2) := by
    intro rest
    rw [takeVariation]
  have hclose : takeVariation (count + 1) (.parenClose :: rest) =
      (.parenClose :: (takeVariation count rest).1, (takeVariation count rest).2) := by
    rw [takeVariation]
    · rfl
    · simp
  rw [List.cons_append, List.append_assoc, hopen, h, List.singleton_append, hclose]
  simp

/-- Neither a move nor what belongs to it is a bracket. -/
theorem balanced_of_plain {tokens : List Token}
    (h : ∀ token ∈ tokens, token ≠ .parenOpen ∧ token ≠ .parenClose) : Balanced tokens := by
  induction tokens with
  | nil => exact balanced_nil
  | cons token tokens ih =>
      rw [List.forall_mem_cons] at h
      obtain ⟨⟨hopen, hclose⟩, hrest⟩ := h
      intro count rest
      have hone : ∀ rest, takeVariation count (token :: rest) =
          (token :: (takeVariation count rest).1, (takeVariation count rest).2) := by
        intro rest
        cases token <;>
          first | exact absurd rfl hopen | exact absurd rfl hclose | simp [takeVariation]
      rw [List.cons_append, hone, ih hrest]
      rfl

section

variable [DecidableEq ι] {omitGameEnd : Option ι}

theorem balanced_moveTokens {data : NodeData ι} (h : ∃ san, data.san = some san ∧ san ≠ []) :
    Balanced (moveTokens F opt omitGameEnd data) := by
  obtain ⟨san, hsan, hne⟩ := h
  obtain ⟨comments, htokens⟩ := moveTokens_eq F opt omitGameEnd hsan hne
  apply balanced_of_plain
  intro token htoken
  rw [htokens] at htoken
  have hcases : (∃ comment : Text, token = .comment comment) ∨ token = .san san ∨
      ∃ code, token = PgnLexer.nagToken code := by
    simp only [List.mem_append, List.mem_map, List.mem_cons] at htoken
    rcases htoken with ⟨comment, -, rfl⟩ | rfl | ⟨code, -, rfl⟩ | ⟨comment, -, rfl⟩
    · exact .inl ⟨comment, rfl⟩
    · exact .inr (.inl rfl)
    · exact .inr (.inr ⟨code, rfl⟩)
    · exact .inl ⟨comment, rfl⟩
  rcases hcases with ⟨comment, rfl⟩ | rfl | ⟨code, rfl⟩ <;> exact ⟨nofun, nofun⟩

mutual

theorem balanced_belowTokens : ∀ t : TreeNode ι, SavableBelow S t →
    Balanced (belowTokens F opt omitGameEnd t)
  | .node data children => by
      intro h
      rw [belowTokens]
      exact balanced_lineTokens children h.line

theorem balanced_lineTokens : ∀ cs : List (TreeNode ι), SavableLine S cs →
    Balanced (lineTokens F opt omitGameEnd cs)
  | [] => by
      intro _
      rw [lineTokens]
      exact balanced_nil
  | c :: cs => by
      intro h
      obtain ⟨⟨hsavable, hsan, hbelow⟩, hcs⟩ := h.of_cons
      have hmove : Balanced (moveTokens F opt omitGameEnd c.label) :=
        balanced_moveTokens (hsavable.san_ne_nil hsan)
      rw [lineTokens]
      refine (hmove.append ?_).append (balanced_belowTokens c hbelow)
      split
      · exact balanced_variationTokens cs hcs
      · exact balanced_nil

theorem balanced_variationTokens : ∀ vs : List (TreeNode ι), SavableLine S vs →
    Balanced (variationTokens F opt omitGameEnd vs)
  | [] => by
      intro _
      rw [variationTokens]
      exact balanced_nil
  | v :: vs => by
      intro h
      obtain ⟨⟨hsavable, hsan, hbelow⟩, hvs⟩ := h.of_cons
      have hmove : Balanced (moveTokens F opt omitGameEnd v.label) :=
        balanced_moveTokens (hsavable.san_ne_nil hsan)
      have hvariation := (hmove.append (balanced_belowTokens v hbelow)).wrap
      have htokens : variationTokens F opt omitGameEnd (v :: vs) =
          .parenOpen :: (moveTokens F opt omitGameEnd v.label ++ belowTokens F opt omitGameEnd v ++
            [.parenClose]) ++ variationTokens F opt omitGameEnd vs := by
        rw [variationTokens]
        simp
      rw [htokens]
      exact hvariation.append (balanced_variationTokens vs hvs)

end

end

/-- A variation ends where its bracket closes. -/
theorem takeVariation_balanced {tokens : List Token} (h : Balanced tokens) (rest : List Token) :
    takeVariation 0 (tokens ++ .parenClose :: rest) = (tokens, rest) := by
  rw [h]
  simp [takeVariation]

/-! ## What is kept -/

/-- What a node keeps from one save to the next.  A first child has lost the comment in front of
its move, which was read as one behind the move before. -/
structure Kept (opt : SaveOptions) (index : ℕ) (a b : NodeData ι) : Prop where
  fen : b.fen = a.fen
  san : b.san = a.san
  halfMoves : b.halfMoves = a.halfMoves
  nags : b.nags = keptNags opt a
  startingComment : b.startingComment = if index = 0 then none else (startComments opt a).head?

/-- The trees have the same nodes below their roots, each with what it keeps. -/
def SameBelow (opt : SaveOptions) (t u : TreeNode ι) : Prop :=
  ∀ path index, Option.Rel (Kept opt index) (t.labelAt (path ++ [index]))
    (u.labelAt (path ++ [index]))

/-- Siblings from an index on. -/
def SameLine (opt : SaveOptions) (offset : ℕ) (cs ds : List (TreeNode ι)) : Prop :=
  ∀ i, Option.Rel (fun c d ↦ Kept opt (offset + i) c.label d.label ∧ SameBelow opt c d)
    cs[i]? ds[i]?

theorem sameLine_nil (offset : ℕ) : SameLine opt offset ([] : List (TreeNode ι)) [] :=
  fun _ ↦ .none

theorem SameLine.cons {offset : ℕ} {c d : TreeNode ι} {cs ds : List (TreeNode ι)}
    (hkept : Kept opt offset c.label d.label) (hbelow : SameBelow opt c d)
    (h : SameLine opt (offset + 1) cs ds) : SameLine opt offset (c :: cs) (d :: ds) := by
  intro i
  cases i with
  | zero => exact .some ⟨hkept, hbelow⟩
  | succ i =>
      have hrest := h i
      rw [Nat.add_right_comm] at hrest
      exact hrest

theorem SameLine.sameBelow {t u : TreeNode ι} (h : SameLine opt 0 t.children u.children) :
    SameBelow opt t u := by
  intro path index
  cases path with
  | nil =>
      have hchild := h index
      rw [Nat.zero_add] at hchild
      have hlabel : ∀ t : TreeNode ι, t.labelAt ([] ++ [index]) = t.children[index]?.map label := by
        intro t
        rw [List.nil_append, labelAt, nodeAt_cons]
        cases t.children[index]? <;> rfl
      rw [hlabel, hlabel]
      generalize t.children[index]? = c, u.children[index]? = d at hchild ⊢
      cases hchild with
      | none => exact .none
      | some hrel => exact .some hrel.1
  | cons i path =>
      have hlabel : ∀ t : TreeNode ι, t.labelAt (i :: path ++ [index]) =
          t.children[i]?.bind fun c ↦ c.labelAt (path ++ [index]) := by
        intro t
        rw [List.cons_append, labelAt, nodeAt_cons]
        cases t.children[i]? <;> rfl
      rw [hlabel, hlabel]
      have hchild := h i
      generalize t.children[i]? = c, u.children[i]? = d at hchild ⊢
      cases hchild with
      | none => exact .none
      | some hrel => exact hrel.2 path index

/-! ## Reading a move -/

/-- The notation that is written is a word to the lexer, and is read as a move of the same
notation. -/
structure SanLaws (C : Chessops) (S : PgnLexer.SanReader) : Prop where
  reads : ∀ {pos move}, C.isLegal pos move = true → S.Reads (C.makeSan pos move)
  parse : ∀ {pos move}, C.isLegal pos move = true → ∃ move',
    C.parseSan pos (C.makeSan pos move) = some move' ∧ C.makeSan pos move' = C.makeSan pos move

/-- A node that stands for this one: the same position at the same ply. -/
structure StandsFor (node data : NodeData ι) : Prop where
  fen : node.fen = data.fen
  halfMoves : node.halfMoves = data.halfMoves

theorem StandsFor.sameMove {node node' data : NodeData ι} (h : StandsFor node data)
    (hsame : SameMove node node') : StandsFor node' data :=
  ⟨hsame.fen.trans h.fen, hsame.halfMoves.trans h.halfMoves⟩

/-- The node of a move as it is read, before its codes and its comments. -/
structure FreshMove (data child : NodeData ι) : Prop extends StandsFor child data where
  san : child.san = data.san
  nags : child.nags = []
  startingComment : child.startingComment = none

section

theorem readTokens_san (R : CommentReader) (ref : ι) (laws : C.FenLaws) (sanLaws : SanLaws C S)
    {data move : NodeData ι} {san : Text} (hfollows : Follows C data move)
    (hsan : move.san = some san) {node : NodeData ι} (hnode : StandsFor node data) :
    ∃ child, FreshMove move child ∧
      ∀ (isVariation : Bool) (parent : Option (NodeData ι)) (children siblings : List (TreeNode ι))
        (st : ReadState) (tokens : List Token), st.ended = false →
          readTokens C R ref isVariation parent node children siblings st (.san san :: tokens) =
            let read := readTokens C R ref isVariation (some node) child [] []
              { st with clocks := 0, evaluations := 0 } tokens
            ⟨.node node (children ++ read.node :: read.siblings), siblings, read.state⟩ := by
  obtain ⟨⟨pos, played, hpos, -, hlegal, hsanText, hfen⟩, hply⟩ := hfollows
  obtain rfl : san = C.makeSan pos played := Option.some.inj (hsan.symm.trans hsanText)
  obtain ⟨move', hparse, hsame⟩ := sanLaws.parse hlegal
  have hlegal' : C.isLegal pos move' = true := laws.parseSan_legal hparse
  have hread : parseSanOrUci C pos (C.makeSan pos played) = some move' := by
    rw [parseSanOrUci, hparse]
  have hsetup : C.makeFen (C.toSetup (C.play pos move')) = move.fen := by
    rw [hfen]
    exact laws.fen (laws.san_injective hlegal' hlegal hsame)
  have hposition : positionFromFen C node.fen = some pos := by rw [hnode.fen, hpos]
  refine ⟨(createNode ref (C.makeFen (C.toSetup (C.play pos move'))) move' (C.makeSan pos move')
    (node.halfMoves + 1) none).label, ⟨⟨hsetup, ?_⟩, ?_, rfl, rfl⟩,
      fun isVariation parent children siblings st tokens hended ↦ ?_⟩
  · rw [hply, ← hnode.halfMoves]
    rfl
  · rw [hsanText, ← hsame]
    rfl
  · rw [readTokens]
    simp [hended, hposition, hread]

variable (C R ref) in
/-- The codes and the comments of a move go to its node. -/
theorem readTokens_attached (opt : SaveOptions) (isVariation : Bool) (data : NodeData ι)
    (children siblings : List (TreeNode ι)) (st : ReadState) (hended : st.ended = false)
    {move child : NodeData ι} (hfresh : FreshMove move child)
    (hnags : ∀ code ∈ move.nags, code ≤ maxNag) (comments : List Text) (tokens : List Token) :
    ∃ child' st', Kept opt 0 move child' ∧ Proceeds st st' ∧
      readTokens C R ref isVariation (some data) child children siblings st
          ((keptNags opt move).map PgnLexer.nagToken ++ (comments.map .comment ++ tokens)) =
        readTokens C R ref isVariation (some data) child' children siblings st' tokens := by
  have hcodes : ∀ code ∈ keptNags opt move, code ≤ maxNag := by
    intro code hcode
    rw [keptNags] at hcode
    split at hcode
    · exact hnags code ((List.mergeSort_perm _ _).mem_iff.mp hcode)
    · cases hcode
  obtain ⟨child', st', hsame, hproceeds, hread⟩ := readTokens_comments C R ref isVariation
    (some data) { child with nags := child.nags ++ keptNags opt move } children siblings st
    (by simp) hended comments
  refine ⟨child', st', ?_, hproceeds, ?_⟩
  · refine ⟨hsame.fen.trans hfresh.fen, hsame.san.trans hfresh.san,
      hsame.halfMoves.trans hfresh.halfMoves, ?_, ?_⟩
    · rw [hsame.nags, hfresh.nags]
      rfl
    · rw [hsame.startingComment, hfresh.startingComment]
      rfl
  · rw [readTokens_nags hended hcodes, hread]

end

/-! ## Reading a line -/

/-- What stands behind the moves: nothing, or the result of the game. -/
def LineEnd (isVariation : Bool) (tail : List Token) : Prop :=
  tail = [] ∨ isVariation = false ∧ ∃ value, tail = [.outcome value]

section

variable {isVariation : Bool} {parent : Option (NodeData ι)} {node : NodeData ι}
  {children siblings : List (TreeNode ι)} {st : ReadState} {tail : List Token}

theorem readTokens_lineEnd (hend : LineEnd isVariation tail) (hended : st.ended = false) :
    ∃ st', LosesLittle st st' ∧ readTokens C R ref isVariation parent node children siblings st
      tail = ⟨.node node children, siblings, st'⟩ := by
  rcases hend with rfl | ⟨rfl, value, rfl⟩
  · refine ⟨st, .of_eq rfl, ?_⟩
    rw [readTokens]
  · refine ⟨{ st with ended := true }, .of_eq rfl, ?_⟩
    rw [readTokens]
    simp [hended, readTokens, ReadState.loseIf]

end

/-- The trees below a node do not depend on what the node itself holds. -/
theorem SameBelow.of_children {c d d' : TreeNode ι} (h : SameBelow opt c d)
    (hchildren : d'.children = d.children) : SameBelow opt c d' := by
  have hlabel : ∀ path index, d'.labelAt (path ++ [index]) = d.labelAt (path ++ [index]) := by
    intro path index
    cases path with
    | nil => rw [List.nil_append, labelAt, labelAt, nodeAt_cons, nodeAt_cons, hchildren]
    | cons i path =>
        rw [List.cons_append, labelAt, labelAt, nodeAt_cons, nodeAt_cons, hchildren]
  intro path index
  rw [hlabel]
  exact h path index

theorem startComments_cases (opt : SaveOptions) (data : NodeData ι) :
    startComments opt data = [] ∨ ∃ comment, startComments opt data = [comment] := by
  rw [startComments]
  split
  · cases truthy data.startingComment with
    | none => exact .inl rfl
    | some comment => exact .inr ⟨comment, rfl⟩
  · exact .inl rfl

/-- The first move of a variation gets back the comment in front of it. -/
theorem setStartingComment_kept {data : NodeData ι} {d : TreeNode ι} (h : Kept opt 0 data d.label)
    (st : ReadState) (n : ℕ) : ∃ d', setStartingComment (startComments opt data) [d] st = ([d'], st) ∧
      Kept opt (n + 1) data d'.label ∧ d'.children = d.children := by
  have hnone : d.label.startingComment = none := h.startingComment
  rcases startComments_cases opt data with hstart | ⟨comment, hstart⟩
  · refine ⟨d, ?_, { h with startingComment := ?_ }, rfl⟩
    · rw [hstart, setStartingComment, if_pos rfl]
    · rw [hnone, hstart]
      rfl
  · refine ⟨.node { d.label with startingComment := some comment } d.children, ?_,
      { h with startingComment := ?_ }, rfl⟩
    · rw [hstart, setStartingComment, if_neg (List.cons_ne_nil _ _)]
      simp [hnone, ReadState.loseIf]
    · rw [hstart]
      rfl

section

variable [DecidableEq ι] {omitGameEnd : Option ι}

variable (C R ref F opt omitGameEnd) in
/-- A node that stands for this one gets back these children. -/
def Rereads (data : NodeData ι) (cs : List (TreeNode ι)) : Prop :=
  ∀ (isVariation : Bool) (parent : Option (NodeData ι)) (node : NodeData ι)
    (children siblings : List (TreeNode ι)) (st : ReadState) (tail : List Token),
    StandsFor node data → (isVariation && parent.isNone) = false → st.ended = false →
      LineEnd isVariation tail → ∃ node' ds st', SameMove node node' ∧ SameLine opt 0 cs ds ∧
        LosesLittle st st' ∧
          readTokens C R ref isVariation parent node children siblings st
              (lineTokens F opt omitGameEnd cs ++ tail) =
            ⟨.node node' (children ++ ds), siblings, st'⟩

variable (C R ref F opt omitGameEnd) in
/-- A move gets back these variations beside it. -/
def RereadsBeside (data : NodeData ι) (vs : List (TreeNode ι)) : Prop :=
  ∀ (isVariation : Bool) (before node : NodeData ι) (children siblings : List (TreeNode ι))
    (st : ReadState) (rest : List Token) (n : ℕ),
    StandsFor before data → st.ended = false → ∃ ds st', SameLine opt (n + 1) vs ds ∧
      Proceeds st st' ∧
        readTokens C R ref isVariation (some before) node children siblings st
            (variationTokens F opt omitGameEnd vs ++ rest) =
          readTokens C R ref isVariation (some before) node children (siblings ++ ds) st' rest

theorem rereadsBeside_nil (data : NodeData ι) :
    RereadsBeside C R ref F opt omitGameEnd data [] := by
  intro isVariation before node children siblings st rest n _ _
  refine ⟨[], st, sameLine_nil _, .refl st, ?_⟩
  rw [variationTokens, List.nil_append, List.append_nil]

/-- A move with all that is written behind it. -/
theorem readTokens_move (laws : C.FenLaws) (sanLaws : SanLaws C S) {data : NodeData ι}
    {c : TreeNode ι} {vs : List (TreeNode ι)} {san : Text} (hfollows : Follows C data c.label)
    (hsavable : Savable S c.label) (hsan : c.label.san = some san)
    (hbelow : Rereads C R ref F opt omitGameEnd c.label c.children)
    (hbeside : RereadsBeside C R ref F opt omitGameEnd data vs) (isVariation : Bool)
    (parent : Option (NodeData ι)) {node : NodeData ι} (hnode : StandsFor node data)
    (children siblings : List (TreeNode ι)) (st : ReadState) (hended : st.ended = false)
    (comments : List Text) {tail : List Token} (hend : LineEnd isVariation tail) : ∃ d ds st',
      Kept opt 0 c.label d.label ∧ SameBelow opt c d ∧ SameLine opt 1 vs ds ∧ LosesLittle st st' ∧
        readTokens C R ref isVariation parent node children siblings st
            (.san san :: ((keptNags opt c.label).map PgnLexer.nagToken ++
              (comments.map .comment ++ (variationTokens F opt omitGameEnd vs ++
                (lineTokens F opt omitGameEnd c.children ++ tail))))) =
          ⟨.node node (children ++ d :: ds), siblings, st'⟩ := by
  obtain ⟨child, hfresh, hread⟩ := readTokens_san R ref laws sanLaws hfollows hsan hnode
  have hfrom : Proceeds st { st with clocks := 0, evaluations := 0 } := ⟨rfl, .of_eq rfl⟩
  obtain ⟨child', st', hkept, hproceeds, hattached⟩ :=
    readTokens_attached C R ref opt isVariation node [] [] { st with clocks := 0, evaluations := 0 }
      hended hfresh hsavable.clean.nags comments
      (variationTokens F opt omitGameEnd vs ++ (lineTokens F opt omitGameEnd c.children ++ tail))
  obtain ⟨ds, st'', hline, hproceeds', hvariations⟩ := hbeside isVariation node child' [] [] st'
    (lineTokens F opt omitGameEnd c.children ++ tail) 0 hnode (hproceeds.ended.trans hended)
  have hended' : st''.ended = false := hproceeds'.ended.trans (hproceeds.ended.trans hended)
  obtain ⟨node', es, last, hsame, hchildren, hlosses, hrest⟩ := hbelow isVariation (some node)
    child' [] ([] ++ ds) st'' tail ⟨hkept.fen, hkept.halfMoves⟩ (by simp) hended' hend
  refine ⟨.node node' es, ds, last, ?_, ?_, hline, ?_, ?_⟩
  · exact ⟨hsame.fen.trans hkept.fen, hsame.san.trans hkept.san,
      hsame.halfMoves.trans hkept.halfMoves, hsame.nags.trans hkept.nags,
      hsame.startingComment.trans hkept.startingComment⟩
  · apply SameLine.sameBelow
    exact hchildren
  · exact ((hfrom.trans hproceeds).trans hproceeds').losses.trans hlosses
  · rw [hread _ _ _ _ _ _ hended, hattached, hvariations, hrest]
    rfl

variable (F opt omitGameEnd) in
/-- The tokens of a move, behind the comments in front of it. -/
theorem moveTokens_behind {data : NodeData ι} {san : Text} (hsan : data.san = some san)
    (hne : san ≠ []) : ∃ comments : List Text, ∀ rest,
      moveTokens F opt omitGameEnd data ++ rest = (startComments opt data).map .comment ++
        .san san :: ((keptNags opt data).map PgnLexer.nagToken ++
          (comments.map .comment ++ rest)) := by
  obtain ⟨comments, htokens⟩ := moveTokens_eq F opt omitGameEnd hsan hne
  refine ⟨comments, fun rest ↦ ?_⟩
  rw [htokens]
  simp

theorem belowTokens_eq (t : TreeNode ι) :
    belowTokens F opt omitGameEnd t = lineTokens F opt omitGameEnd t.children := by
  cases t with
  | node data children => rw [belowTokens]; rfl

/-- The comments in front of a variation end at its first move. -/
theorem startingComments_move (comments : List Text) (san : Text) (rest : List Token) :
    startingComments (comments.map .comment ++ .san san :: rest) = comments ∧
      afterStartingComments (comments.map .comment ++ .san san :: rest) = .san san :: rest := by
  induction comments with
  | nil => exact ⟨rfl, rfl⟩
  | cons comment comments ih => exact ⟨congrArg (comment :: ·) ih.1, ih.2⟩

/-- A variation gets back its first move, and goes on behind its bracket. -/
theorem readTokens_parenOpen (laws : C.FenLaws) (sanLaws : SanLaws C S) {data : NodeData ι}
    {v : TreeNode ι} (hnormal : normalizeFen data.fen = data.fen) (hfollows : Follows C data v.label)
    (hsavable : Savable S v.label) (hsan : v.label.san.isSome) (hline : SavableBelow S v)
    (hbelow : Rereads C R ref F opt omitGameEnd v.label v.children) {before : NodeData ι}
    (hbefore : StandsFor before data) (isVariation : Bool) (node : NodeData ι)
    (children siblings : List (TreeNode ι)) {st : ReadState} (hended : st.ended = false)
    (rest : List Token) (n : ℕ) : ∃ d st', Kept opt (n + 1) v.label d.label ∧ SameBelow opt v d ∧
      Proceeds st st' ∧
        readTokens C R ref isVariation (some before) node children siblings st
            (.parenOpen :: (moveTokens F opt omitGameEnd v.label ++
              (belowTokens F opt omitGameEnd v ++ .parenClose :: rest))) =
          readTokens C R ref isVariation (some before) node children (siblings ++ [d]) st' rest := by
  have hmove := hsavable.san_ne_nil hsan
  have hbalanced : Balanced (moveTokens F opt omitGameEnd v.label ++
      belowTokens F opt omitGameEnd v) :=
    (balanced_moveTokens hmove).append (balanced_belowTokens v hline)
  have htake := takeVariation_balanced hbalanced rest
  rw [List.append_assoc] at htake
  obtain ⟨san, hsan, hne⟩ := hmove
  obtain ⟨comments, hbehind⟩ := moveTokens_behind F opt omitGameEnd hsan hne
  have hvariation := hbehind (belowTokens F opt omitGameEnd v)
  have hroot : StandsFor (variationRoot C ref before) data := by
    refine ⟨?_, hbefore.halfMoves⟩
    rw [fen_variationRoot, hbefore.fen, hnormal]
  obtain ⟨d, ds, last, hkept, hsame, hbeside, hlosses, hread⟩ := readTokens_move laws sanLaws
    hfollows hsavable hsan hbelow (rereadsBeside_nil data) true none hroot [] []
    { losses := st.losses } rfl comments (.inl rfl)
  have hnone : ds = [] := by
    cases ds with
    | nil => rfl
    | cons e ds => cases hbeside 0
  rw [variationTokens, List.nil_append, List.append_nil, ← belowTokens_eq, hnone] at hread
  obtain ⟨d', hset, hkept', hchildren⟩ := setStartingComment_kept hkept
    { st with losses := last.losses } n
  obtain ⟨hcomments, hmoves⟩ := startingComments_move (startComments opt v.label) san
    ((keptNags opt v.label).map PgnLexer.nagToken ++
      (comments.map .comment ++ belowTokens F opt omitGameEnd v))
  refine ⟨d', { st with losses := last.losses }, hkept', hsame.of_children hchildren,
    ⟨rfl, hlosses⟩, ?_⟩
  rw [readTokens, if_neg (by simp [hended])]
  simp only [Option.getD_some, htake, hvariation, hcomments, hmoves, hread]
  rw [List.nil_append, children_node, hset]

mutual

theorem rereads_below (laws : C.FenLaws) (sanLaws : SanLaws C S) (hopt : opt.variations = true) :
    ∀ t : TreeNode ι, normalizeFen t.label.fen = t.label.fen → FollowsOn C t → SavableBelow S t →
      Rereads C R ref F opt omitGameEnd t.label t.children
  | .node data children => by
      intro hnormal hfollows hsavable
      exact rereads_line laws sanLaws hopt children hnormal hfollows.children hsavable.line

/-- Children get back what is below them, and are read in their order. -/
theorem rereads_line (laws : C.FenLaws) (sanLaws : SanLaws C S) (hopt : opt.variations = true)
    {data : NodeData ι} : ∀ cs : List (TreeNode ι), normalizeFen data.fen = data.fen →
      AllFollow C data cs → SavableLine S cs → Rereads C R ref F opt omitGameEnd data cs
  | [] => by
      intro hnormal hfollows hsavable isVariation parent node children siblings st tail hnode hat
        hended hend
      obtain ⟨st', hlosses, hread⟩ := readTokens_lineEnd hend hended
      refine ⟨node, [], st', .refl node, sameLine_nil 0, hlosses, ?_⟩
      rw [lineTokens, List.nil_append, List.append_nil, hread]
  | c :: cs => by
      intro hnormal hfollows hsavable isVariation parent node children siblings st tail hnode hat
        hended hend
      obtain ⟨⟨hc, hsan, hbelow⟩, hcs⟩ := hsavable.of_cons
      obtain ⟨hfirst, hrest⟩ := List.forall_mem_cons.mp hfollows
      have hchild : Rereads C R ref F opt omitGameEnd c.label c.children :=
        rereads_below laws sanLaws hopt c (hfirst.1.normal laws) hfirst.2 hbelow
      have hbeside : RereadsBeside C R ref F opt omitGameEnd data cs :=
        rereads_beside laws sanLaws hopt cs hnormal hrest hcs
      obtain ⟨san, hsan, hne⟩ := hc.san_ne_nil hsan
      obtain ⟨comments, hbehind⟩ := moveTokens_behind F opt omitGameEnd hsan hne
      -- the comments in front of the move are read at the node above it
      obtain ⟨node', st', hsame, hproceeds, hstart⟩ :=
        readTokens_comments C R ref isVariation parent node children siblings st hat hended
          (startComments opt c.label)
      obtain ⟨d, ds, st'', hkept, hbelow', hline, hlosses, hread⟩ := readTokens_move laws sanLaws
        hfirst.1 hc hsan hchild hbeside isVariation parent (hnode.sameMove hsame) children siblings
        st' (hproceeds.ended.trans hended) comments hend
      refine ⟨node', d :: ds, st'', hsame, hline.cons hkept hbelow', hproceeds.losses.trans hlosses,
        ?_⟩
      rw [lineTokens, if_pos hopt, List.append_assoc, List.append_assoc, hbehind, hstart,
        belowTokens_eq, hread]

theorem rereads_beside (laws : C.FenLaws) (sanLaws : SanLaws C S) (hopt : opt.variations = true)
    {data : NodeData ι} : ∀ vs : List (TreeNode ι), normalizeFen data.fen = data.fen →
      AllFollow C data vs → SavableLine S vs → RereadsBeside C R ref F opt omitGameEnd data vs
  | [] => fun _ _ _ ↦ rereadsBeside_nil data
  | v :: vs => by
      intro hnormal hfollows hsavable isVariation before node children siblings st rest n hbefore
        hended
      obtain ⟨⟨hv, hsan, hbelow⟩, hvs⟩ := hsavable.of_cons
      obtain ⟨hfirst, hrest⟩ := List.forall_mem_cons.mp hfollows
      have hchild : Rereads C R ref F opt omitGameEnd v.label v.children :=
        rereads_below laws sanLaws hopt v (hfirst.1.normal laws) hfirst.2 hbelow
      obtain ⟨d, st', hkept, hsame, hproceeds, hread⟩ := readTokens_parenOpen laws sanLaws hnormal
        hfirst.1 hv hsan hbelow hchild hbefore isVariation node children siblings hended
        (variationTokens F opt omitGameEnd vs ++ rest) n
      obtain ⟨ds, st'', hline, hproceeds', hread'⟩ := rereads_beside laws sanLaws hopt vs hnormal
        hrest hvs isVariation before node children (siblings ++ [d]) st' rest (n + 1) hbefore
        (hproceeds.ended.trans hended)
      refine ⟨d :: ds, st'', hline.cons hkept hsame, hproceeds.trans hproceeds', ?_⟩
      rw [variationTokens]
      simp only [List.cons_append, List.append_assoc]
      rw [hread, hread', List.append_assoc]
      rfl

end

end

end EnCroissant.Saving
