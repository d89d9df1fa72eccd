import EnCroissant.Library.Families
import EnCroissant.Pgn.LexedGames
import EnCroissant.Tree.CommentSplits
import EnCroissant.Tree.Saving

/-!
# The parts of a saved game

The text of a save is a row of parts, trimmed behind every line, and the lexer finds their
tokens in it.
-/

namespace EnCroissant.Saving

open RoseTree
open PgnHeaders (Token)

variable {ι : Type} {F : NumberFormat} {opt : SaveOptions} {S : PgnLexer.SanReader}

/-- No number is formatted with a brace that closes a comment. -/
structure NumberFormat.Braceless (F : NumberFormat) : Prop where
  formatScore : ∀ value, '\x7d' ∉ F.formatScore value
  number : ∀ value, '\x7d' ∉ F.number value
  makeClk : ∀ value, '\x7d' ∉ F.makeClk value

/-- The texts of a node can stand in a comment, and its codes are codes. -/
structure Clean (data : NodeData ι) : Prop where
  comment : '\x7d' ∉ data.comment
  commands : ∀ commands ∈ data.commands, '\x7d' ∉ commands
  startingComment : ∀ comment ∈ data.startingComment, '\x7d' ∉ comment
  nags : ∀ code ∈ data.nags, code ≤ maxNag

/-! ## Comments close where they end -/

theorem braceless_digits (n : ℕ) : '\x7d' ∉ Decimal.digits n :=
  fun h ↦ absurd (Decimal.isDigit_digits _ h) (by decide)

theorem braceless_append {a b : Text} (ha : '\x7d' ∉ a) (hb : '\x7d' ∉ b) : '\x7d' ∉ a ++ b :=
  fun h ↦ (List.mem_append.mp h).elim ha hb

theorem braceless_cons {c : Char} {text : Text} (hc : '\x7d' ≠ c) (h : '\x7d' ∉ text) :
    '\x7d' ∉ c :: text :=
  fun hmem ↦ (List.mem_cons.mp hmem).elim hc h

theorem braceless_makeSquare (square : Square) : '\x7d' ∉ makeSquare square := by
  have hsquare : ∀ square : Fin 64, '\x7d' ∉ makeSquare square := by decide
  exact hsquare square

theorem braceless_drawingCode {brush : Option Text} {code : Char}
    (h : drawingCode brush = some code) : code ≠ '\x7d' := by
  obtain ⟨color, hcolor, rfl⟩ := Option.map_eq_some_iff.mp h
  have hcodes : ∀ color ∈ drawingColors, color.1 ≠ '\x7d' := by decide
  exact hcodes color (List.mem_of_find?_eq_some hcolor)

theorem braceless_drawingEntry {shape : DrawShape} {entry : Text ⊕ Text}
    (h : drawingEntry shape = some entry) : '\x7d' ∉ entry.elim id id := by
  obtain ⟨code, hcode, rfl⟩ := Option.map_eq_some_iff.mp h
  have hentry : ∀ text, '\x7d' ∉ text → '\x7d' ∉ code :: text :=
    fun _ htext ↦ braceless_cons (braceless_drawingCode hcode).symm htext
  cases shape.dest with
  | none => exact hentry _ (braceless_makeSquare shape.orig)
  | some dest =>
      dsimp only
      split_ifs
      · exact hentry _ (braceless_makeSquare shape.orig)
      · exact hentry _
          (braceless_append (braceless_makeSquare shape.orig) (braceless_makeSquare dest))

theorem braceless_drawingCommand {name : String} {entries : List Text}
    (hname : '\x7d' ∉ name.toList) (h : ∀ entry ∈ entries, '\x7d' ∉ entry) :
    '\x7d' ∉ drawingCommand name entries := by
  have hentries : '\x7d' ∉ [','].intercalate entries := by
    intro hmem
    rcases mem_intercalate hmem with hcomma | ⟨entry, hentry, hmem⟩
    · exact absurd hcomma (by decide)
    · exact h entry hentry hmem
  rw [drawingCommand]
  split_ifs
  · exact List.not_mem_nil
  · exact braceless_append (braceless_append (by decide) hname)
      (braceless_cons (by decide) (braceless_append hentries (by decide)))

theorem braceless_makePgnDrawings (shapes : List DrawShape) : '\x7d' ∉ makePgnDrawings shapes := by
  have hentries : ∀ entry ∈ shapes.filterMap drawingEntry, '\x7d' ∉ entry.elim id id := by
    intro entry hentry
    obtain ⟨shape, -, hshape⟩ := List.mem_filterMap.mp hentry
    exact braceless_drawingEntry hshape
  refine braceless_append (braceless_drawingCommand (by decide) fun text htext ↦ ?_)
    (braceless_drawingCommand (by decide) fun text htext ↦ ?_)
  · obtain ⟨entry, hentry, hleft⟩ := List.mem_filterMap.mp htext
    obtain rfl := Sum.getLeft?_eq_some_iff.mp hleft
    exact hentries _ hentry
  · obtain ⟨entry, hentry, hright⟩ := List.mem_filterMap.mp htext
    obtain rfl := Sum.getRight?_eq_some_iff.mp hright
    exact hentries _ hentry

theorem braceless_evalCommand (hF : F.Braceless) (score : Score) (depth : Option ℕ) :
    '\x7d' ∉ evalCommand F score depth := by
  have hvalue : '\x7d' ∉
      if score.kind = .cp then F.formatScore score.value else '#' :: F.number score.value := by
    split_ifs
    · exact hF.formatScore _
    · exact braceless_cons (by decide) (hF.number _)
  refine braceless_append (braceless_append (braceless_append (by decide) hvalue) ?_) (by decide)
  cases depth with
  | none => exact List.not_mem_nil
  | some depth => exact braceless_cons (by decide) (braceless_digits depth)

theorem braceless_commentContent (hF : F.Braceless) {data : NodeData ι} (h : Clean data) :
    '\x7d' ∉ commentContent F opt data := by
  have hnil : '\x7d' ∉ ([] : Text) := List.not_mem_nil
  refine braceless_append ?_ ?_
  · split_ifs
    · refine braceless_append (braceless_append ?_ ?_) (braceless_makePgnDrawings data.shapes)
      · cases data.score with
        | none => exact hnil
        | some score => exact braceless_evalCommand hF score data.depth
      · cases data.clock with
        | none => exact hnil
        | some clock =>
            exact braceless_append (braceless_append (by decide) (hF.makeClk clock)) (by decide)
    · exact hnil
  · split_ifs
    · refine braceless_append ?_ h.comment
      cases hcommands : truthy data.commands with
      | none => exact hnil
      | some commands =>
          have hmem := (Option.filter_eq_some_iff.mp hcommands).1
          exact braceless_append (h.commands commands hmem) (by decide)
    · exact hnil

theorem mem_of_mem_takeUnits {limit : ℕ} {text : Text} {c : Char} (h : c ∈ takeUnits limit text) :
    c ∈ text := by
  fun_induction takeUnits limit text with
  | case1 => cases h
  | case2 limit d text hfits ih =>
      rcases List.mem_cons.mp h with rfl | h
      · exact List.mem_cons_self
      · exact List.mem_cons_of_mem d (ih h)
  | case3 => cases h

theorem braceless_gameEndComment (gameEnd : GameEnd) : '\x7d' ∉ gameEndComment gameEnd := by
  have htermination : ∀ text, '\x7d' ∉ sanitizeGameEndTermination text := by
    intro text hmem
    have hmem := mem_of_mem_takeUnits (PgnHeaders.mem_of_mem_trim hmem)
    obtain ⟨c, -, hc⟩ := List.mem_map.mp hmem
    split_ifs at hc with hbad
    · exact absurd hc (by decide)
    · rw [hc] at hbad
      exact hbad (by decide)
  rw [gameEndComment]
  refine braceless_append (braceless_append (braceless_append (by decide) ?_) (by decide))
    (by decide)
  split_ifs
  · exact List.not_mem_nil
  · exact braceless_cons (by decide) (htermination _)

/-! ## One move -/

/-- A node that can be written: its texts are clean, its move is a word and its number is none
below zero. -/
structure Savable (S : PgnLexer.SanReader) (data : NodeData ι) : Prop where
  clean : Clean data
  san : ∀ san ∈ data.san, S.Reads san
  ply : 0 ≤ data.halfMoves

theorem moveNumber_nonneg {data : NodeData ι} (h : 0 ≤ data.halfMoves) : 0 ≤ moveNumber data := by
  rw [moveNumber]
  omega

/-- The glyphs in front of which no code is written are those of the first six codes. -/
theorem basic_code {code : ℕ} (h : (nagGlyph code).any isBasicAnnotation = true) :
    1 ≤ code ∧ code ≤ 6 := by
  have htable : ∀ entry ∈ nagInfo, isBasicAnnotation entry.2 = true →
      1 ≤ entry.1 ∧ entry.1 ≤ 6 := by decide
  cases hglyph : nagGlyph code with
  | none =>
      rw [hglyph] at h
      cases h
  | some glyph =>
      rw [hglyph] at h
      obtain ⟨before, after, hsplit, -⟩ := List.lookup_eq_some_iff.mp hglyph
      exact htable (code, glyph) (hsplit ▸ List.mem_append_right _ List.mem_cons_self) h

theorem row_bracedParts (content : Text) : Row (bracedParts content) where
  apart := by simp [bracedParts, PgnPart.Fits]
  closed := by
    rintro _ ⟨⟩
    rfl

theorem written_bracedParts {content : Text} (h : '\x7d' ∉ content) :
    Written S (bracedParts content) where
  legible := by
    intro part hpart
    rcases List.mem_cons.mp hpart with rfl | hpart
    · exact h
    · obtain rfl := List.mem_singleton.mp hpart
      trivial
  apart := (row_bracedParts content).apart

/-- Codes behind a word, each behind a blank. -/
theorem apart_nagParts {word : PgnPart} (hword : word.Fits .blank) (codes : List ℕ) :
    (word :: (codes.flatMap nagPart ++ [.blank])).IsChain PgnPart.Fits := by
  induction codes generalizing word with
  | nil => exact List.isChain_pair.mpr hword
  | cons code codes ih =>
      have hcode : PgnPart.Fits (.nag code) .blank := rfl
      exact List.isChain_cons_cons.mpr ⟨hword, List.isChain_cons_cons.mpr ⟨trivial, ih hcode⟩⟩

/-- A move with its codes and the blank behind them. -/
theorem row_move (san : Text) (glyphs : Bool) (nags : List ℕ) :
    Row ((.move san :: (if glyphs then nagParts nags else [])) ++ [.blank]) := by
  apply row_concat rfl
  cases glyphs with
  | false => exact List.isChain_pair.mpr rfl
  | true =>
      cases nags with
      | nil => exact List.isChain_pair.mpr rfl
      | cons code codes =>
          rw [if_pos rfl, nagParts]
          split_ifs
          · have hglyph : PgnPart.Fits (.glyph code) .blank := ⟨rfl, rfl⟩
            exact List.isChain_cons_cons.mpr ⟨rfl, apart_nagParts hglyph codes⟩
          · have hmove : PgnPart.Fits (.move san) .blank := rfl
            exact apart_nagParts hmove (code :: codes)

theorem legible_nagParts {nags : List ℕ} (h : ∀ code ∈ nags, code ≤ maxNag) :
    ∀ part ∈ nagParts nags, part.Legible S := by
  have hnag : ∀ {code : ℕ}, code ≤ maxNag → ∀ part ∈ nagPart code, part.Legible S := by
    intro code hcode part hpart
    rcases List.mem_cons.mp hpart with rfl | hpart
    · trivial
    · obtain rfl := List.mem_singleton.mp hpart
      exact hcode
  cases nags with
  | nil => nofun
  | cons code codes =>
      rw [List.forall_mem_cons] at h
      intro part hpart
      rcases List.mem_append.mp hpart with hpart | hpart
      · split_ifs at hpart with hbasic
        · obtain rfl := List.mem_singleton.mp hpart
          exact basic_code hbasic
        · exact hnag h.1 part hpart
      · obtain ⟨code', hcode', hpart⟩ := List.mem_flatMap.mp hpart
        exact hnag (h.2 code' hcode') part hpart

theorem row_numberParts (data : NodeData ι) (isFirst : Bool) : Row (numberParts data isFirst) := by
  have hnumber : ∀ n dots, Row [.number n dots, .blank] := by
    intro n dots
    refine ⟨List.isChain_pair.mpr trivial, ?_⟩
    rintro _ ⟨⟩
    rfl
  rw [numberParts]
  split_ifs
  · exact hnumber _ _
  · exact row_nil
  · exact hnumber _ _

theorem row_sanParts (data : NodeData ι) (isFirst : Bool) : Row (sanParts opt data isFirst) := by
  rw [sanParts]
  cases truthy data.san with
  | none => exact row_nil
  | some san =>
      dsimp only
      rw [List.append_assoc]
      exact (row_numberParts data isFirst).append (row_move san _ _)

theorem row_moveParts (F : NumberFormat) (opt : SaveOptions) (data : NodeData ι)
    (isFirst omitGameEnd : Bool) : Row (moveParts F opt data isFirst omitGameEnd) := by
  have hstart : Row (startingParts opt data) := by
    rw [startingParts]
    split
    · split
      · exact row_bracedParts _
      · exact row_nil
    · exact row_nil
  have hcontent : Row (contentParts F opt data) := by
    rw [contentParts]
    split
    · exact row_nil
    · exact row_bracedParts _
  have hend : Row (gameEndParts opt data omitGameEnd) := by
    rw [gameEndParts]
    split
    · split
      · exact row_bracedParts _
      · exact row_nil
    · exact row_nil
  exact ((hstart.append (row_sanParts data isFirst)).append hcontent).append hend

theorem legible_bracedParts {content : Text} (h : '\x7d' ∉ content) :
    ∀ part ∈ bracedParts content, part.Legible S :=
  (written_bracedParts h).legible

theorem legible_sanParts {data : NodeData ι} (h : Savable S data) (isFirst : Bool) :
    ∀ part ∈ sanParts opt data isFirst, part.Legible S := by
  have hnumber : ∀ part ∈ numberParts data isFirst, part.Legible S := by
    have hmoveNumber := moveNumber_nonneg h.ply
    have hparts : ∀ dots, dots ≠ 0 →
        ∀ part ∈ [PgnPart.number (moveNumber data) dots, .blank], part.Legible S := by
      intro dots hdots
      rw [List.forall_mem_cons, List.forall_mem_singleton]
      exact ⟨⟨hmoveNumber, hdots⟩, trivial⟩
    rw [numberParts]
    split_ifs
    · exact hparts 3 (by decide)
    · nofun
    · exact hparts 1 (by decide)
  intro part hpart
  rw [sanParts] at hpart
  split at hpart
  · next san hsan =>
    have hread := h.san san (Option.filter_eq_some_iff.mp hsan).1
    rcases List.mem_append.mp hpart with hpart | hpart
    · rcases List.mem_append.mp hpart with hpart | hpart
      · exact hnumber part hpart
      · rcases List.mem_cons.mp hpart with rfl | hpart
        · exact hread
        · split_ifs at hpart
          · refine legible_nagParts (fun code hcode ↦ h.clean.nags code ?_) part hpart
            exact (List.mergeSort_perm _ _).mem_iff.mp hcode
          · cases hpart
    · obtain rfl := List.mem_singleton.mp hpart
      trivial
  · cases hpart

theorem written_moveParts (opt : SaveOptions) (hF : F.Braceless) {data : NodeData ι}
    (h : Savable S data) (isFirst omitGameEnd : Bool) : Written S (moveParts F opt data isFirst omitGameEnd) where
  legible := by
    intro part hpart
    rcases List.mem_append.mp hpart with hpart | hpart
    · rcases List.mem_append.mp hpart with hpart | hpart
      · rcases List.mem_append.mp hpart with hpart | hpart
        · rw [startingParts] at hpart
          split at hpart
          · next comment hcomment =>
            split_ifs at hpart
            · have hmem := (Option.filter_eq_some_iff.mp hcomment).1
              exact legible_bracedParts (h.clean.startingComment comment hmem) part hpart
            · cases hpart
          · cases hpart
        · exact legible_sanParts h isFirst part hpart
      · rw [contentParts] at hpart
        split_ifs at hpart
        · cases hpart
        · exact legible_bracedParts (braceless_commentContent hF h.clean) part hpart
    · rw [gameEndParts] at hpart
      split at hpart
      · split_ifs at hpart
        · exact legible_bracedParts (braceless_gameEndComment _) part hpart
        · cases hpart
      · cases hpart
  apart := (row_moveParts F opt data isFirst omitGameEnd).apart

/-- What a move starts with: a comment, its number or its notation. -/
def opensMove (isFirst : Bool) : PgnPart → Bool
  | .comment _ => true
  | .number _ _ => true
  | .move _ => !isFirst
  | _ => false

theorem head_startingParts (opt : SaveOptions) (data : NodeData ι) : startingParts opt data = [] ∨
    ∃ comment parts, startingParts opt data = .comment comment :: parts := by
  rw [startingParts]
  split
  · split_ifs
    · exact .inr ⟨_, _, rfl⟩
    · exact .inl rfl
  · exact .inl rfl

theorem head_contentParts (F : NumberFormat) (opt : SaveOptions) (data : NodeData ι) :
    contentParts F opt data = [] ∨
      ∃ comment parts, contentParts F opt data = .comment comment :: parts := by
  rw [contentParts]
  split_ifs
  · exact .inl rfl
  · exact .inr ⟨_, _, rfl⟩

theorem head_numberParts (data : NodeData ι) (isFirst : Bool) :
    (numberParts data isFirst = [] ∧ isFirst = false) ∨
      ∃ n dots parts, numberParts data isFirst = .number n dots :: parts := by
  rw [numberParts]
  split_ifs with hblack hfirst
  · exact .inr ⟨_, _, _, rfl⟩
  · exact .inl ⟨rfl, Bool.eq_false_iff.mpr hfirst⟩
  · exact .inr ⟨_, _, _, rfl⟩

theorem head_moveParts (F : NumberFormat) (opt : SaveOptions) {data : NodeData ι}
    (h : ∃ san, data.san = some san ∧ san ≠ []) (isFirst omitGameEnd : Bool) :
    ∃ part parts, moveParts F opt data isFirst omitGameEnd = part :: parts ∧
      opensMove isFirst part = true := by
  obtain ⟨san, hsan, hne⟩ := h
  have hsan : truthy data.san = some san := by
    rw [hsan]
    exact Option.filter_some_pos (by simpa using hne)
  rcases head_startingParts opt data with hstart | ⟨comment, parts, hstart⟩
  · obtain ⟨part, parts, hparts, hopens⟩ : ∃ part parts,
        sanParts opt data isFirst = part :: parts ∧ opensMove isFirst part = true := by
      simp only [sanParts, hsan]
      rcases head_numberParts data isFirst with ⟨hnone, hfirst⟩ | ⟨n, dots, parts, hnumber⟩
      · rw [hnone, hfirst]
        exact ⟨_, _, rfl, rfl⟩
      · rw [hnumber]
        exact ⟨_, _, rfl, rfl⟩
    refine ⟨part, parts ++ contentParts F opt data ++ gameEndParts opt data omitGameEnd, ?_, hopens⟩
    rw [moveParts, hstart, hparts]
    rfl
  · refine ⟨.comment comment, parts ++ sanParts opt data isFirst ++ contentParts F opt data ++
      gameEndParts opt data omitGameEnd, ?_, rfl⟩
    rw [moveParts, hstart]
    rfl

theorem isBlank_of_opensMove {part : PgnPart} {isFirst : Bool} (h : opensMove isFirst part = true) :
    part.isBlank = false := by
  cases part <;> first | rfl | cases h

/-! ## The tree -/

section

variable [DecidableEq ι] (F opt) (omitGameEnd : Option ι)

mutual

/-- The parts of `writePGN` below a node that is not the root. -/
def belowParts : TreeNode ι → List PgnPart
  | .node _ children => trimParts (lineParts false children)

def lineParts (root : Bool) : List (TreeNode ι) → List PgnPart
  | [] => []
  | c :: cs =>
      moveParts F opt c.label root (omits omitGameEnd c.label) ++
        (if opt.variations then variationParts cs else []) ++ belowParts c

def variationParts : List (TreeNode ι) → List PgnPart
  | [] => []
  | v :: vs =>
      .blank :: .parenOpen :: (moveParts F opt v.label true (omits omitGameEnd v.label) ++
        .blank :: (belowParts v ++ .parenClose :: .blank :: variationParts vs))

end

end

/-- Every node below can be written, and has a move. -/
def SavableBelow (S : PgnLexer.SanReader) (t : TreeNode ι) : Prop :=
  Families (fun _ children ↦ ∀ child ∈ children, Savable S child ∧ child.san.isSome) t

/-- The nodes of a family can be written with all below them. -/
def SavableLine (S : PgnLexer.SanReader) (nodes : List (TreeNode ι)) : Prop :=
  ∀ c ∈ nodes, Savable S c.label ∧ c.label.san.isSome ∧ SavableBelow S c

theorem SavableBelow.line {t : TreeNode ι} (h : SavableBelow S t) : SavableLine S t.children := by
  intro c hc
  obtain ⟨hsavable, hsan⟩ := h.family c.label (List.mem_map_of_mem hc)
  exact ⟨hsavable, hsan, Families.child h c hc⟩

theorem SavableLine.of_cons {c : TreeNode ι} {cs : List (TreeNode ι)}
    (h : SavableLine S (c :: cs)) : (Savable S c.label ∧ c.label.san.isSome ∧ SavableBelow S c) ∧ SavableLine S cs :=
  List.forall_mem_cons.mp h

theorem legible_cons {part : PgnPart} (h : part.Legible S) {parts : List PgnPart}
    (hparts : ∀ part ∈ parts, part.Legible S) : ∀ part' ∈ part :: parts, part'.Legible S :=
  List.forall_mem_cons.mpr ⟨h, hparts⟩

/-- A move that can be written has a notation. -/
theorem Savable.san_ne_nil {data : NodeData ι} (h : Savable S data) (hsan : data.san.isSome) :
    ∃ san, data.san = some san ∧ san ≠ [] := by
  obtain ⟨san, hsan⟩ := Option.isSome_iff_exists.mp hsan
  exact ⟨san, hsan, (h.san san hsan).run.1⟩

section

variable [DecidableEq ι] {omitGameEnd : Option ι}

/-- A line starts with no blank. -/
theorem head_lineParts {cs : List (TreeNode ι)} (h : SavableLine S cs) (root : Bool) :
    ∀ part ∈ (lineParts F opt omitGameEnd root cs).head?, opensMove root part = true := by
  cases cs with
  | nil =>
      rw [lineParts]
      nofun
  | cons c cs =>
      obtain ⟨⟨hsavable, hsan, -⟩, -⟩ := h.of_cons
      obtain ⟨part, parts, hparts, hopens⟩ := head_moveParts F opt
        (hsavable.san_ne_nil hsan) root (omits omitGameEnd c.label)
      rw [lineParts, hparts]
      rintro _ ⟨⟩
      exact hopens

mutual

/-- What is written below a node is a row of parts. -/
theorem written_belowParts (hF : F.Braceless) : ∀ t : TreeNode ι, SavableBelow S t →
    Written S (belowParts F opt omitGameEnd t) ∧
      writePGN F opt omitGameEnd none false t = partsText (belowParts F opt omitGameEnd t)
  | .node data children => by
      intro h
      have hline : SavableLine S children := h.line
      obtain ⟨hwritten, htext⟩ := written_lineParts hF false children hline
      rw [belowParts]
      refine ⟨hwritten.trimParts, ?_⟩
      rw [writePGN, ← trim_partsText hwritten.legible fun part hpart ↦
        isBlank_of_opensMove (head_lineParts hline false part hpart), ← htext]
      simp

theorem written_lineParts (hF : F.Braceless) (root : Bool) : ∀ cs : List (TreeNode ι),
    SavableLine S cs → Written S (lineParts F opt omitGameEnd root cs) ∧
      writeLine F opt omitGameEnd root cs = partsText (lineParts F opt omitGameEnd root cs)
  | [] => by
      intro _
      rw [lineParts, writeLine]
      exact ⟨⟨nofun, List.isChain_nil⟩, rfl⟩
  | c :: cs => by
      intro h
      obtain ⟨⟨hsavable, -, hbelow⟩, hcs⟩ := h.of_cons
      obtain ⟨hwritten, htext⟩ := written_belowParts hF c hbelow
      obtain ⟨hlegible, hrow, hvariations⟩ := written_variationParts hF cs hcs
      have hmove := written_moveParts opt hF hsavable root (omits omitGameEnd c.label)
      have hmoveRow := row_moveParts F opt c.label root (omits omitGameEnd c.label)
      rw [lineParts, writeLine]
      split
      · refine ⟨(hmove.append hmoveRow ⟨hlegible, hrow.apart⟩).append (hmoveRow.append hrow)
          hwritten, ?_⟩
        rw [partsText_append, partsText_append, htext, hvariations, getMoveText]
      · rw [List.append_nil, List.append_nil]
        refine ⟨hmove.append hmoveRow hwritten, ?_⟩
        rw [partsText_append, htext, getMoveText]

theorem written_variationParts (hF : F.Braceless) : ∀ vs : List (TreeNode ι), SavableLine S vs →
    (∀ part ∈ variationParts F opt omitGameEnd vs, part.Legible S) ∧
      Row (variationParts F opt omitGameEnd vs) ∧
      writeVariations F opt omitGameEnd vs = partsText (variationParts F opt omitGameEnd vs)
  | [] => by
      intro _
      rw [variationParts, writeVariations]
      exact ⟨nofun, row_nil, rfl⟩
  | v :: vs => by
      intro h
      obtain ⟨⟨hsavable, -, hbelow⟩, hvs⟩ := h.of_cons
      obtain ⟨hwritten, htext⟩ := written_belowParts hF v hbelow
      obtain ⟨hlegible, hrow, hvariations⟩ := written_variationParts hF vs hvs
      have hmove := written_moveParts opt hF hsavable true (omits omitGameEnd v.label)
      have hmoveRow := row_moveParts F opt v.label true (omits omitGameEnd v.label)
      have hclosed : Row (.blank :: variationParts F opt omitGameEnd vs) := hrow.cons rfl
      have hbehind := row_parenClose hwritten.apart hclosed
      rw [variationParts, writeVariations]
      refine ⟨?_, ((hmoveRow.append (hbehind.cons rfl)).cons rfl).cons rfl, ?_⟩
      · have hblank : PgnPart.Legible S .blank := trivial
        have hopen : PgnPart.Legible S .parenOpen := trivial
        have hclose : PgnPart.Legible S .parenClose := trivial
        apply legible_cons hblank
        apply legible_cons hopen
        rw [List.forall_mem_append]
        refine ⟨hmove.legible, legible_cons hblank ?_⟩
        rw [List.forall_mem_append]
        exact ⟨hwritten.legible, legible_cons hclose (legible_cons hblank hlegible)⟩
      · rw [htext, hvariations, getMoveText]
        simp only [partsText, List.flatMap_cons, List.flatMap_append]
        rfl

end

/-! ## Tokens -/

variable (F opt omitGameEnd)

/-- The tokens of a move, of its comments and of its codes. -/
def moveTokens (data : NodeData ι) : List Token :=
  partsTokens (moveParts F opt data true (omits omitGameEnd data))

mutual

def belowTokens : TreeNode ι → List Token
  | .node _ children => lineTokens children

def lineTokens : List (TreeNode ι) → List Token
  | [] => []
  | c :: cs =>
      moveTokens F opt omitGameEnd c.label ++
        (if opt.variations then variationTokens cs else []) ++ belowTokens c

def variationTokens : List (TreeNode ι) → List Token
  | [] => []
  | v :: vs =>
      .parenOpen :: (moveTokens F opt omitGameEnd v.label ++
        (belowTokens v ++ .parenClose :: variationTokens vs))

end

variable {F opt omitGameEnd}

/-- A number is no token, so it does not matter where a move stands. -/
theorem partsTokens_moveParts (data : NodeData ι) (isFirst : Bool) :
    partsTokens (moveParts F opt data isFirst (omits omitGameEnd data)) =
      moveTokens F opt omitGameEnd data := by
  have hnumber : ∀ isFirst, partsTokens (numberParts data isFirst) = [] := by
    intro isFirst
    rw [numberParts]
    split_ifs <;> rfl
  have hsan : partsTokens (sanParts opt data isFirst) = partsTokens (sanParts opt data true) := by
    rw [sanParts, sanParts]
    cases truthy data.san with
    | none => rfl
    | some san =>
        dsimp only
        simp only [partsTokens_append, hnumber]
  rw [moveTokens, moveParts, moveParts]
  simp only [partsTokens_append, hsan]

mutual

theorem partsTokens_belowParts : ∀ t : TreeNode ι,
    partsTokens (belowParts F opt omitGameEnd t) = belowTokens F opt omitGameEnd t
  | .node data children => by
      rw [belowParts, belowTokens, partsTokens_trimParts, partsTokens_lineParts false children]

theorem partsTokens_lineParts (root : Bool) : ∀ cs : List (TreeNode ι),
    partsTokens (lineParts F opt omitGameEnd root cs) = lineTokens F opt omitGameEnd cs
  | [] => by
      rw [lineParts, lineTokens]
      rfl
  | c :: cs => by
      rw [lineParts, lineTokens, partsTokens_append, partsTokens_append, partsTokens_moveParts,
        partsTokens_belowParts c]
      split
      · rw [partsTokens_variationParts cs]
      · rfl

theorem partsTokens_variationParts : ∀ vs : List (TreeNode ι),
    partsTokens (variationParts F opt omitGameEnd vs) = variationTokens F opt omitGameEnd vs
  | [] => by
      rw [variationParts, variationTokens]
      rfl
  | v :: vs => by
      have hcons : ∀ part parts, partsTokens (part :: parts) = part.tokens ++ partsTokens parts :=
        fun _ _ ↦ rfl
      rw [variationParts, variationTokens, hcons, hcons, partsTokens_append, partsTokens_moveParts,
        hcons, partsTokens_append, partsTokens_belowParts v, hcons, hcons,
        partsTokens_variationParts vs]
      rfl

end

/-! ## The game in its file -/

variable (F) in
/-- The tokens in front of the first move. -/
def rootTokens (data : NodeData ι) : List Token :=
  partsTokens (moveParts F .all data false false)

/-- The tags of a save. -/
def savedTags (root : TreeNode ι) (headers : PgnHeaders.GameHeaders) : List (String × Text) :=
  (savedHeaders root headers).knownTags ++ (savedHeaders root headers).otherTags ++
    PgnHeaders.setUpTags root.label.fen

/-- What a game has to fulfil to be saved: its tags fit on their lines, and its nodes can be
written. -/
structure SavableGame (S : PgnLexer.SanReader) (root : TreeNode ι)
    (headers : PgnHeaders.GameHeaders) : Prop where
  tags : ∀ tag ∈ savedTags root headers, PgnLexer.Lexable tag
  fen : ∀ c ∈ root.label.fen, PgnHeaders.isEscaped c = false
  start : Savable S root.label
  noMove : root.label.san = none
  below : SavableBelow S root

/-- The parts behind the tags. -/
def gameParts (F : NumberFormat) (omitGameEnd : Option ι) (result : Outcome) :
    TreeNode ι → List PgnPart
  | .node data children =>
      moveParts F .all data false false ++
        lineParts F .all omitGameEnd true children ++
          [.blank, .result result]

theorem row_result (result : Outcome) : Row [.blank, .result result] where
  apart := List.isChain_pair.mpr trivial
  closed := by
    rintro _ ⟨⟩
    rfl

/-- A blank ends every word. -/
theorem apart_blank {parts next : List PgnPart} (h : parts.IsChain PgnPart.Fits)
    (hnext : (PgnPart.blank :: next).IsChain PgnPart.Fits) :
    (parts ++ .blank :: next).IsChain PgnPart.Fits := by
  refine h.append hnext fun part _ following hfollowing ↦ ?_
  obtain rfl := Option.some.inj hfollowing
  cases part <;> trivial

theorem written_gameParts (hF : F.Braceless) (result : Outcome) {root : TreeNode ι}
    (hroot : Savable S root.label) (hbelow : SavableBelow S root) :
    Written S (gameParts F omitGameEnd result root) := by
  cases root with
  | node data children =>
      have hline : Written S (lineParts F .all omitGameEnd true children) :=
        (written_lineParts hF true children hbelow.line).1
      have hmove := written_moveParts .all hF hroot false false
      have hrow := row_moveParts F .all data false false
      rw [gameParts, List.append_assoc]
      refine hmove.append hrow ⟨?_, apart_blank hline.apart (row_result result).apart⟩
      rw [List.forall_mem_append]
      refine ⟨hline.legible, ?_⟩
      rw [List.forall_mem_cons, List.forall_mem_singleton]
      exact ⟨trivial, trivial⟩

/-- The movetext of a save starts with a comment, with a number or with its result. -/
theorem gameParts_opens (F : NumberFormat) (omitGameEnd : Option ι) (result : Outcome)
    {root : TreeNode ι} (hmove : root.label.san = none) (hbelow : SavableBelow S root) :
    (∃ part parts, gameParts F omitGameEnd result root = part :: parts ∧
      PgnLexer.opensLine part = true) ∨
        gameParts F omitGameEnd result root = [.blank, .result result] := by
  cases root with
  | node data children =>
      have hsan : sanParts .all data false = [] := by
        rw [label_node] at hmove
        rw [sanParts, hmove]
        rfl
      have hend : gameEndParts .all data false = [] := by
        rw [label_node] at hmove
        rw [gameEndParts, hmove]
        split <;> rfl
      rw [gameParts, moveParts, hsan, hend, List.append_nil, List.append_nil]
      rcases head_startingParts .all data with
        hstart | ⟨comment, parts, hstart⟩
      · rcases head_contentParts F .all data with
          hcontent | ⟨comment, parts, hcontent⟩
        · rw [hstart, hcontent]
          cases hparts : lineParts F .all omitGameEnd true children with
          | nil => exact .inr rfl
          | cons part parts =>
              have hhead : part ∈ (lineParts F .all omitGameEnd true children).head? := by
                rw [hparts]
                rfl
              have hopens : opensMove true part = true := head_lineParts hbelow.line true part hhead
              refine .inl ⟨part, parts ++ [.blank, .result result], rfl, ?_⟩
              cases part <;> first | rfl | cases hopens
        · rw [hstart, hcontent]
          exact .inl ⟨_, _, rfl, rfl⟩
      · rw [hstart]
        exact .inl ⟨_, _, rfl, rfl⟩

theorem partsTokens_gameParts (result : Outcome) (root : TreeNode ι) :
    partsTokens (gameParts F omitGameEnd result root) = rootTokens F root.label ++
      belowTokens F .all omitGameEnd root ++
        [.outcome (PgnHeaders.resultText result)] := by
  cases root with
  | node data children =>
      rw [gameParts, partsTokens_append, partsTokens_append, partsTokens_lineParts, belowTokens]
      rfl

theorem getLast_gameParts (result : Outcome) (root : TreeNode ι) :
    (gameParts F omitGameEnd result root).getLast? = some (.result result) := by
  cases root with
  | node data children =>
      rw [gameParts, List.getLast?_append]
      rfl

theorem tagLines_setUpTags {fen : Text} (hfen : ∀ c ∈ fen, PgnHeaders.isEscaped c = false) :
    (if fen ≠ initialFen then
      PgnHeaders.tagLine "SetUp" ['1'] ++ PgnHeaders.tagLine "FEN" fen else []) =
        PgnHeaders.tagLines (PgnHeaders.setUpTags fen) := by
  have hplain : PgnHeaders.escapeTagValue fen = fen := Escaping.escape_of_plain hfen
  have hone : PgnHeaders.escapeTagValue ['1'] = ['1'] := by decide
  rw [PgnHeaders.setUpTags, ite_not]
  split_ifs
  · rfl
  · simp [PgnHeaders.tagLines, PgnHeaders.pgnTag, hplain, hone]

/-- What starts with a tag and ends with a result is not trimmed. -/
theorem trim_game {tags : List (String × Text)} (hne : tags ≠ []) (body : Text) (result : Outcome) :
    Text.trim (PgnHeaders.tagLines tags ++ '\n' :: (body ++ PgnHeaders.resultText result)) =
      PgnHeaders.tagLines tags ++ '\n' :: (body ++ PgnHeaders.resultText result) := by
  have hends : ∃ before d, PgnHeaders.resultText result = before ++ [d] ∧
      Text.isSpace d = false := by
    cases result with
    | whiteWins => exact ⟨['1', '-'], '0', rfl, rfl⟩
    | blackWins => exact ⟨['0', '-'], '1', rfl, rfl⟩
    | draw => exact ⟨['1', '/', '2', '-', '1', '/'], '2', rfl, rfl⟩
    | unknown => exact ⟨[], '*', rfl, rfl⟩
  obtain ⟨before, d, hresult, hd⟩ := hends
  obtain ⟨tag, tags, rfl⟩ := List.exists_cons_of_ne_nil hne
  have hopen : ∃ text, PgnHeaders.tagLines (tag :: tags) = '[' :: text := ⟨_, rfl⟩
  obtain ⟨text, htext⟩ := hopen
  have hsplit : PgnHeaders.tagLines (tag :: tags) ++
      '\n' :: (body ++ PgnHeaders.resultText result) =
        '[' :: ((text ++ '\n' :: (body ++ before)) ++ [d]) := by
    rw [htext, hresult]
    simp
  rw [hsplit]
  exact Text.trim_of_ends _ (by decide) hd

/-- The text of a save: its tags, and its parts behind a blank line. -/
theorem serializeStoreTree_eq (hF : F.Braceless) {root : TreeNode ι}
    {headers : PgnHeaders.GameHeaders} (h : SavableGame S root headers) :
    serializeStoreTree F root headers = PgnHeaders.tagLines (savedTags root headers) ++
      '\n' :: partsText (gameParts F (omittedEnd root (some headers)) headers.result root) ++
        ['\n', '\n'] := by
  have hne : savedTags root headers ≠ [] := List.cons_ne_nil _ _
  have hfen := tagLines_setUpTags h.fen
  cases root with
  | node data children =>
      have hline : writeLine F .all (omittedEnd (.node data children) (some headers)) true children =
          partsText (lineParts F .all (omittedEnd (.node data children) (some headers)) true
            children) :=
        (written_lineParts hF true children h.below.line).2
      have hresult : (savedHeaders (.node data children) headers).result = headers.result := rfl
      have hbody : ∀ parts parts', partsText (parts ++ parts' ++ [.blank, .result headers.result]) =
          (partsText parts ++ partsText parts' ++ [' ']) ++
            PgnHeaders.resultText headers.result := by
        intro parts parts'
        simp [partsText, PgnPart.text]
      have htags : PgnHeaders.headersToPGN (savedHeaders (.node data children) headers) ++
          PgnHeaders.tagLines (PgnHeaders.setUpTags data.fen) =
            PgnHeaders.tagLines (savedTags (.node data children) headers) := by
        rw [PgnHeaders.headersToPGN, ← PgnHeaders.tagLines_append]
        rfl
      rw [label_node] at hfen
      rw [gameParts, hbody, ← trim_game hne, serializeStoreTree, getPGN, Option.map_some, writePGN,
        hline, ← htags, ← hfen, getMoveText]
      simp [hresult]

/-- The lexer finds the tags and the parts of a save. -/
theorem lexPgn_serializeStoreTree (hF : F.Braceless) {root : TreeNode ι}
    {headers : PgnHeaders.GameHeaders} (h : SavableGame S root headers)
    (hsize : (Utf8.encode (serializeStoreTree F root headers)).length ≤ PgnLexer.maxPgnLength) :
    PgnLexer.lexPgn S (serializeStoreTree F root headers) =
      .ok ((savedTags root headers).map PgnLexer.headerToken ++ (rootTokens F root.label ++
        belowTokens F .all (omittedEnd root (some headers)) root ++
          [.outcome (PgnHeaders.resultText headers.result)])) := by
  have hwritten : Written S
      (gameParts F (omittedEnd root (some headers)) headers.result root) :=
    written_gameParts hF headers.result h.start h.below
  have hne : savedTags root headers ≠ [] := List.cons_ne_nil _ _
  rw [PgnLexer.lexPgn, if_neg (not_lt.mpr hsize), serializeStoreTree_eq hF h,
    ← partsTokens_gameParts]
  rcases gameParts_opens F (omittedEnd root (some headers)) headers.result h.noMove h.below with
    ⟨part, parts, hparts, hopens⟩ | hparts
  · have hlast : ∃ outcome, (part :: parts).getLast? = some (.result outcome) := by
      rw [← hparts]
      exact ⟨_, getLast_gameParts headers.result root⟩
    rw [hparts] at hwritten ⊢
    exact PgnLexer.lexGame_written [] h.tags hne hwritten hopens nofun hlast
  · rw [hparts] at hwritten ⊢
    have hresult : Written S [.result headers.result] :=
      ⟨List.forall_mem_singleton.mpr trivial, List.isChain_singleton _⟩
    exact PgnLexer.lexGame_written [' '] h.tags hne hresult rfl
      (List.forall_mem_singleton.mpr rfl) ⟨_, rfl⟩

end

end EnCroissant.Saving
