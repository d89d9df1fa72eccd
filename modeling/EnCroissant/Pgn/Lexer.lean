import EnCroissant.Library.Utf8
import EnCroissant.Pgn.Headers

/-!
# The lexer of games

A game is read character by character: first its tags, then its movetext, until a line starts
with `[` or, behind a result, until a blank line.  One step of the movetext reader takes one
token or one piece of layout.  The reader of chess notation is a parameter.
-/

namespace EnCroissant.PgnLexer

open PgnHeaders (Token resultText)

/-- `SanPlus::from_ascii`, with the spelling of the move that it reads. -/
structure SanReader where
  fromAscii : Text → Option Text

def maxPgnLength : ℕ := 10 * 1024 * 1024

/-! ## Layout -/

def isLayout (c : Char) : Bool := c == ' ' || c == '\t' || c == '\r'

/-- What a run of movetext ends in front of. -/
def isTokenEnd (c : Char) : Bool :=
  c ∈ [' ', '\t', '\n', '\r', '\x7b', '\x7d', '(', ')', '!', '?', '$', ';', '.']

/-- The rest of a line, and what follows it. -/
def line (text : Text) : Text × Text := text.span (· ≠ '\n')

def skipLine (text : Text) : Text := (line text).2.tail

def skipBom (text : Text) : Text := if text.head? = some '\uFEFF' then text.tail else text

theorem length_line (text : Text) : (line text).2.length ≤ text.length := by
  rw [line, List.span_eq_takeWhile_dropWhile]
  exact (List.dropWhile_suffix _).length_le

theorem length_skipLine (text : Text) : (skipLine text).length ≤ text.length :=
  (List.tail_suffix _).length_le.trans (length_line text)

/-- White space and lines that start with `%`. -/
def skipWhitespace : Text → Text
  | [] => []
  | c :: text =>
      if isLayout c || c == '\n' then skipWhitespace text
      else if c = '%' then skipWhitespace (skipLine text)
      else c :: text
termination_by text => text.length
decreasing_by
  · exact Nat.lt_succ_self _
  · exact Nat.lt_succ_of_le (length_skipLine text)

/-! ## Tags -/

/-- What may follow the value of a tag on its line. -/
def skipKet : Text → Text
  | [] => []
  | c :: text =>
      if isLayout c || c == ']' then skipKet text
      else if c = '%' then skipLine text
      else if c = '\n' then text
      else c :: text

/-- A value up to its quote or the end of its line, with what follows. -/
def quotedValue : Text → Option (Text × Text)
  | [] => none
  | '"' :: text => some ([], text)
  | '\n' :: text => some ([], '\n' :: text)
  | '\\' :: c :: text => (quotedValue text).map fun found ↦ ('\\' :: c :: found.1, found.2)
  | c :: text => (quotedValue text).map fun found ↦ (c :: found.1, found.2)

/-- The tag behind a `[`, if there is one, and what follows it; nothing where the text ends. -/
def readTag (text : Text) : Option (List Token × Text) :=
  let (name, after) := text.span fun c ↦ c != '"' && c != '\n' && c != ']'
  match after with
  | [] => none
  | '"' :: after =>
      (quotedValue after).map fun found ↦
        ([.header (String.ofList (name.rdropWhile fun c ↦ c == ' ' || c == '\t')) found.1],
          skipKet found.2)
  | _ :: after => some ([], skipKet after)

theorem length_skipKet (text : Text) : (skipKet text).length ≤ text.length := by
  induction text with
  | nil => exact Nat.le_refl _
  | cons c text ih =>
      rw [skipKet]
      split_ifs
      · exact Nat.le_succ_of_le ih
      · exact Nat.le_succ_of_le (length_skipLine text)
      · exact Nat.le_succ _
      · exact Nat.le_refl _

theorem length_quotedValue {text : Text} {found : Text × Text} (h : quotedValue text = some found) :
    found.2.length ≤ text.length := by
  fun_induction quotedValue text generalizing found with
  | case1 => cases h
  | case2 text =>
      obtain rfl := Option.some.inj h
      exact Nat.le_succ _
  | case3 text =>
      obtain rfl := Option.some.inj h
      exact Nat.le_refl _
  | case4 c text ih =>
      obtain ⟨found', hfound', rfl⟩ := Option.map_eq_some_iff.mp h
      exact (ih hfound').trans ((Nat.le_succ _).trans (Nat.le_succ _))
  | case5 c text _ _ _ ih =>
      obtain ⟨found', hfound', rfl⟩ := Option.map_eq_some_iff.mp h
      exact (ih hfound').trans (Nat.le_succ _)

theorem length_readTag {text : Text} {found : List Token × Text} (h : readTag text = some found) :
    found.2.length ≤ text.length := by
  rw [readTag, List.span_eq_takeWhile_dropWhile] at h
  have hafter : (text.dropWhile fun c ↦ c != '"' && c != '\n' && c != ']').length ≤ text.length :=
    (List.dropWhile_suffix _).length_le
  dsimp only at h
  split at h
  · cases h
  · next after hdrop =>
    obtain ⟨value, hvalue, rfl⟩ := Option.map_eq_some_iff.mp h
    rw [hdrop] at hafter
    exact ((length_skipKet _).trans (length_quotedValue hvalue)).trans
      ((Nat.le_succ _).trans hafter)
  · next c after _ hdrop =>
    obtain rfl := Option.some.inj h
    rw [hdrop] at hafter
    exact (length_skipKet _).trans ((Nat.le_succ _).trans hafter)

/-- `read_headers`: the tags and what follows them. -/
def readHeaders : Text → Option (List Token × Text)
  | [] => some ([], [])
  | c :: text =>
      if c = '[' then
        match _htag : readTag text with
        | none => none
        | some found =>
            (readHeaders found.2).map fun rest ↦ (found.1 ++ rest.1, rest.2)
      else if c = '%' then readHeaders (skipLine text)
      else if isLayout c then readHeaders text
      else some ([], c :: text)
termination_by text => text.length
decreasing_by
  · exact Nat.lt_succ_of_le (length_readTag _htag)
  · exact Nat.lt_succ_of_le (length_skipLine text)
  · exact Nat.lt_succ_self _

/-! ## Movetext -/

/-- What one step of the movetext reader does: it goes on behind what it has read, it stops in
front of a line that ends the game, or the text is no game. -/
inductive Step where
  | next (tokens : List Token) (depth : ℕ) (terminated : Bool) (rest : Text)
  | stop
  | fail

/-- A semicolon comment, unless braces around it would end early. -/
def lineComment (text : Text) : Token :=
  if '\x7d' ∈ text then .unparsed text else .comment text

/-- A line without the carriage return at its end. -/
def stripReturn (text : Text) : Text := if text.getLast? = some '\r' then text.dropLast else text

/-- `movetext_line_boundary_with`, behind a line end. -/
def lineBoundary (depth : ℕ) (terminated : Bool) (rest : Text) : Step :=
  match rest.dropWhile isLayout with
  | [] => .next [] depth terminated rest
  | '%' :: after =>
      .next [.unparsed (stripReturn (line ('%' :: after)).1)] depth terminated
        (line ('%' :: after)).2
  | '[' :: _ => .stop
  | '\n' :: after =>
      if terminated && depth = 0 then .stop else .next [] depth terminated ('\n' :: after)
  | after => .next [] depth terminated after

/-- A run of movetext, and what follows it. -/
def run (c : Char) (rest : Text) : Text × Text :=
  (c :: rest.takeWhile (!isTokenEnd ·), rest.dropWhile (!isTokenEnd ·))

/-- `read_move_number_or_discarded`. -/
def readMoveNumber (c : Char) (rest : Text) : List Token :=
  if (run c rest).1.all Char.isDigit then [] else [.unparsed (run c rest).1]

/-- `btou` of a NAG. -/
def readNag (digits : Text) : Option ℕ :=
  if digits ≠ [] ∧ digits.all Char.isDigit ∧ Text.digitsValue digits ≤ 255 then
    some (Text.digitsValue digits)
  else none

def nagToken (code : ℕ) : Token := .nag ('$' :: Decimal.digits code)

/-- A run that starts with `$`. -/
def readNagRun (c : Char) (rest : Text) : Token :=
  match readNag (run c rest).1.tail with
  | some code => nagToken code
  | none => .unparsed (run c rest).1

/-- A glyph of one or two characters. -/
def readGlyph (c : Char) (rest : Text) : ℕ × Text :=
  if c = '!' then
    if rest.head? = some '!' then (3, rest.tail)
    else if rest.head? = some '?' then (5, rest.tail)
    else (1, rest)
  else if rest.head? = some '!' then (6, rest.tail)
  else if rest.head? = some '?' then (4, rest.tail)
  else (2, rest)

/-- Castling that is written with zeros, behind its first two zeros. -/
def readCastling (rest : Text) : Text × Text :=
  let (side, rest) :=
    if ['-', '0'].isPrefixOf rest then ("O-O-O".toList, rest.drop 2) else ("O-O".toList, rest)
  match rest with
  | '+' :: rest => (side ++ ['+'], rest)
  | '#' :: rest => (side ++ ['#'], rest)
  | rest => (side, rest)

/-- A result with its first character read. -/
def readOutcome (c : Char) (rest : Text) : Option (Outcome × Text) :=
  if c = '1' ∧ ['-', '0'].isPrefixOf rest then some (.whiteWins, rest.drop 2)
  else if c = '1' ∧ "/2-1/2".toList.isPrefixOf rest then some (.draw, rest.drop 6)
  else if c = '0' ∧ ['-', '1'].isPrefixOf rest then some (.blackWins, rest.drop 2)
  else none

variable (S : SanReader)

/-- A run that is a move, or is not. -/
def sanToken (text : Text) : Token :=
  match text with
  | [] => .unparsed []
  | c :: _ =>
      if '9' < c ∨ c = '-' then
        match S.fromAscii text with
        | some san => .san san
        | none => .unparsed text
      else .unparsed text

/-- A comment in braces. -/
def readComment (depth : ℕ) (terminated : Bool) (rest : Text) : Step :=
  match rest.dropWhile (· ≠ '\x7d') with
  | [] => .fail
  | _ :: after => .next [.comment (rest.takeWhile (· ≠ '\x7d'))] depth terminated after

/-- A result, castling with zeros or a move number that starts with this digit. -/
def readDigit (depth : ℕ) (terminated : Bool) (c : Char) (rest : Text) : Step :=
  match readOutcome c rest with
  | some (outcome, after) =>
      .next [.outcome (resultText outcome)] depth (terminated || depth = 0) after
  | none =>
      if c = '0' ∧ ['-', '0'].isPrefixOf rest then
        .next [.san (readCastling (rest.drop 2)).1] depth terminated (readCastling (rest.drop 2)).2
      else .next (readMoveNumber c rest) depth terminated (run c rest).2

/-- One turn of the loop of `read_movetext` at the character `c`. -/
def readStep (depth : ℕ) (terminated : Bool) (c : Char) (rest : Text) : Step :=
  if c = '\x7b' then readComment depth terminated rest
  else if c = '\n' then lineBoundary depth terminated rest
  else if c = ';' then
    .next [lineComment (stripReturn (line rest).1)] depth terminated (line rest).2
  else if c = '1' ∨ c = '0' then readDigit depth terminated c rest
  else if '2' ≤ c ∧ c ≤ '9' then .next (readMoveNumber c rest) depth terminated (run c rest).2
  else if c = '(' then .next [.parenOpen] (depth + 1) terminated rest
  else if c = ')' then .next [.parenClose] (depth - 1) terminated rest
  else if c = '$' then .next [readNagRun c rest] depth terminated (run c rest).2
  else if c = '!' ∨ c = '?' then
    .next [nagToken (readGlyph c rest).1] depth terminated (readGlyph c rest).2
  else if c = '*' then .next [.outcome (resultText .unknown)] depth (terminated || depth = 0) rest
  else if isLayout c || c == 'P' || c == '.' then .next [] depth terminated rest
  else .next [sanToken S (run c rest).1] depth terminated (run c rest).2

/-! ### Progress -/

/-- A step goes on with no more than this. -/
def Step.Within (limit : ℕ) : Step → Prop
  | .next _ _ _ rest => rest.length ≤ limit
  | .stop => True
  | .fail => True

theorem length_run (c : Char) (rest : Text) : (run c rest).2.length ≤ rest.length :=
  (List.dropWhile_suffix _).length_le

theorem length_readGlyph (c : Char) (rest : Text) : (readGlyph c rest).2.length ≤ rest.length := by
  have htail : rest.tail.length ≤ rest.length := (List.tail_suffix rest).length_le
  rw [readGlyph]
  split_ifs <;> first | exact htail | exact Nat.le_refl _

theorem length_readCastling (rest : Text) : (readCastling rest).2.length ≤ rest.length := by
  have htail : ∀ {c : Char} {side after : Text}, side = c :: after →
      side.length ≤ rest.length → after.length ≤ rest.length := by
    rintro c _ after rfl hside
    exact (Nat.le_succ _).trans hside
  have hlong : (rest.drop 2).length ≤ rest.length := (List.drop_suffix 2 rest).length_le
  rw [readCastling]
  split_ifs
  · dsimp only
    split
    · next hside => exact htail hside hlong
    · next hside => exact htail hside hlong
    · exact hlong
  · dsimp only
    split
    · exact htail rfl (Nat.le_refl _)
    · exact htail rfl (Nat.le_refl _)
    · exact Nat.le_refl _

theorem length_readOutcome {c : Char} {rest : Text} {found : Outcome × Text}
    (h : readOutcome c rest = some found) : found.2.length ≤ rest.length := by
  rw [readOutcome] at h
  split_ifs at h
  · obtain rfl := Option.some.inj h
    exact (List.drop_suffix 2 rest).length_le
  · obtain rfl := Option.some.inj h
    exact (List.drop_suffix 6 rest).length_le
  · obtain rfl := Option.some.inj h
    exact (List.drop_suffix 2 rest).length_le

theorem lineBoundary_within (depth : ℕ) (terminated : Bool) (rest : Text) :
    (lineBoundary depth terminated rest).Within rest.length := by
  have hafter : (rest.dropWhile isLayout).length ≤ rest.length :=
    (List.dropWhile_suffix _).length_le
  rw [lineBoundary]
  split
  · exact Nat.le_refl _
  · next hdrop =>
    rw [hdrop] at hafter
    exact (length_line _).trans hafter
  · trivial
  · next hdrop =>
    rw [hdrop] at hafter
    split
    · trivial
    · exact hafter
  · next hdrop =>
    exact hafter

theorem Step.Within.ite {limit : ℕ} {condition : Prop} [Decidable condition] {a b : Step}
    (ha : a.Within limit) (hb : b.Within limit) : (if condition then a else b).Within limit := by
  split
  · exact ha
  · exact hb

theorem Step.within_next {limit depth : ℕ} {terminated : Bool} {tokens : List Token} {rest : Text}
    (h : rest.length ≤ limit) : (Step.next tokens depth terminated rest).Within limit := h

theorem readComment_within (depth : ℕ) (terminated : Bool) (rest : Text) :
    (readComment depth terminated rest).Within rest.length := by
  have hafter : (rest.dropWhile (· ≠ '\x7d')).length ≤ rest.length :=
    (List.dropWhile_suffix _).length_le
  rw [readComment]
  split
  · trivial
  · next hdrop =>
    rw [hdrop] at hafter
    exact (Nat.le_succ _).trans hafter

theorem readDigit_within (depth : ℕ) (terminated : Bool) (c : Char) (rest : Text) :
    (readDigit depth terminated c rest).Within rest.length := by
  rw [readDigit]
  split
  · next houtcome => exact length_readOutcome houtcome
  · apply Step.Within.ite
    · exact (length_readCastling _).trans (List.drop_suffix 2 rest).length_le
    · exact length_run c rest

theorem readStep_within (depth : ℕ) (terminated : Bool) (c : Char) (rest : Text) :
    (readStep S depth terminated c rest).Within rest.length := by
  have hrun := length_run c rest
  apply Step.Within.ite (readComment_within depth terminated rest)
  apply Step.Within.ite (lineBoundary_within depth terminated rest)
  apply Step.Within.ite (Step.within_next (length_line rest))
  apply Step.Within.ite (readDigit_within depth terminated c rest)
  apply Step.Within.ite (Step.within_next hrun)
  apply Step.Within.ite (Step.within_next le_rfl)
  apply Step.Within.ite (Step.within_next le_rfl)
  apply Step.Within.ite (Step.within_next hrun)
  apply Step.Within.ite (Step.within_next (length_readGlyph c rest))
  apply Step.Within.ite (Step.within_next le_rfl)
  apply Step.Within.ite (Step.within_next le_rfl)
  exact hrun

/-- The tokens of the movetext and what is left behind the game. -/
def readMovetext (depth : ℕ) (terminated : Bool) : Text → Option (List Token × Text)
  | [] => some ([], [])
  | c :: rest =>
      match _hstep : readStep S depth terminated c rest with
      | .next tokens depth' terminated' rest' =>
          (readMovetext depth' terminated' rest').map fun found ↦ (tokens ++ found.1, found.2)
      | .stop => some ([], c :: rest)
      | .fail => none
termination_by text => text.length
decreasing_by
  have hwithin := readStep_within S depth terminated c rest
  rw [_hstep] at hwithin
  exact Nat.lt_succ_of_le hwithin

/-! ## Games -/

inductive LexError where
  | tooLarge
  | parseError
  | moreThanOneGame
  deriving DecidableEq, Repr

/-- `read_one_range_game` with the lexer: the tokens of the one game of a text. -/
def lexGame (text : Text) : Except LexError (List Token) :=
  match skipWhitespace (skipBom text) with
  | [] => .ok []
  | text =>
      match readHeaders text with
      | none => .error .parseError
      | some (tags, movetext) =>
          match readMovetext S 0 false movetext with
          | none => .error .parseError
          | some (moves, rest) =>
              match skipWhitespace (skipBom (skipWhitespace rest)) with
              | [] => .ok (tags ++ moves)
              | rest =>
                  match readHeaders rest with
                  | none => .error .parseError
                  | some _ => .error .moreThanOneGame

/-- The command `lex_pgn`. -/
def lexPgn (text : Text) : Except LexError (List Token) :=
  if maxPgnLength < (Utf8.encode text).length then .error .tooLarge else lexGame S text

end EnCroissant.PgnLexer
