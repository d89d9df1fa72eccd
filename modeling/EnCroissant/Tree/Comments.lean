import EnCroissant.Tree.Node

/-!
# Commands in comments

A comment holds prose and commands `[%name body]`.  Reading a comment takes the
drawings out, then the commands that the tree does not model, and leaves the
rest to the comment parser of the rules library, whose syntax is a parameter.
-/

namespace EnCroissant

/-! ## The pattern of a command -/

/-- `[A-Za-z0-9_]`. -/
def isWordChar (c : Char) : Bool := c.isAlphanum || c == '_'

/-- A command without the white space around it; a body starts with its own white space. -/
structure CommandCore where
  name : Text
  body : Option Text
  deriving DecidableEq

def CommandCore.text (core : CommandCore) : Text :=
  '[' :: '%' :: (core.name ++ core.body.getD [] ++ [']'])

/-- A match of `PGN_COMMENT_COMMAND`. -/
structure CommentCommand where
  lead : Option Char
  core : CommandCore
  trail : Option Char
  deriving DecidableEq

def CommentCommand.text (command : CommentCommand) : Text :=
  command.lead.toList ++ command.core.text ++ command.trail.toList

/-- The body after the name of a command, and what follows the command. -/
def bodyAt : Text → Option (Option Text × Text)
  | [] => none
  | c :: text =>
      if c = ']' then some (none, text)
      else if Text.isSpace c then
        match text.dropWhile (· ≠ ']') with
        | [] => none
        | _ :: rest => some (some (c :: text.takeWhile (· ≠ ']')), rest)
      else none

def coreAt : Text → Option (CommandCore × Text)
  | '[' :: '%' :: text =>
      if text.takeWhile isWordChar = [] then none
      else (bodyAt (text.dropWhile isWordChar)).map fun found ↦
        (⟨text.takeWhile isWordChar, found.1⟩, found.2)
  | _ => none

/-- `\s?`. -/
def spaceAt : Text → Option Char × Text
  | [] => (none, [])
  | c :: text => if Text.isSpace c then (some c, text) else (none, c :: text)

/-- The match at the start of a text, among the commands a pattern accepts. -/
def commandAt (accepts : CommandCore → Bool) (text : Text) : Option CommentCommand :=
  match coreAt (spaceAt text).2 with
  | none => none
  | some (core, rest) =>
      if accepts core then some ⟨(spaceAt text).1, core, (spaceAt rest).1⟩ else none

/-- A comment is made of matches and of the characters between them. -/
inductive CommentPart where
  | plain (c : Char)
  | command (found : CommentCommand)
  deriving DecidableEq

def CommentPart.text : CommentPart → Text
  | plain c => [c]
  | command found => found.text

def commentPartAt (accepts : CommandCore → Bool) (c : Char) (text : Text) : CommentPart :=
  match commandAt accepts (c :: text) with
  | none => .plain c
  | some found => .command found

/-- The matches from the left; `skip` counts what is left of the match that the scan is in. -/
def commentPartsFrom (accepts : CommandCore → Bool) : (skip : ℕ) → Text → List CommentPart
  | _, [] => []
  | skip + 1, _ :: text => commentPartsFrom accepts skip text
  | 0, c :: text =>
      commentPartAt accepts c text ::
        commentPartsFrom accepts ((commentPartAt accepts c text).text.length - 1) text

def commentParts (accepts : CommandCore → Bool) (text : Text) : List CommentPart :=
  commentPartsFrom accepts 0 text

def CommentPart.replaced (f : CommentCommand → Text) : CommentPart → Text
  | plain c => [c]
  | command found => f found

/-- `text.replace(pattern, f)`. -/
def replaceCommands (accepts : CommandCore → Bool) (f : CommentCommand → Text) (text : Text) :
    Text :=
  (commentParts accepts text).flatMap (CommentPart.replaced f)

def CommentPart.command? : CommentPart → Option CommentCommand
  | plain _ => none
  | command found => some found

/-- `PGN_COMMENT_COMMAND` takes every command. -/
def anyCommand (_ : CommandCore) : Bool := true

def commandsIn (text : Text) : List CommentCommand :=
  (commentParts anyCommand text).filterMap CommentPart.command?

/-! ## Drawings -/

inductive DrawingColor where
  | green
  | red
  | yellow
  | blue
  | orange
  | cyan
  deriving DecidableEq, Repr

def DrawingColor.name : DrawingColor → Text
  | green => "green".toList
  | red => "red".toList
  | yellow => "yellow".toList
  | blue => "blue".toList
  | orange => "orange".toList
  | cyan => "cyan".toList

/-- `PGN_DRAWING_COLORS`. -/
def drawingColor : Char → Option DrawingColor
  | 'G' => some .green
  | 'R' => some .red
  | 'Y' => some .yellow
  | 'B' => some .blue
  | 'O' => some .orange
  | 'C' => some .cyan
  | _ => none

structure PgnDrawing where
  color : DrawingColor
  source : Square
  target : Square
  deriving DecidableEq

def Comment.parseSquare (file rank : Char) : Option Square :=
  if 'a' ≤ file ∧ file ≤ 'h' ∧ '1' ≤ rank ∧ rank ≤ '8' then
    some (Square.fromCoords (file.toNat - 'a'.toNat) (rank.toNat - '1'.toNat))
  else none

/-- The drawing of one entry, if the entry is supported. -/
def readDrawing : Text → Option PgnDrawing
  | [code, file, rank] => do
      let color ← drawingColor code
      let square ← Comment.parseSquare file rank
      return ⟨color, square, square⟩
  | [code, file, rank, file', rank'] => do
      let color ← drawingColor code
      let source ← Comment.parseSquare file rank
      let target ← Comment.parseSquare file' rank'
      return ⟨color, source, target⟩
  | _ => none

def toDrawShape (drawing : PgnDrawing) : DrawShape :=
  ⟨drawing.source, some drawing.target, some drawing.color.name⟩

def drawingEntries (body : Text) : List Text := (body.drop 1).splitOn ','

def drawingsOf (body : Text) : List PgnDrawing := (drawingEntries body).filterMap readDrawing

def residualEntries (body : Text) : List Text :=
  (drawingEntries body).filter fun entry ↦ (readDrawing entry).isNone

/-- The body of a command that can hold drawings. -/
def CommandCore.drawingBody (core : CommandCore) : Option Text :=
  if core.name = "cal".toList ∨ core.name = "csl".toList then core.body else none

/-- `text.replace(pattern, () => new)`, which replaces the first occurrence. -/
def replaceFirst (pattern new : Text) : Text → Text
  | [] => if pattern = [] then new else []
  | c :: text =>
      if pattern.isPrefixOf (c :: text) then new ++ (c :: text).drop pattern.length
      else c :: replaceFirst pattern new text

def drawingReplacement (found : CommentCommand) : Text :=
  match found.core.drawingBody with
  | none => found.text
  | some body =>
      if residualEntries body = [] then [' ', ' ']
      else replaceFirst body (body.take 1 ++ [','].intercalate (residualEntries body)) found.text

def CommandCore.drawings (core : CommandCore) : List PgnDrawing :=
  (core.drawingBody.map drawingsOf).getD []

/-- The comment without the supported entries, and their drawings. -/
def extractPgnDrawings (comment : Text) : Text × List PgnDrawing :=
  (replaceCommands anyCommand drawingReplacement comment,
    (commandsIn comment).flatMap fun found ↦ found.core.drawings)

/-! ## Splitting a comment -/

/-- The comment parser of the rules library: the bodies it accepts for the commands it knows, and
the evaluation and the clock it finds in a comment. -/
structure CommentSyntax where
  wellFormed : (name value : Text) → Bool
  evaluation : Text → Option Score
  clock : Text → Option ℚ

structure SplitComment where
  text : Text
  commands : Text
  evaluation : Option Score
  shapes : List PgnDrawing
  clock : Option ℚ
  gameEnds : List GameEnd

def gameEndCommand : Text := "gameend".toList

def gameEndProse : Text := "Game ended here".toList

namespace CommentSyntax

variable (syn : CommentSyntax)

/-- The commands of one name that the parser takes out of a comment. -/
def accepts (name : Text) (core : CommandCore) : Bool :=
  match core.body with
  | some (_ :: value) => decide (core.name = name) && syn.wellFormed name value
  | _ => false

def parsedNames : List Text :=
  ["clk".toList, "emt".toList, "eval".toList, "csl".toList, "cal".toList]

/-- The text `parseComment` leaves. -/
def parseComment (comment : Text) : Text :=
  (parsedNames.foldl (fun text name ↦
    replaceCommands (syn.accepts name) (fun _ ↦ [' ', ' ']) text) comment).trim

def modeledCommands : List Text := ["eval".toList, "clk".toList]

def isWellFormedModeled (command : Text) : Bool := decide (syn.parseComment command = [])

def isModeled (found : CommentCommand) : Bool :=
  modeledCommands.contains found.core.name && syn.isWellFormedModeled found.text.trim

def isGameEnd (modelGameEnd : Bool) (found : CommentCommand) : Bool :=
  modelGameEnd && decide (found.core.name = gameEndCommand)

def gameEndOf (found : CommentCommand) : GameEnd :=
  match (found.core.body.getD []).trim with
  | [] => ⟨none⟩
  | termination => ⟨some termination⟩

def splitReplacement (modelGameEnd : Bool) (found : CommentCommand) : Text :=
  if isGameEnd modelGameEnd found then [' ']
  else if syn.isModeled found then found.text
  else [' ']

def splitPgnComment (comment : Text) (modelGameEnd : Bool) : SplitComment :=
  let (text, shapes) := extractPgnDrawings comment
  let found := commandsIn text
  let rest := replaceCommands anyCommand (syn.splitReplacement modelGameEnd) text
  let gameEnds := (found.filter (isGameEnd modelGameEnd)).map gameEndOf
  let kept := found.filter fun command ↦ !isGameEnd modelGameEnd command && !syn.isModeled command
  { text := if gameEnds ≠ [] ∧ (syn.parseComment rest).trim = gameEndProse then []
      else syn.parseComment rest
    commands := Text.trim (kept.flatMap CommentCommand.text)
    evaluation := syn.evaluation rest
    shapes := shapes
    clock := syn.clock rest
    gameEnds := gameEnds }

end CommentSyntax

end EnCroissant
