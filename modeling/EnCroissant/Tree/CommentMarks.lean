import EnCroissant.Library.Firsts
import EnCroissant.Library.Runs
import EnCroissant.Tree.Node

/-!
# Comments with marks

The editor holds a comment as paragraphs of text and hard breaks, with marks that may
overlap.  Before it is written its marks are cut down so that no run of emphasis begins
or ends with a blank; then each paragraph is rendered, run by run from the outside.
-/

namespace EnCroissant.CommentSerializer

open Runs

/-! ## Marks -/

inductive Mark where
  | bold
  | italic
  | strike
  | underline
  | link (href : Text) (title : Option Text)
  deriving DecidableEq

def Mark.isLink : Mark → Bool
  | link _ _ => true
  | _ => false

def hexDigit (n : ℕ) : Char := "0123456789abcdef".toList.getD n '0'

/-- How `JSON.stringify` writes a character of a string. -/
def jsonEscape (c : Char) : Text :=
  if c = '"' then "\\\"".toList
  else if c = '\\' then "\\\\".toList
  else if c.toNat = 8 then "\\b".toList
  else if c.toNat = 9 then "\\t".toList
  else if c.toNat = 10 then "\\n".toList
  else if c.toNat = 12 then "\\f".toList
  else if c.toNat = 13 then "\\r".toList
  else if c.toNat < 32 then
    "\\u00".toList ++ [hexDigit (c.toNat / 16), hexDigit (c.toNat % 16)]
  else [c]

def jsonString (text : Text) : Text := '"' :: (text.flatMap jsonEscape ++ ['"'])

def Mark.keyText : Mark → Text
  | bold => "bold".toList
  | italic => "italic".toList
  | strike => "strike".toList
  | underline => "underline".toList
  | link href title =>
      "[\"link\",".toList ++ jsonString href ++ [','] ++
        title.elim "null".toList jsonString ++ [']']

/-- The units of a character in UTF-16, by which strings are compared. -/
def utf16Units (c : Char) : List ℕ :=
  if c.toNat < 0x10000 then [c.toNat]
  else [0xD800 + (c.toNat - 0x10000) / 0x400, 0xDC00 + (c.toNat - 0x10000) % 0x400]

def Mark.key (mark : Mark) : List ℕ := mark.keyText.flatMap utf16Units

/-! ## Documents -/

/-- An attribute of a mark; `absent` is one that is undefined or null. -/
inductive Attribute where
  | absent
  | text (value : Text)
  | other
  deriving DecidableEq

structure MarkContent where
  type : String
  href : Attribute
  title : Attribute
  deriving DecidableEq

/-- A node of a paragraph; its text is missing when it is not a string. -/
structure NodeContent where
  type : String
  text : Option Text
  marks : List MarkContent
  deriving DecidableEq

structure ParagraphContent where
  type : String
  content : List NodeContent
  deriving DecidableEq

structure DocumentContent where
  type : String
  content : List ParagraphContent
  deriving DecidableEq

structure Character where
  text : Char
  marks : List Mark
  hardBreak : Bool
  deriving DecidableEq

def markKey (mark : MarkContent) : Except String Mark :=
  if mark.type = "link" then
    match mark.href, mark.title with
    | .text href, .absent => .ok (.link href none)
    | .text href, .text title => .ok (.link href (some title))
    | .text _, .other => .error "Invalid comment title"
    | _, _ => .error "Invalid comment link"
  else if mark.type = "bold" then .ok .bold
  else if mark.type = "italic" then .ok .italic
  else if mark.type = "strike" then .ok .strike
  else if mark.type = "underline" then .ok .underline
  else .error "Unsupported comment mark"

/-- `[...new Set(marks)].sort()`. -/
def sortedMarks (marks : List Mark) : List Mark :=
  (Firsts.firstsFrom id [] marks).insertionSort fun a b ↦ a.key ≤ b.key

def nodeCharacters (node : NodeContent) : Except String (List Character) := do
  let marks := sortedMarks (← node.marks.mapM markKey)
  if node.type = "hardBreak" then .ok [⟨'\n', marks, true⟩]
  else
    match node.text with
    | some text =>
        if node.type = "text" then .ok (text.map fun c ↦ ⟨c, marks, false⟩)
        else .error "Unsupported comment node"
    | none => .error "Unsupported comment node"

def paragraphCharacters (paragraph : ParagraphContent) : Except String (List Character) :=
  if paragraph.type ≠ "paragraph" then .error "Unsupported comment block"
  else (paragraph.content.mapM nodeCharacters).map List.flatten

/-- The characters of the paragraphs that have any. -/
def paragraphs (document : DocumentContent) : Except String (List (List Character)) :=
  if document.type ≠ "doc" then .error "Expected a comment document"
  else (document.content.mapM paragraphCharacters).map (·.filter (!·.isEmpty))

/-! ## Cutting marks down -/

def Character.has (mark : Mark) (c : Character) : Bool := c.marks.contains mark

def Character.without (mark : Mark) (c : Character) : Character :=
  { c with marks := c.marks.filter (· ≠ mark) }

/-- `runs(characters, mark)`. -/
def markRuns (characters : List Character) (mark : Mark) : List (ℕ × ℕ) :=
  runs (Character.has mark) characters

def slice {α : Type*} (as : List α) (start stop : ℕ) : List α := (as.take stop).drop start

def spansLine (characters : List Character) (start stop : ℕ) : Bool :=
  (slice characters start stop).any (·.text = '\n')

/-- A blank may stay underlined under a link that stays on its line. -/
def canKeepSpace (characters : List Character) (mark : Mark) (index : ℕ) : Bool :=
  mark = .underline && characters[index]?.any fun c ↦ c.marks.any fun candidate ↦
    candidate.isLink &&
      ((markRuns characters candidate).filter (·.1 ≤ index)).getLast?.any fun run ↦
        !spansLine characters run.1 run.2

/-- A blank that a mark may not begin or end with. -/
def isFlanking (characters : List Character) (mark : Mark) (index : ℕ) : Bool :=
  characters[index]?.any (fun c ↦ Text.isSpace c.text && c.text ≠ '\n') &&
    !canKeepSpace characters mark index

/-- `flanking.indexOf(false)`. -/
def firstKept : List Bool → Option ℕ
  | [] => none
  | flanking :: rest => if flanking then (firstKept rest).map (· + 1) else some 0

/-- `flanking.lastIndexOf(false)`. -/
def lastKept : List Bool → Option ℕ
  | [] => none
  | flanking :: rest =>
      match lastKept rest with
      | some last => some (last + 1)
      | none => if flanking then none else some 0

/-- Whether an offset of a run stands outside the characters it keeps; nothing is kept of a run
of blanks. -/
def isOutside (flanking : List Bool) (offset : ℕ) : Bool :=
  match firstKept flanking, lastKept flanking with
  | some first, some last => offset < first || last < offset
  | _, _ => true

def trimRun (mark : Mark) (characters : List Character) (run : ℕ × ℕ) : List Character :=
  let flanking := (List.range (run.2 - run.1)).map fun offset ↦
    isFlanking characters mark (run.1 + offset)
  characters.mapIdx fun index c ↦
    if run.1 ≤ index && index < run.2 && isOutside flanking (index - run.1) then c.without mark
    else c

/-- An underline does not go over a line break. -/
def breakLines (mark : Mark) (characters : List Character) : List Character :=
  if mark = .underline then
    characters.map fun c ↦ if c.text = '\n' then c.without mark else c
  else characters

def normalizeMark (characters : List Character) (mark : Mark) : List Character :=
  let characters := breakLines mark characters
  (markRuns characters mark).foldl (trimRun mark) characters

def emphasisMarks : List Mark := [.bold, .italic, .strike, .underline]

def normalize (paragraph : List Character) : List Character :=
  emphasisMarks.foldl normalizeMark paragraph

structure CommentFormatting where
  text : Text
  marks : List (List Mark)
  deriving DecidableEq

def formatting (paragraphs : List (List Character)) : CommentFormatting :=
  let characters := [⟨'\n', [], false⟩, ⟨'\n', [], false⟩].intercalate paragraphs
  ⟨characters.map Character.text, characters.map Character.marks⟩

def flattenCommentDocument (document : DocumentContent) : Except String CommentFormatting :=
  (paragraphs document).map formatting

def markContent : Mark → MarkContent
  | .bold => ⟨"bold", .absent, .absent⟩
  | .italic => ⟨"italic", .absent, .absent⟩
  | .strike => ⟨"strike", .absent, .absent⟩
  | .underline => ⟨"underline", .absent, .absent⟩
  | .link href title => ⟨"link", .text href, title.elim .absent .text⟩

def nodeContent (c : Character) : NodeContent where
  type := if c.hardBreak then "hardBreak" else "text"
  text := if c.hardBreak then none else some [c.text]
  marks := c.marks.map markContent

def documentContent (paragraphs : List (List Character)) : DocumentContent :=
  ⟨"doc", paragraphs.map fun paragraph ↦ ⟨"paragraph", paragraph.map nodeContent⟩⟩

def normalizeCommentDocument (document : DocumentContent) : Except String DocumentContent :=
  (paragraphs document).map fun found ↦ documentContent (found.map normalize)

/-! ## Writing -/

/-- `/[\\*_[\]~<>:()]/u`. -/
def specialChars : Text := "\\*_[]~<>:()".toList

/-- Whether a character is written behind a backslash, next to its neighbours. -/
def isEscaped (characters : List Character) (index : ℕ) (c : Character) : Bool :=
  specialChars.contains c.text ||
    (c.text = '+' &&
      ((0 < index && characters[index - 1]?.any (·.text = '+')) ||
        characters[index + 1]?.any (·.text = '+'))) ||
    (c.text = '!' && characters[index + 1]?.any (·.text = '[')) ||
    -- no character but `W` becomes `w` in lower case
    (c.text = '.' &&
      (slice characters (index - 3) index).map (·.text.toLower) = "www".toList)

def literal (characters : List Character) (index : ℕ) (c : Character) : Text :=
  if c.hardBreak then "  \n".toList
  else if isEscaped characters index c then ['\\', c.text]
  else [c.text]

def literals (characters : List Character) : List Text := characters.mapIdx (literal characters)

def opening : Mark → Text
  | .bold => "**".toList
  | .italic => "*".toList
  | .strike => "~~".toList
  | .underline => "++".toList
  | .link _ _ => ['[']

def escapeTitle (title : Text) : Text :=
  title.flatMap fun c ↦ if c = '\\' || c = '"' then ['\\', c] else [c]

def closing : Mark → Text
  | .link href title =>
      let destination :=
        if href.any fun c ↦ c = '(' || c = ')' then ['<'] ++ href ++ ['>'] else href
      let suffix := title.elim [] fun title ↦ " \"".toList ++ escapeTitle title ++ ['"']
      "](".toList ++ destination ++ suffix ++ [')']
  | mark => opening mark

def wrap (mark : Mark) (content : Text) : Text := opening mark ++ content ++ closing mark

structure Candidate where
  mark : Mark
  start : ℕ
  stop : ℕ
  priority : ℚ

def lineBreakOuterBias : ℚ := 10

def crossingEmphasisBias : ℚ := 3 / 2

def whitespaceBoundaryBias : ℚ := 6

def priority : Mark → ℚ
  | .underline => 1
  | .link _ _ => 2
  | .italic => 3
  | .bold => 4
  | .strike => 5

def candidates (characters : List Character) : List Candidate :=
  (Firsts.firstsFrom id [] (characters.flatMap (·.marks))).flatMap fun mark ↦
    (markRuns characters mark).map fun run ↦
      ⟨mark, run.1, run.2,
        priority mark - if spansLine characters run.1 run.2 then lineBreakOuterBias else 0⟩

def Candidate.isWeight (candidate : Candidate) : Bool :=
  candidate.mark = .bold || candidate.mark = .italic

/-- Whether another run of the two weights covers the start of one from before it. -/
def crosses (found : List Candidate) (candidate : Candidate) : Bool :=
  candidate.isWeight && found.any fun other ↦
    other.isWeight && other.start < candidate.start && candidate.start < other.stop

/-- Whether a run has the boundary of another one inside, at white space. -/
def splitsWhitespace (characters : List Character) (found : List Candidate)
    (candidate : Candidate) : Bool :=
  found.any fun other ↦ [other.start, other.stop].any fun boundary ↦
    candidate.start < boundary && boundary < candidate.stop &&
      (characters[boundary - 1]?.any (fun c ↦ Text.isSpace c.text) ||
        characters[boundary]?.any (fun c ↦ Text.isSpace c.text))

def biased (characters : List Character) (found : List Candidate) (candidate : Candidate) :
    Candidate :=
  let crossing := if crosses found candidate then crossingEmphasisBias else 0
  let splitting :=
    if (candidate.isWeight || candidate.mark = .strike) &&
        splitsWhitespace characters found candidate then whitespaceBoundaryBias
    else 0
  { candidate with priority := candidate.priority - crossing - splitting }

/-- Whether a run lies inside a longer one. -/
def isInner (found : List Candidate) (candidate : Candidate) : Bool :=
  found.any fun other ↦
    other.start ≤ candidate.start && candidate.stop ≤ other.stop &&
      (other.start < candidate.start || candidate.stop < other.stop)

/-- The run that is wrapped first: the one of lowest priority inside no longer run. -/
def selected (characters : List Character) : Option Candidate :=
  let found := (candidates characters).map (biased characters (candidates characters))
  (found.insertionSort fun left right ↦ left.priority ≤ right.priority).find?
    fun candidate ↦ !isInner found candidate

end EnCroissant.CommentSerializer
