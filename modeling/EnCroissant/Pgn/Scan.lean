import Mathlib
import EnCroissant.Library.Lines
import EnCroissant.Library.Utf8
import EnCroissant.Error

/-!
# Scanning a PGN file

The scanner reads a file line by line and records the byte range of every game.
A game starts at a tag line behind the movetext of the game before it, the
first one at the first line that is not blank, an escape or a line comment.
-/

namespace EnCroissant

def maxLineLen : ℕ := 1024 * 1024

def newline : UInt8 := 10

def utf8Bom : List UInt8 := [0xEF, 0xBB, 0xBF]

/-- The length of the byte order mark in front of a file or line. -/
def bomLength (bytes : List UInt8) : ℕ :=
  if bytes.take 3 = utf8Bom then 3 else 0

/-! ## Tag lines -/

structure TagValueSpan where
  name : ℕ × ℕ
  value : ℕ × ℕ
  deriving DecidableEq, Repr

def isAsciiWhitespace (b : UInt8) : Bool :=
  b = 32 || b = 9 || b = 10 || b = 12 || b = 13

def isBlank (b : UInt8) : Bool := b = 32 || b = 9

/-- A letter, a digit or `_`. -/
def isNameByte (b : UInt8) : Bool :=
  (48 ≤ b && b ≤ 57) || (65 ≤ b && b ≤ 90) || (97 ≤ b && b ≤ 122) || b = 95

/-- The length of a quoted value up to its closing quote. -/
def valueLength : List UInt8 → Option ℕ
  | [] => none
  | 34 :: _ => some 0
  | 13 :: _ => none
  | 10 :: _ => none
  | [92] => none
  | 92 :: c :: rest => if c = 13 ∨ c = 10 then none else (· + 2) <$> valueLength rest
  | _ :: rest => (· + 1) <$> valueLength rest

/-- A tag pair behind its opening bracket: its span and its length up to and
with the closing bracket. -/
def tagPair (start : ℕ) (bytes : List UInt8) : Option (TagValueSpan × ℕ) :=
  let nameLength := (bytes.takeWhile isNameByte).length
  let afterName := bytes.drop nameLength
  let blanks := (afterName.takeWhile isBlank).length
  if nameLength = 0 ∨ blanks = 0 then none
  else
    match afterName.drop blanks with
    | 34 :: value =>
        match valueLength value with
        | none => none
        | some length =>
            let valueStart := nameLength + blanks + 1
            let afterValue := value.drop (length + 1)
            let blanks' := (afterValue.takeWhile isBlank).length
            if (afterValue.drop blanks').head? = some 93 then
              some (⟨(start, start + nameLength),
                (start + valueStart, start + valueStart + length)⟩,
                valueStart + length + 1 + blanks' + 1)
            else none
    | _ => none

/-- The tag pairs from offset `start` on; `skip` bytes belong to the pair just
read. -/
def tagValueSpansFrom : (skip start : ℕ) → List UInt8 → Option (List TagValueSpan)
  | _, _, [] => some []
  | skip + 1, start, _ :: rest => tagValueSpansFrom skip (start + 1) rest
  | 0, start, b :: rest =>
      if isAsciiWhitespace b then tagValueSpansFrom 0 (start + 1) rest
      else if b = 91 then
        match tagPair (start + 1) rest with
        | none => none
        | some (span, length) => (span :: ·) <$> tagValueSpansFrom length (start + 1) rest
      else none

/-- The tag pairs of a line that holds nothing else but whitespace, and at
least one. -/
def tagValueSpans (bytes : List UInt8) : Option (List TagValueSpan) :=
  match tagValueSpansFrom 0 (bomLength bytes) (bytes.drop (bomLength bytes)) with
  | some (span :: spans) => some (span :: spans)
  | _ => none

def isTagHeader (line : List UInt8) (inBraceComment : Bool) : Bool :=
  !inBraceComment && (tagValueSpans line).isSome

/-! ## The text of a line -/

/-- `char::is_whitespace`. -/
def isWhitespace (c : Char) : Bool :=
  let n := c.toNat
  (9 ≤ n && n ≤ 13) || n = 32 || n = 0x85 || n = 0xA0 || n = 0x1680 ||
    (0x2000 ≤ n && n ≤ 0x200A) || n = 0x2028 || n = 0x2029 || n = 0x202F || n = 0x205F ||
    n = 0x3000

def trim (cs : List Char) : List Char :=
  ((cs.dropWhile isWhitespace).reverse.dropWhile isWhitespace).reverse

/-- `trim_start_matches([' ', '\t'])`. -/
def trimBlanks (cs : List Char) : List Char :=
  cs.dropWhile fun c ↦ c = ' ' || c = '\t'

/-- The brace-comment state after the characters of a line. -/
def updateBraceFrom : (inBraceComment inQuotedString escaped : Bool) → List Char → Bool
  | brace, _, _, [] => brace
  | true, quoted, escaped, c :: cs => updateBraceFrom (c ≠ '}') quoted escaped cs
  | false, quoted, true, _ :: cs => updateBraceFrom false quoted false cs
  | false, quoted, false, c :: cs =>
      if quoted && c = '\\' then updateBraceFrom false quoted true cs
      else if c = '"' then updateBraceFrom false (!quoted) false cs
      else if c = ';' && !quoted then false
      else if c = '{' && !quoted then updateBraceFrom true quoted false cs
      else updateBraceFrom false quoted false cs

def updateBraceComment (line : List Char) (inBraceComment : Bool) : Bool :=
  updateBraceFrom inBraceComment false false line

/-- What the scanner sees in a line. -/
structure LineClass where
  header : Bool
  escapedLine : Bool
  escapedOrLineComment : Bool
  nonWhitespace : Bool
  deriving DecidableEq, Repr

def classify (line : List UInt8) (text : List Char) (inBraceComment : Bool) : LineClass :=
  let escapedLine := !inBraceComment && (trimBlanks text).head? = some '%'
  let escapedOrLineComment :=
    escapedLine || (!inBraceComment && (trimBlanks text).head? = some ';')
  { header := isTagHeader line inBraceComment
    escapedLine := escapedLine
    escapedOrLineComment := escapedOrLineComment
    nonWhitespace := !escapedOrLineComment && !(trim text).isEmpty }

/-! ## The scanner -/

structure GameRange where
  start : ℕ
  stop : ℕ
  deriving DecidableEq, Repr

structure ScanState where
  games : List GameRange
  gameStart : Option ℕ
  headerBlockEnded : Bool
  inBraceComment : Bool
  position : ℕ
  deriving DecidableEq, Repr

/-- Sets the end of the last range, if there is one. -/
def closeLast (games : List GameRange) (stop : ℕ) : List GameRange :=
  match games.getLast? with
  | none => []
  | some last => games.dropLast ++ [{ last with stop := stop }]

namespace ScanState

def initial (start : ℕ) : ScanState := ⟨[], none, false, false, start⟩

/-- Pushes an empty range at the start of the current line. -/
def startGame (st : ScanState) (games : List GameRange) (headerBlockEnded : Bool) : ScanState :=
  { st with
    games := games ++ [⟨st.position, st.position⟩]
    gameStart := some st.position
    headerBlockEnded := headerBlockEnded }

end ScanState

/-- The first half of a line's effect: a game may start. -/
def ScanState.beginGame (st : ScanState) (c : LineClass) : Except Error ScanState :=
  if c.header && st.headerBlockEnded then
    if st.games.isEmpty then .error (.panic "game start implies a game range")
    else .ok (st.startGame (closeLast st.games st.position) false)
  else if c.nonWhitespace && st.gameStart.isNone then
    .ok (st.startGame st.games st.headerBlockEnded)
  else .ok st

/-- The second half: the header block and the brace comment go on or end. -/
def ScanState.finishLine (st : ScanState) (c : LineClass) (text : List Char) (length : ℕ) :
    ScanState :=
  { st with
    headerBlockEnded :=
      if !c.header && !c.escapedLine && st.gameStart.isSome then true
      else st.headerBlockEnded
    inBraceComment :=
      if !c.header && !c.escapedOrLineComment then updateBraceComment text st.inBraceComment
      else st.inBraceComment
    position := st.position + length }

def scanLine (st : ScanState) (line : List UInt8) : Except Error ScanState :=
  if maxLineLen < line.length then
    .error (invalidData "PGN line exceeds the 1 MiB limit")
  else
    match Utf8.decode line with
    | none => .error (invalidData "PGN is not valid UTF-8")
    | some text =>
        let c := classify line text st.inBraceComment
        match st.beginGame c with
        | .error e => .error e
        | .ok st' => .ok (st'.finishLine c text line.length)

def scanLines (st : ScanState) : List (List UInt8) → Except Error ScanState
  | [] => .ok st
  | line :: lines =>
      match scanLine st line with
      | .error e => .error e
      | .ok st' => scanLines st' lines

def scanGames (bytes : List UInt8) : Except Error (List GameRange) :=
  let start := bomLength bytes
  match scanLines (.initial start) (Lines.split newline (bytes.drop start)) with
  | .error e => .error e
  | .ok st =>
      if st.inBraceComment then
        .error (invalidData "PGN brace comment is not closed before EOF")
      else .ok (closeLast st.games st.position)

/-- The bytes of a range. -/
def GameRange.slice (r : GameRange) (bytes : List UInt8) : List UInt8 :=
  (bytes.take r.stop).drop r.start

end EnCroissant
