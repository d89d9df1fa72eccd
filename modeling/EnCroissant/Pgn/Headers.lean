import EnCroissant.Library.Decimal
import EnCroissant.Library.Escaping
import EnCroissant.Library.Record
import EnCroissant.Tree.Node

/-!
# Headers of a game

The tags of a game are read into a value with one field for each tag the program
knows and a record of the others, and are written again line by line.  The lexer
and `JSON.parse` are parameters.
-/

namespace EnCroissant.PgnHeaders

inductive Token where
  | parenOpen
  | parenClose
  | comment (value : Text)
  | unparsed (value : Text)
  | san (value : Text)
  | header (tag : String) (value : Text)
  | nag (value : Text)
  | outcome (value : Text)

/-- What `JSON.parse` gives, apart from what no reader of headers asks for. -/
inductive JsonValue where
  | number (value : ℚ)
  | array (items : List JsonValue)
  | other

def maxSafeInteger : ℕ := 9007199254740991

def maxStartPathLength : ℕ := 512

/-- The fields of the headers that the tags of a game are read into or written from. -/
@[ext]
structure GameHeaders where
  fen : Text
  event : Text
  site : Text
  date : Text
  time : Option Text
  round : Text
  white : Text
  whiteElo : Option ℕ
  black : Text
  blackElo : Option ℕ
  result : Outcome
  timeControl : Option Text
  whiteTimeControl : Option Text
  blackTimeControl : Option Text
  eco : Option Text
  variant : Option Text
  start : Option (List ℕ)
  orientation : Option Color
  other : Record String Text

/-! ## Tag lines -/

def isEscaped (c : Char) : Bool := c == '\\' || c == '"'

def escapeTagValue (value : Text) : Text := Escaping.escape '\\' isEscaped value

def decodePgnTagValue (value : Text) : Text := Escaping.unescape '\\' isEscaped value

/-- A tag line around a value that is written as it stands. -/
def tagLine (name : String) (value : Text) : Text :=
  '[' :: (name.toList ++ ' ' :: '"' :: (value ++ ['"', ']', '\n']))

def pgnTag (name : String) (value : Text) : Text := tagLine name (escapeTagValue value)

def resultText : Outcome → Text
  | .unknown => ['*']
  | .whiteWins => ['1', '-', '0']
  | .blackWins => ['0', '-', '1']
  | .draw => ['1', '/', '2', '-', '1', '/', '2']

def orientationText : Color → Text
  | .white => ['w', 'h', 'i', 't', 'e']
  | .black => ['b', 'l', 'a', 'c', 'k']

def eloText (elo : ℕ) : Text := if elo = 0 then ['-'] else Decimal.digits elo

/-- `JSON.stringify` of a path. -/
def stringifyPath (path : List ℕ) : Text :=
  '[' :: ([','].intercalate (path.map Decimal.digits) ++ [']'])

/-- `text || placeholder`. -/
def orElse (text placeholder : Text) : Text := if text = [] then placeholder else text

/-- A tag that is written when its value is there and is not empty. -/
def optionalTag (name : String) (value : Option Text) : List (String × Text) :=
  match value with
  | none => []
  | some text => if text = [] then [] else [(name, text)]

/-- The number a property key stands for when it is an array index. -/
def arrayIndex (name : String) : Option ℕ :=
  let index := Text.digitsValue name.toList
  if name.toList = Decimal.digits index ∧ index < 4294967295 then some index else none

/-- `Object.entries`: array indices first, in their order, then the other keys as they came. -/
def objectEntries (r : Record String Text) : List (String × Text) :=
  (r.entries.filter fun entry ↦ (arrayIndex entry.1).isSome).mergeSort
      (fun a b ↦ (arrayIndex a.1).getD 0 ≤ (arrayIndex b.1).getD 0) ++
    r.entries.filter fun entry ↦ !(arrayIndex entry.1).isSome

/-- An Elo tag among the other tags gives way to an Elo that is a number. -/
def GameHeaders.overridden (game : GameHeaders) (name : String) : Bool :=
  (name == "WhiteElo" && game.whiteElo.isSome) || (name == "BlackElo" && game.blackElo.isSome)

def GameHeaders.knownTags (game : GameHeaders) : List (String × Text) :=
  [("Event", orElse game.event ['?']), ("Site", orElse game.site ['?']),
    ("Date", orElse game.date "????.??.??".toList), ("Round", orElse game.round ['?']),
    ("White", orElse game.white ['?']), ("Black", orElse game.black ['?']),
    ("Result", resultText game.result)] ++
  optionalTag "UTCTime" game.time ++
  optionalTag "WhiteElo" (game.whiteElo.map eloText) ++
  optionalTag "BlackElo" (game.blackElo.map eloText) ++
  optionalTag "Start" ((game.start.filter (· ≠ [])).map stringifyPath) ++
  optionalTag "Orientation" (game.orientation.map orientationText) ++
  optionalTag "TimeControl" game.timeControl ++
  optionalTag "WhiteTimeControl" game.whiteTimeControl ++
  optionalTag "BlackTimeControl" game.blackTimeControl ++
  optionalTag "ECO" game.eco ++
  optionalTag "Variant" game.variant

def GameHeaders.otherTags (game : GameHeaders) : List (String × Text) :=
  (objectEntries game.other).filter fun entry ↦ !game.overridden entry.1

def tagLines (tags : List (String × Text)) : Text := tags.flatMap fun tag ↦ pgnTag tag.1 tag.2

def headersToPGN (game : GameHeaders) : Text := tagLines (game.knownTags ++ game.otherTags)

/-- What the writer puts in front of the moves of a tree whose root stands at `fen`. -/
def writeTags (fen : Text) (headers : GameHeaders) : Text :=
  headersToPGN headers ++
    (if fen ≠ initialFen then tagLine "SetUp" ['1'] ++ tagLine "FEN" fen else []) ++ ['\n']

/-! ## Reading -/

def Token.tagName : Token → Option String
  | header tag _ => some tag
  | _ => none

def collectTag (headersN : Record String Text) : Token → Record String Text
  | .header tag value => headersN.set tag (decodePgnTagValue value)
  | .outcome value => headersN.set "Result" value
  | _ => headersN

def readTags (tokens : List Token) : Record String Text := tokens.foldl collectTag Record.empty

/-- The tags that are read into fields of their own. -/
def fieldTags : List String :=
  ["Black", "White", "BlackElo", "WhiteElo", "Date", "Site", "Event", "Result", "FEN", "Round",
    "Start", "Orientation", "TimeControl", "Variant"]

/-- The number an Elo text stands for. -/
def eloNumber (raw : Text) : Option ℕ :=
  if raw = ['-'] then some 0
  else if raw.trim ≠ [] ∧ raw.trim.all Char.isDigit ∧
      Text.digitsValue raw.trim ≤ maxSafeInteger then
    some (Text.digitsValue raw.trim)
  else none

/-- The Elo of a tag; a text that is no number is kept among the other tags. -/
def parseEloTag (raw : Option Text) (key : String) (other : Record String Text) :
    Option ℕ × Record String Text :=
  match raw with
  | none => (none, other)
  | some raw =>
      if raw = [] then (none, other)
      else
        match eloNumber raw with
        | some elo => (some elo, other)
        | none => (none, other.set key raw)

def parseResult (value : Option Text) : Outcome :=
  if value = some (resultText .whiteWins) then .whiteWins
  else if value = some (resultText .blackWins) then .blackWins
  else if value = some (resultText .draw) then .draw
  else .unknown

def parseOrientation (value : Option Text) : Option Color :=
  if value = some (orientationText .white) then some .white
  else if value = some (orientationText .black) then some .black
  else none

/-- A safe integer that is not negative. -/
def pathIndex : JsonValue → Option ℕ
  | .number value =>
      if value.den = 1 ∧ 0 ≤ value.num ∧ value.num ≤ maxSafeInteger then some value.num.toNat
      else none
  | _ => none

def parseRawStartHeader (parseJson : Text → Option JsonValue) (value : Option Text) : List ℕ :=
  match value with
  | none => []
  | some text =>
      if text = [] then []
      else
        match parseJson text with
        | some (.array items) =>
            if maxStartPathLength < items.length then [] else (items.mapM pathIndex).getD []
        | _ => []

/-- The headers of the tags in a map. -/
def headersOf (parseJson : Text → Option JsonValue) (headersN : Record String Text) :
    GameHeaders :=
  let other := headersN.without fun name ↦ decide (name ∈ fieldTags)
  let blackElo := parseEloTag (headersN.get? "BlackElo") "BlackElo" other
  let whiteElo := parseEloTag (headersN.get? "WhiteElo") "WhiteElo" blackElo.2
  { fen := normalizeFen ((headersN.get? "FEN").getD [])
    event := (headersN.get? "Event").getD []
    site := (headersN.get? "Site").getD []
    date := (headersN.get? "Date").getD []
    time := none
    round := (headersN.get? "Round").getD ['?']
    white := (headersN.get? "White").getD ['?']
    whiteElo := whiteElo.1
    black := (headersN.get? "Black").getD ['?']
    blackElo := blackElo.1
    result := parseResult (headersN.get? "Result")
    timeControl := headersN.get? "TimeControl"
    whiteTimeControl := none
    blackTimeControl := none
    eco := none
    variant := headersN.get? "Variant"
    start := some (parseRawStartHeader parseJson (headersN.get? "Start"))
    orientation := parseOrientation (headersN.get? "Orientation")
    other := whiteElo.2 }

def getPgnHeaders (parseJson : Text → Option JsonValue) (tokens : List Token) : GameHeaders :=
  headersOf parseJson (readTags tokens)

/-! ## Reading what is written -/

/-- The lexer of games and the parser of JSON. -/
structure HeaderEnv where
  lexPgn : Text → List Token
  parseJson : Text → Option JsonValue

/-- A tag fits in one line: no name ends before its value starts, and no value has a line end. -/
structure Legible (tag : String × Text) : Prop where
  name : ∀ c ∈ tag.1.toList, c ≠ '"' ∧ c ≠ ']' ∧ c ≠ '\n'
  value : '\n' ∉ tag.2

def Token.Legible : Token → Prop
  | header tag value => PgnHeaders.Legible (tag, decodePgnTagValue value)
  | _ => True

/-- The lexer finds the tags of tag lines, and `JSON.parse` undoes `JSON.stringify`. -/
structure HeaderEnv.Reads (env : HeaderEnv) : Prop where
  tags : ∀ tags : List (String × Text), (∀ tag ∈ tags, Legible tag) →
    env.lexPgn (tagLines tags ++ ['\n']) =
      tags.map fun tag ↦ .header tag.1 (escapeTagValue tag.2)
  paths : ∀ path : List ℕ, (∀ index ∈ path, index ≤ maxSafeInteger) →
    env.parseJson (stringifyPath path) = some (.array (path.map fun index : ℕ ↦ .number index))

/-- Equality of headers, with the other tags compared where `compared` says so. -/
structure GameHeaders.SameOn (compared : String → Bool) (a b : GameHeaders) : Prop where
  fields : { a with other := Record.empty } = { b with other := Record.empty }
  other : ∀ name, compared name = true → a.other.get? name = b.other.get? name

/-- Reading the written tags of `headers` gives `expected`, and no compared tag is there twice. -/
structure HeaderEnv.Rereads (env : HeaderEnv) (compared : String → Bool)
    (headers expected : GameHeaders) : Prop where
  same : (getPgnHeaders env.parseJson (env.lexPgn (writeTags headers.fen headers))).SameOn
    compared expected
  once : (((env.lexPgn (writeTags headers.fen headers)).filterMap Token.tagName).filter
    compared).Nodup

/-- The fields the writer fills in when they are empty, and those it leaves out. -/
def GameHeaders.filled (game : GameHeaders) : GameHeaders :=
  { game with
    event := orElse game.event ['?']
    site := orElse game.site ['?']
    date := orElse game.date "????.??.??".toList
    round := orElse game.round ['?']
    white := orElse game.white ['?']
    black := orElse game.black ['?']
    timeControl := game.timeControl.filter (· ≠ [])
    variant := game.variant.filter (· ≠ []) }

/-- Every tag, except `SetUp` beside a start position of its own. -/
def besideSetUp (fen : Text) (name : String) : Bool := name != "SetUp" || fen == initialFen

end EnCroissant.PgnHeaders
