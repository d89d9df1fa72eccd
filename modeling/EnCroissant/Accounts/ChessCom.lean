import EnCroissant.Error
import EnCroissant.Library.Calendar
import EnCroissant.Pgn.Scan

/-!
# The Chess.com export

The monthly archives of a player, fetched in order and published as one PGN text,
and the cursor from which the next export goes on.  A URL, the fetched archives and
the start of a game are read by parameters; `late` says before which month's end the
deadline passes.
-/

namespace EnCroissant

open Calendar (Month)

inductive ExportScope where
  | complete
  | resumable
  deriving DecidableEq, Repr

structure ExportLimits where
  pgnBytes : ℕ
  archives : ℕ
  deriving DecidableEq, Repr

def ExportLimits.default : ExportLimits := ⟨100 * 1024 * 1024, 240⟩

structure ArchiveGame where
  pgn : Option String
  rules : Option String
  deriving DecidableEq, Repr

/-! ## Archive addresses -/

structure Url where
  scheme : String
  host : Option String
  port : Option ℕ
  username : String
  password : Option String
  query : Option String
  fragment : Option String
  pathSegments : Option (List String)
  deriving DecidableEq, Repr

structure Archive where
  url : Url
  month : Month
  deriving DecidableEq, Repr

/-- An unsigned decimal, with an optional plus sign. -/
def parseDecimal (text : List Char) : Option ℕ :=
  let digits := match text with
    | '+' :: digits => digits
    | digits => digits
  if digits ≠ [] ∧ digits.all Char.isDigit then
    some (digits.foldl (fun n c ↦ 10 * n + (c.toNat - 48)) 0)
  else none

def eqIgnoreAsciiCase (a b : String) : Bool :=
  a.toList.map Char.toLower = b.toList.map Char.toLower

/-- The year and the month of an archive, where both are in range. -/
def archiveMonth (year month : String) : Option Month := do
  let year ← parseDecimal year.toList
  let month ← parseDecimal month.toList
  if h : (2007 ≤ year ∧ year ≤ 9999) ∧ 1 ≤ month ∧ month ≤ 12 then
    some ⟨year, month, h.2.1, h.2.2⟩
  else none

def validateArchiveUrl (parseUrl : String → Option Url) (player value : String) :
    Except Error Archive :=
  match parseUrl value with
  | none => .error (.invalidInput "invalid Chess.com archive URL")
  | some url =>
      if url.scheme ≠ "https" ∨ url.host ≠ some "api.chess.com" ∨ url.port ≠ some 443 ∨
          url.username ≠ "" ∨ url.password.isSome ∨ url.query.isSome ∨ url.fragment.isSome then
        .error (.invalidInput "untrusted Chess.com archive URL")
      else
        match url.pathSegments with
        | none => .error (.invalidInput "invalid Chess.com archive URL")
        | some ["pub", "player", archivePlayer, "games", year, month] =>
            if !eqIgnoreAsciiCase archivePlayer player then
              .error (.invalidInput "Chess.com archive belongs to another player")
            else
              match archiveMonth year month with
              | none => .error (.invalidInput "invalid Chess.com archive date")
              | some month => .ok ⟨url, month⟩
        | some _ => .error (.invalidInput "untrusted Chess.com archive URL")

/-- `dedup_by_key`: of neighbours in the same month, the first stays. -/
def dedupMonths : List Archive → List Archive
  | [] => []
  | archive :: rest =>
      match dedupMonths rest with
      | [] => [archive]
      | next :: later =>
          if archive.month = next.month then archive :: later else archive :: next :: later

/-- What the provider answers, and where the deadline passes. -/
structure ChessComSite where
  parseUrl : String → Option Url
  index : Except Error (List String)
  archive : Url → Except Error (List ArchiveGame)
  late : ℕ → Bool

/-! ## The export -/

/-- The last instant that is a date. -/
def maxTimestampMillis : ℕ := 8210266876799999

def firstArchiveMonth (sinceMs : Option ℤ) : Except Error (Option Month) :=
  match sinceMs with
  | none => .ok none
  | some sinceMs =>
      if sinceMs < 0 then .error (.invalidInput "invalid Chess.com export timestamp")
      else if maxTimestampMillis < sinceMs.toNat then
        .error (.invalidInput "invalid Chess.com export timestamp")
      else .ok (some (Calendar.monthOf sinceMs.toNat))

def acceptedRules (game : ArchiveGame) : Bool :=
  match game.rules with
  | none => true
  | some rules => rules = "chess" || rules = "chess960"

/-- The PGN of a game, unless it is blank. -/
def gamePgn (game : ArchiveGame) : Option String :=
  game.pgn.filter fun pgn ↦ trim pgn.toList ≠ []

/-- The games of a month written so far and their bytes; `none` once they are too many. -/
def stageGames (limit total : ℕ) :
    List ArchiveGame → List String → ℕ → Except Error (Option (List String × ℕ))
  | [], staged, monthBytes => .ok (some (staged, monthBytes))
  | game :: rest, staged, monthBytes =>
      if !acceptedRules game then stageGames limit total rest staged monthBytes
      else
        match gamePgn game with
        | none => .error (.invalidInput "Chess.com returned a game without PGN")
        | some pgn =>
            if limit < total + (monthBytes + pgn.utf8ByteSize + 1) then .ok none
            else stageGames limit total rest (staged ++ [pgn]) (monthBytes + pgn.utf8ByteSize + 1)

def stageMonth (site : ChessComSite) (limit total : ℕ) (archive : Archive) :
    Except Error (Option (List String × ℕ)) := do
  let games ← site.archive archive.url
  if games = [] then
    .error (.invalidInput "Chess.com returned an empty requested game archive")
  else stageGames limit total games [] 0

def requestedArchives (site : ChessComSite) (scope : ExportScope) (limits : ExportLimits)
    (player : String) (firstMonth : Option Month) : Except Error (List Archive) := do
  let index ← site.index
  if scope = .complete ∧ limits.archives < index.length then
    .error (.resourceLimit "too many Chess.com archives")
  else do
    let archives ← index.mapM (validateArchiveUrl site.parseUrl player)
    let archives := dedupMonths (archives.mergeSort fun a b ↦ a.month ≤ b.month)
    let archives := match firstMonth with
      | none => archives
      | some firstMonth => archives.filter fun archive ↦ firstMonth ≤ archive.month
    if archives = [] then .error (.invalidInput "Chess.com returned no requested archives")
    else .ok archives

def exportDeadlineError : Error := .engineTimeout "Chess.com export deadline exceeded"

/-- The months staged so far, the last of them, and whether the export stopped early. -/
structure Staging where
  months : List (List String)
  lastMonth : Option Month
  stopped : Bool

/-- The loop over the archives, from the one with this index on. -/
def exportMonths (site : ChessComSite) (scope : ExportScope) (limits : ExportLimits) :
    ℕ → List Archive → List (List String) → ℕ → Option Month → Except Error Staging
  | _, [], months, _, lastMonth => .ok ⟨months, lastMonth, false⟩
  | index, archive :: rest, months, total, lastMonth =>
      if scope = .resumable ∧ limits.archives ≤ index then .ok ⟨months, lastMonth, true⟩
      else if site.late index then
        if scope = .resumable ∧ months ≠ [] then .ok ⟨months, lastMonth, true⟩
        else .error exportDeadlineError
      else
        match stageMonth site limits.pgnBytes total archive with
        | .error error => .error error
        | .ok none =>
            if scope = .resumable ∧ months ≠ [] then .ok ⟨months, lastMonth, true⟩
            else .error (.resourceLimit "Chess.com PGN export is too large")
        | .ok (some (staged, monthBytes)) =>
            exportMonths site scope limits (index + 1) rest (months ++ [staged])
              (total + monthBytes) (some archive.month)

def nextMonthFloor (month : Month) : ℤ := month.next.firstInstant

structure ChessComDownload where
  games : List String
  sinceMs : Option ℤ
  coverageFloorMs : Option ℤ
  deriving DecidableEq, Repr

/-- The published file: every game with a line end after it. -/
def ChessComDownload.text (download : ChessComDownload) : String :=
  String.join (download.games.map (· ++ "\n"))

def downloadChessComGames (site : ChessComSite) (scope : ExportScope) (limits : ExportLimits)
    (player : String) (sinceMs : Option ℤ) : Except Error ChessComDownload := do
  let firstMonth ← firstArchiveMonth sinceMs
  let archives ← requestedArchives site scope limits player firstMonth
  let staging ← exportMonths site scope limits 0 archives [] 0 none
  if staging.months = [] then .error (.resourceLimit "too many Chess.com archives")
  else
    .ok
      { games := staging.months.flatten
        sinceMs := firstMonth.map fun month ↦ (month.firstInstant : ℤ)
        coverageFloorMs := if staging.stopped then staging.lastMonth.map nextMonthFloor else none }

/-! ## The sync cursor -/

structure CoverageHold where
  id : String
  createdAtMs : ℤ
  ongoing : Bool
  deriving DecidableEq, Repr

def i64Min : ℤ := -2 ^ 63

def saturatingSub (a b : ℤ) : ℤ := max (a - b) i64Min

def accountSyncCursor (provider : String) (sinceMs newestStartMs : Option ℤ)
    (providerIds : List String) (holds : Option (List CoverageHold))
    (coverageFloorMs : Option ℤ) : ℤ :=
  let since := sinceMs.getD 0
  let newest := max (newestStartMs.getD since) since
  let floor := coverageFloorMs.getD i64Min
  if provider ≠ "lichess" then max newest floor
  else
    match holds with
    | none => max since floor
    | some holds =>
        let held := (holds.filter fun hold ↦ hold.ongoing || hold.id ∉ providerIds).map fun hold ↦
          max (saturatingSub hold.createdAtMs 1) since
        max (held.min?.elim newest (min newest)) floor

/-- The newest start among the exported games. -/
def newestStart (startMs : String → Option ℤ) (games : List String) : Option ℤ :=
  (games.filterMap startMs).max?

end EnCroissant
