import EnCroissant.Integers
import EnCroissant.Library.Replacing

/-!
# The engine log

The transcript of an engine: lines in both directions, the oldest dropped when
there are too many of them or too many bytes, over-long ones cut, and registered
resource values replaced in all of them.
-/

namespace EnCroissant.Engine

def maxLogLines : ℕ := 2000

def maxLogBytes : ℕ := 512 * 1024

def maxResourceRedactions : ℕ := 256

def maxResourceRedactionBytes : ℕ := 64 * 1024

/-- The length of a text in UTF-8. -/
def byteLen (text : List Char) : ℕ := (text.map Char.utf8Size).sum

/-! ## Lines -/

inductive EngineLog where
  | gui (line : List Char)
  | engine (line : List Char)
  | truncated (droppedEntries : ℕ)
  deriving DecidableEq, Repr

namespace EngineLog

def byteLen : EngineLog → ℕ
  | gui line => Engine.byteLen line
  | engine line => Engine.byteLen line
  | truncated _ => 0

def line : EngineLog → List Char
  | gui line => line
  | engine line => line
  | truncated _ => []

/-- A line in one of the two directions. -/
def isLine : EngineLog → Bool
  | truncated _ => false
  | _ => true

end EngineLog

def truncationSuffix : List Char := "… [truncated]".toList

def redactionMark : List Char := "[redacted]".toList

/-- The characters in the first bytes of a text. -/
def takeBytes : ℕ → List Char → List Char
  | _, [] => []
  | bytes, c :: text => if c.utf8Size ≤ bytes then c :: takeBytes (bytes - c.utf8Size) text else []

def isCharBoundary (value : List Char) (index : ℕ) : Bool :=
  value.inits.any fun part ↦ decide (byteLen part = index)

/-- The last character boundary up to `end`. -/
def boundaryUpTo (value : List Char) : ℕ → ℕ
  | 0 => 0
  | index + 1 => if isCharBoundary value (index + 1) then index + 1 else boundaryUpTo value index

def truncateUtf8 (value : List Char) (maxBytes : ℕ) : List Char :=
  if byteLen value ≤ maxBytes then value else takeBytes (boundaryUpTo value maxBytes) value

/-- An over-long line is cut and gets a suffix that says so. -/
def normalizeLine (line : List Char) : List Char × Bool :=
  if maxLogBytes < byteLen line then
    (truncateUtf8 line (maxLogBytes - 16) ++ truncationSuffix, true)
  else (line, false)

def normalizeLogEntry : EngineLog → EngineLog × Bool
  | .gui line => (.gui (normalizeLine line).1, (normalizeLine line).2)
  | .engine line => (.engine (normalizeLine line).1, (normalizeLine line).2)
  | .truncated droppedEntries => (.truncated droppedEntries, false)

def redactLine (line : List Char) (values : List (List Char)) : List Char :=
  values.foldl (fun line value ↦ Replacing.replace value redactionMark line) line

def redactEntry (values : List (List Char)) : EngineLog → EngineLog
  | .gui line => .gui (redactLine line values)
  | .engine line => .engine (redactLine line values)
  | .truncated droppedEntries => .truncated droppedEntries

/-! ## The log -/

structure BoundedLogs where
  entries : List EngineLog
  bytes : ℕ
  truncated : Bool
  droppedEntries : ℕ
  deriving DecidableEq

namespace BoundedLogs

def default : BoundedLogs := ⟨[], 0, false, 0⟩

/-- The loop of `evict_for`, on the entries. -/
def evict (incomingBytes maxEntries : ℕ) :
    List EngineLog → (bytes : ℕ) → (truncated : Bool) → (droppedEntries : ℕ) → BoundedLogs
  | [], bytes, truncated, droppedEntries => ⟨[], bytes, truncated, droppedEntries⟩
  | removed :: entries, bytes, truncated, droppedEntries =>
      if maxEntries < (removed :: entries).length ∨
          maxLogBytes < saturatingAdd bytes incomingBytes then
        evict incomingBytes maxEntries entries (bytes - removed.byteLen) true
          (saturatingAdd droppedEntries 1)
      else ⟨removed :: entries, bytes, truncated, droppedEntries⟩

def evictFor (logs : BoundedLogs) (incomingBytes : ℕ) (reserveSlot : Bool) : BoundedLogs :=
  evict incomingBytes (maxLogLines - reserveSlot.toNat) logs.entries logs.bytes logs.truncated
    logs.droppedEntries

def push (logs : BoundedLogs) (entry : EngineLog) : BoundedLogs :=
  let (entry, wasTruncated) := normalizeLogEntry entry
  let logs := { logs with truncated := logs.truncated || wasTruncated }
  let logs := logs.evictFor entry.byteLen true
  { logs with bytes := logs.bytes + entry.byteLen, entries := logs.entries ++ [entry] }

/-- What the transcript shows: the marker of a truncated log, and the lines. -/
def shown (logs : BoundedLogs) : List EngineLog :=
  (if logs.truncated then [.truncated logs.droppedEntries] else []) ++ logs.entries

def redact (logs : BoundedLogs) (values : List (List Char)) : BoundedLogs :=
  if values = [] then logs
  else
    let normalized := logs.entries.map fun entry ↦ normalizeLogEntry (redactEntry values entry)
    let entries := normalized.map Prod.fst
    let logs : BoundedLogs :=
      { logs with
        entries := entries
        truncated := logs.truncated || normalized.any Prod.snd
        bytes := (entries.map EngineLog.byteLen).sum }
    logs.evictFor 0 false

end BoundedLogs

/-! ## Registered values -/

structure ResourceRedactions where
  values : List (List Char)
  bytes : ℕ
  deriving DecidableEq

namespace ResourceRedactions

def default : ResourceRedactions := ⟨[], 0⟩

/-- The new values, in their order. -/
def additions (known : List (List Char)) : List (List Char) → List (List Char)
  | [] => []
  | value :: values =>
      if value ≠ [] ∧ !known.contains value then value :: additions (value :: known) values
      else additions known values

/-- Longer values come first. -/
def before (left right : List Char) : Bool :=
  decide (byteLen right < byteLen left) ||
    (decide (byteLen left = byteLen right) && decide (left ≤ right))

def register (redactions : ResourceRedactions) (values : List (List Char)) (logs : BoundedLogs) :
    Except Error (ResourceRedactions × BoundedLogs) :=
  let additions := additions redactions.values values
  let addedBytes := (additions.map byteLen).sum
  if maxResourceRedactions < saturatingAdd redactions.values.length additions.length ∨
      maxResourceRedactionBytes < saturatingAdd redactions.bytes addedBytes then
    .error (.resourceLimit "engine resource redaction budget exhausted")
  else if additions = [] then .ok (redactions, logs)
  else
    let values := (redactions.values ++ additions).mergeSort before
    .ok (⟨values, saturatingAdd redactions.bytes addedBytes⟩, logs.redact values)

def redact (redactions : ResourceRedactions) (line : List Char) : List Char :=
  redactLine line redactions.values

end ResourceRedactions

end EnCroissant.Engine
