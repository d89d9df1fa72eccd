import EnCroissant.Error
import EnCroissant.Library.Lines
import EnCroissant.Library.Utf8

/-!
# The lines of an engine

Lines are read from a buffer that is filled piece by piece.  A call that has to wait
for the next fill may be given up; the part of the line it has read is kept for the
next call.  However the bytes arrive, the calls give the lines of the stream.
-/

namespace EnCroissant.Engine

def newline : UInt8 := 10

def carriageReturn : UInt8 := 13

def maxEngineLineBytes : ℕ := 64 * 1024

def lineTooLong : Error := .resourceLimit "engine emitted a line larger than 65536 bytes"

def notUtf8 : Error := .invalidInput "engine emitted non-UTF-8 output"

/-- What the reader meets when its buffer is empty: the next fill, or none yet. -/
inductive Arrival where
  | fill (bytes : List UInt8) (nonempty : bytes ≠ [])
  | wait

/-- The bytes in the buffer that are not consumed, and what comes after them. -/
structure LineSource where
  available : List UInt8
  arrivals : List Arrival

/-- How a call ends: given up where it waits, or with its result. -/
inductive Ending (α : Type) where
  | waiting
  | ready (result : α)

/-! ## Reading a line -/

/-- `String::from_utf8`. -/
def fromUtf8 (bytes : List UInt8) : Except Error (List Char) :=
  match Utf8.decode bytes with
  | some text => .ok text
  | none => .error notUtf8

/-- How much of the buffer belongs to the current line. -/
def lineLength (available : List UInt8) : ℕ :=
  (available.findIdx? (· == newline)).elim available.length (· + 1)

def popLast (byte : UInt8) (line : List UInt8) : List UInt8 :=
  if line.getLast? = some byte then line.dropLast else line

/-- What one pass over a buffer that is not empty does to the pending line. -/
inductive Pass where
  | overlong
  | ended (line rest : List UInt8)
  | more (pending : List UInt8)

def readBuffer (available pending : List UInt8) : Pass :=
  let take := lineLength available
  if maxEngineLineBytes < pending.length + take then .overlong
  else
    let pending := pending ++ available.take take
    if available[take - 1]? = some newline then .ended pending (available.drop take)
    else .more pending

abbrev LineEnding := Ending (Except Error (Option (List Char)))

/-- A call of `read_bounded_engine_line`, with the pending line and the source it leaves. -/
structure LineRead where
  ending : LineEnding
  pending : List UInt8
  source : LineSource

/-- What a pass that ends the call leaves. -/
def LineRead.ended (line rest : List UInt8) (arrivals : List Arrival) : LineRead where
  ending := .ready ((fromUtf8 (popLast carriageReturn (popLast newline line))).map some)
  pending := []
  source := ⟨rest, arrivals⟩

def LineRead.overlong (available : List UInt8) (arrivals : List Arrival) : LineRead where
  ending := .ready (.error lineTooLong)
  pending := []
  source := ⟨available, arrivals⟩

/-- The loop from an empty buffer on. -/
def readArrivals (pending : List UInt8) : List Arrival → LineRead
  | [] =>
      { ending := .ready (if pending = [] then .ok none else (fromUtf8 pending).map some)
        pending := []
        source := ⟨[], []⟩ }
  | .wait :: arrivals => ⟨.waiting, pending, ⟨[], arrivals⟩⟩
  | .fill bytes _ :: arrivals =>
      match readBuffer bytes pending with
      | .overlong => .overlong bytes arrivals
      | .ended line rest => .ended line rest arrivals
      | .more pending => readArrivals pending arrivals

def readBoundedEngineLine (source : LineSource) (pending : List UInt8) : LineRead :=
  if source.available = [] then readArrivals pending source.arrivals
  else
    match readBuffer source.available pending with
    | .overlong => .overlong source.available source.arrivals
    | .ended line rest => .ended line rest source.arrivals
    | .more pending => readArrivals pending source.arrivals

/-! ## Discarding the rest of a line -/

/-- The loop from an empty buffer on. -/
def discardArrivals : List Arrival → Ending Unit × LineSource
  | [] => (.ready (), ⟨[], []⟩)
  | .wait :: arrivals => (.waiting, ⟨[], arrivals⟩)
  | .fill bytes _ :: arrivals =>
      match bytes.findIdx? (· == newline) with
      | some index => (.ready (), ⟨bytes.drop (index + 1), arrivals⟩)
      | none => discardArrivals arrivals

def discardEngineLineRemainder (source : LineSource) : Ending Unit × LineSource :=
  if source.available = [] then discardArrivals source.arrivals
  else
    match source.available.findIdx? (· == newline) with
    | some index => (.ready (), ⟨source.available.drop (index + 1), source.arrivals⟩)
    | none => discardArrivals source.arrivals

/-! ## The reader -/

structure ResumableLineReader where
  reader : LineSource
  pendingLine : List UInt8
  discardingLine : Bool

namespace ResumableLineReader

def new (reader : LineSource) : ResumableLineReader := ⟨reader, [], false⟩

def isResourceLimit {α : Type} : Except Error α → Bool
  | .error (.resourceLimit _) => true
  | _ => false

def readLine (r : ResumableLineReader) : LineEnding × ResumableLineReader :=
  let read := readBoundedEngineLine r.reader r.pendingLine
  let discarding := match read.ending with
    | .waiting => r.discardingLine
    | .ready result => isResourceLimit result
  (read.ending, ⟨read.source, read.pending, discarding⟩)

def discardLineRemainder (r : ResumableLineReader) : ResumableLineReader :=
  if r.discardingLine || r.pendingLine != [] then
    match discardEngineLineRemainder r.reader with
    | (.waiting, source) => ⟨source, [], true⟩
    | (.ready (), source) => ⟨source, [], false⟩
  else r

/-- The next call, and the line or error it gives: what is left of a line that was too
long is discarded before anything else is read. -/
def call (r : ResumableLineReader) : Option (Except Error (List Char)) × ResumableLineReader :=
  if r.discardingLine then (none, r.discardLineRemainder)
  else
    let (ending, r) := r.readLine
    match ending with
    | .ready (.ok (some line)) => (some (.ok line), r)
    | .ready (.error error) => (some (.error error), r)
    | _ => (none, r)

/-- The results of so many calls. -/
def calls : ℕ → ResumableLineReader → List (Except Error (List Char))
  | 0, _ => []
  | n + 1, r => r.call.1.toList ++ calls n r.call.2

end ResumableLineReader

/-! ## The lines of a stream -/

/-- The bytes that arrive. -/
def arrivedBytes : List Arrival → List UInt8
  | [] => []
  | .wait :: arrivals => arrivedBytes arrivals
  | .fill bytes _ :: arrivals => bytes ++ arrivedBytes arrivals

def LineSource.bytes (source : LineSource) : List UInt8 :=
  source.available ++ arrivedBytes source.arrivals

/-- A line without its line end.  The last line of a stream may have none. -/
def lineText (line : List UInt8) : List UInt8 :=
  if line.getLast? = some newline then popLast carriageReturn line.dropLast else line

/-- What a line, with its line end, is read as. -/
def lineResult (line : List UInt8) : Except Error (List Char) :=
  if maxEngineLineBytes < line.length then .error lineTooLong else fromUtf8 (lineText line)

def lineResults (bytes : List UInt8) : List (Except Error (List Char)) :=
  (Lines.split newline bytes).map lineResult

@[simp] theorem lineResults_nil : lineResults [] = [] := rfl

/-- The number of bytes in the first line. -/
abbrev firstLength (bytes : List UInt8) : ℕ := Lines.firstLength newline bytes

theorem lineLength_eq (bytes : List UInt8) : lineLength bytes = firstLength bytes := rfl

theorem lineResults_cons {bytes : List UInt8} (h : bytes ≠ []) :
    lineResults bytes = lineResult (bytes.take (firstLength bytes)) ::
      lineResults (bytes.drop (firstLength bytes)) := by
  rw [lineResults, Lines.split_eq_cons h, List.map_cons]
  rfl

theorem firstLength_pos {bytes : List UInt8} (h : bytes ≠ []) : 0 < firstLength bytes := by
  by_cases hmem : newline ∈ bytes
  · obtain ⟨body, rest, rfl, hbody⟩ := List.eq_append_cons_of_mem hmem
    rw [firstLength, Lines.firstLength_append hbody, Lines.firstLength_cons_self]
    exact Nat.succ_pos _
  · rw [firstLength, Lines.firstLength_of_notMem hmem]
    exact List.length_pos_of_ne_nil h

/-! ## One call -/

/-- A part of a line that may be kept for the next call. -/
structure Partial (pending : List UInt8) : Prop where
  open_line : newline ∉ pending
  short : pending.length ≤ maxEngineLineBytes

theorem partial_nil : Partial [] := ⟨List.not_mem_nil, Nat.zero_le _⟩

/-- What a pass over the buffer makes of the bytes that are still to be read. -/
inductive Passes (bytes available later : List UInt8) : Pass → Prop
  | overlong (long : maxEngineLineBytes < firstLength bytes)
      (rest : (available ++ later).drop (firstLength (available ++ later)) =
        bytes.drop (firstLength bytes)) :
      Passes bytes available later .overlong
  | ended {line rest : List UInt8} (short : firstLength bytes ≤ maxEngineLineBytes)
      (complete : line.getLast? = some newline) (first : bytes.take (firstLength bytes) = line)
      (behind : rest ++ later = bytes.drop (firstLength bytes)) :
      Passes bytes available later (.ended line rest)
  | more {pending : List UInt8} (kept : Partial pending) (split : pending ++ later = bytes) :
      Passes bytes available later (.more pending)

theorem passes_readBuffer {pending available : List UInt8} (hpending : Partial pending)
    (havailable : available ≠ []) (later : List UInt8) :
    Passes (pending ++ (available ++ later)) available later (readBuffer available pending) := by
  have hlong : firstLength (pending ++ (available ++ later)) =
      pending.length + firstLength (available ++ later) :=
    Lines.firstLength_append hpending.open_line _
  have hrest := Lines.drop_firstLength_append hpending.open_line (available ++ later)
  by_cases hmem : newline ∈ available
  · obtain ⟨body, rest, rfl, hbody⟩ := List.eq_append_cons_of_mem hmem
    have hlength : ∀ tail, firstLength (body ++ newline :: tail) = body.length + 1 := by
      intro tail
      rw [firstLength, Lines.firstLength_append hbody, Lines.firstLength_cons_self]
    rw [List.append_assoc, List.cons_append, hlength] at hlong
    rw [readBuffer, lineLength_eq, hlength, List.append_assoc, List.cons_append]
    by_cases hover : maxEngineLineBytes < pending.length + (body.length + 1)
    · rw [if_pos hover]
      rw [List.append_assoc, List.cons_append] at hrest
      refine .overlong (by rw [hlong]; exact hover) ?_
      rw [List.append_assoc, List.cons_append]
      exact hrest.symm
    · have htake : (body ++ newline :: rest).take (body.length + 1) = body ++ [newline] := by
        rw [List.take_append, List.take_of_length_le (Nat.le_succ _), Nat.add_sub_cancel_left]
        rfl
      have hdrop : ∀ tail, (body ++ newline :: tail).drop (body.length + 1) = tail := by
        intro tail
        rw [List.drop_append, List.drop_eq_nil_of_le (Nat.le_succ _), Nat.add_sub_cancel_left]
        rfl
      have hlast : (body ++ newline :: rest)[body.length + 1 - 1]? = some newline := by simp
      rw [if_neg hover]
      simp only [hlast, if_true, htake, hdrop]
      refine .ended ?_ ?_ ?_ ?_
      · rw [hlong]
        exact not_lt.mp hover
      · rw [← List.append_assoc, List.getLast?_concat]
      · rw [hlong, List.take_append, List.take_of_length_le (Nat.le_add_right _ _),
          Nat.add_sub_cancel_left, List.take_append, List.take_of_length_le (Nat.le_succ _),
          Nat.add_sub_cancel_left]
        rfl
      · rw [hlong, List.drop_append, List.drop_eq_nil_of_le (Nat.le_add_right _ _),
          Nat.add_sub_cancel_left, hdrop, List.nil_append]
  · have hlength : firstLength available = available.length := Lines.firstLength_of_notMem hmem
    rw [readBuffer, lineLength_eq, hlength]
    by_cases hover : maxEngineLineBytes < pending.length + available.length
    · rw [if_pos hover]
      refine .overlong ?_ hrest.symm
      rw [hlong, firstLength, Lines.firstLength_append hmem]
      omega
    · have hlast : available[available.length - 1]? ≠ some newline :=
        fun h ↦ hmem (List.mem_of_getElem? h)
      rw [if_neg hover]
      simp only [hlast, if_false, List.take_length]
      refine .more ⟨?_, ?_⟩ (List.append_assoc _ _ _)
      · rw [List.mem_append]
        exact not_or_intro hpending.open_line hmem
      · rw [List.length_append]
        exact not_lt.mp hover

/-- What a call makes of the bytes that are still to be read. -/
inductive Reads (bytes : List UInt8) : LineRead → Prop
  | waiting {pending : List UInt8} {source : LineSource} (kept : Partial pending)
      (split : pending ++ source.bytes = bytes) : Reads bytes ⟨.waiting, pending, source⟩
  | finished (none_left : bytes = []) : Reads bytes ⟨.ready (.ok none), [], ⟨[], []⟩⟩
  | line {source : LineSource} (some_left : bytes ≠ [])
      (short : firstLength bytes ≤ maxEngineLineBytes)
      (behind : source.bytes = bytes.drop (firstLength bytes)) :
      Reads bytes
        ⟨.ready ((lineResult (bytes.take (firstLength bytes))).map some), [], source⟩
  | overlong {source : LineSource} (long : maxEngineLineBytes < firstLength bytes)
      (suffix : source.bytes <:+ bytes)
      (rest : source.bytes.drop (firstLength source.bytes) = bytes.drop (firstLength bytes)) :
      Reads bytes ⟨.ready (.error lineTooLong), [], source⟩

theorem lineResult_of_ended {line : List UInt8} (hshort : line.length ≤ maxEngineLineBytes)
    (hcomplete : line.getLast? = some newline) :
    lineResult line = fromUtf8 (popLast carriageReturn (popLast newline line)) := by
  have hpop : popLast newline line = line.dropLast := if_pos hcomplete
  rw [lineResult, if_neg (not_lt.mpr hshort), lineText, if_pos hcomplete, hpop]

theorem lineResult_of_partial {pending : List UInt8} (h : Partial pending) :
    lineResult pending = fromUtf8 pending := by
  have hlast : pending.getLast? ≠ some newline :=
    fun hlast ↦ h.open_line (List.mem_of_getLast? hlast)
  rw [lineResult, if_neg (not_lt.mpr h.short), lineText, if_neg hlast]

theorem Passes.reads_ended {bytes available line rest : List UInt8} {arrivals : List Arrival}
    (h : Passes bytes available (arrivedBytes arrivals) (.ended line rest)) :
    Reads bytes (.ended line rest arrivals) := by
  cases h with
  | ended short complete first behind =>
      have hne : bytes ≠ [] := by
        rintro rfl
        rw [List.take_nil] at first
        subst first
        cases complete
      have hlength : line.length ≤ maxEngineLineBytes := by
        rw [← first]
        exact (List.length_take_le _ _).trans short
      have hread := lineResult_of_ended hlength complete
      rw [LineRead.ended, ← hread, ← first]
      exact .line hne short behind

theorem Passes.reads_overlong {pending available : List UInt8} {arrivals : List Arrival}
    (h : Passes (pending ++ (available ++ arrivedBytes arrivals)) available
      (arrivedBytes arrivals) .overlong) :
    Reads (pending ++ (available ++ arrivedBytes arrivals)) (.overlong available arrivals) := by
  cases h with
  | overlong long rest => exact .overlong long (List.suffix_append _ _) rest

/-- At the end of the stream the kept part is its last line. -/
theorem reads_end {pending : List UInt8} (h : Partial pending) :
    Reads (pending ++ arrivedBytes []) (readArrivals pending []) := by
  have hlength : firstLength pending = pending.length :=
    Lines.firstLength_of_notMem h.open_line
  rw [arrivedBytes, List.append_nil, readArrivals]
  by_cases hne : pending = []
  · rw [if_pos hne]
    exact .finished hne
  · rw [if_neg hne]
    have hread := lineResult_of_partial h
    rw [← hread]
    conv in lineResult pending => rw [← List.take_length (l := pending), ← hlength]
    apply Reads.line hne
    · rw [hlength]
      exact h.short
    · rw [hlength, List.drop_length]
      rfl

theorem reads_readArrivals {pending : List UInt8} (h : Partial pending)
    (arrivals : List Arrival) :
    Reads (pending ++ arrivedBytes arrivals) (readArrivals pending arrivals) := by
  induction arrivals generalizing pending with
  | nil => exact reads_end h
  | cons arrival arrivals ih =>
      cases arrival with
      | wait => exact .waiting h rfl
      | fill bytes nonempty =>
          have hpass := passes_readBuffer h nonempty (arrivedBytes arrivals)
          rw [readArrivals, arrivedBytes]
          cases hread : readBuffer bytes pending with
          | overlong =>
              rw [hread] at hpass
              exact hpass.reads_overlong
          | ended line rest =>
              rw [hread] at hpass
              exact hpass.reads_ended
          | more pending' =>
              rw [hread] at hpass
              cases hpass with
              | more kept split =>
                  rw [← split]
                  exact ih kept

theorem reads_readBoundedEngineLine {pending : List UInt8} (h : Partial pending)
    (source : LineSource) :
    Reads (pending ++ source.bytes) (readBoundedEngineLine source pending) := by
  obtain ⟨available, arrivals⟩ := source
  rw [readBoundedEngineLine, LineSource.bytes]
  by_cases havailable : available = []
  · rw [if_pos havailable, havailable, List.nil_append]
    exact reads_readArrivals h arrivals
  · rw [if_neg havailable]
    have hpass := passes_readBuffer h havailable (arrivedBytes arrivals)
    cases hread : readBuffer available pending with
    | overlong =>
        rw [hread] at hpass
        exact hpass.reads_overlong
    | ended line rest =>
        rw [hread] at hpass
        exact hpass.reads_ended
    | more pending' =>
        rw [hread] at hpass
        cases hpass with
        | more kept split =>
            rw [← split]
            exact reads_readArrivals kept arrivals

/-- What is discarded is the rest of the first line. -/
inductive Discards (bytes : List UInt8) : Ending Unit × LineSource → Prop
  | waiting {source : LineSource} (suffix : source.bytes <:+ bytes)
      (rest : source.bytes.drop (firstLength source.bytes) = bytes.drop (firstLength bytes)) :
      Discards bytes (.waiting, source)
  | ready {source : LineSource} (behind : source.bytes = bytes.drop (firstLength bytes)) :
      Discards bytes (.ready (), source)

theorem Discards.append {bytes available : List UInt8} {ended : Ending Unit × LineSource}
    (h : Discards bytes ended) (havailable : newline ∉ available) :
    Discards (available ++ bytes) ended := by
  have hdrop := Lines.drop_firstLength_append havailable bytes
  cases h with
  | waiting suffix rest =>
      exact .waiting (suffix.trans (List.suffix_append _ _)) (rest.trans hdrop.symm)
  | ready behind => exact .ready (behind.trans hdrop.symm)

/-- A buffer with a line end in it ends the discarding. -/
theorem discards_of_findIdx? {available : List UInt8} {index : ℕ}
    (h : available.findIdx? (· == newline) = some index) (arrivals : List Arrival) :
    Discards (available ++ arrivedBytes arrivals)
      (.ready (), ⟨available.drop (index + 1), arrivals⟩) := by
  have hlength : firstLength (available ++ arrivedBytes arrivals) = index + 1 := by
    rw [firstLength, Lines.firstLength, List.findIdx?_append, h]
    rfl
  have hindex : index < available.length := (List.findIdx?_eq_some_iff_getElem.mp h).1
  apply Discards.ready
  rw [hlength, LineSource.bytes, List.drop_append_of_le_length (Nat.succ_le_of_lt hindex)]

theorem notMem_of_findIdx? {available : List UInt8}
    (h : available.findIdx? (· == newline) = none) : newline ∉ available := by
  intro hmem
  have hne := List.findIdx?_eq_none_iff.mp h newline hmem
  exact absurd rfl (beq_eq_false_iff_ne.mp hne)

theorem discards_discardArrivals (arrivals : List Arrival) :
    Discards (arrivedBytes arrivals) (discardArrivals arrivals) := by
  induction arrivals with
  | nil => exact .ready rfl
  | cons arrival arrivals ih =>
      cases arrival with
      | wait => exact .waiting List.suffix_rfl rfl
      | fill bytes nonempty =>
          rw [discardArrivals, arrivedBytes]
          cases hindex : bytes.findIdx? (· == newline) with
          | some index => exact discards_of_findIdx? hindex arrivals
          | none => exact ih.append (notMem_of_findIdx? hindex)

theorem discards_discardEngineLineRemainder (source : LineSource) :
    Discards source.bytes (discardEngineLineRemainder source) := by
  obtain ⟨available, arrivals⟩ := source
  rw [discardEngineLineRemainder, LineSource.bytes]
  by_cases havailable : available = []
  · rw [if_pos havailable, havailable, List.nil_append]
    exact discards_discardArrivals arrivals
  · rw [if_neg havailable]
    cases hindex : available.findIdx? (· == newline) with
    | some index => exact discards_of_findIdx? hindex arrivals
    | none => exact (discards_discardArrivals arrivals).append (notMem_of_findIdx? hindex)

/-! ## How far a call gets -/

/-- A call that is given up has met the end of a fill. -/
def Ending.pauses {α : Type} : Ending α → ℕ
  | .waiting => 1
  | .ready _ => 0

theorem readArrivals_arrivals (pending : List UInt8) (arrivals : List Arrival) :
    (readArrivals pending arrivals).source.arrivals.length +
      (readArrivals pending arrivals).ending.pauses ≤ arrivals.length := by
  induction arrivals generalizing pending with
  | nil => exact le_rfl
  | cons arrival arrivals ih =>
      cases arrival with
      | wait => exact le_rfl
      | fill bytes nonempty =>
          rw [readArrivals]
          cases readBuffer bytes pending with
          | overlong => exact Nat.le_succ _
          | ended line rest => exact Nat.le_succ _
          | more pending' => exact (ih pending').trans (Nat.le_succ _)

theorem readBoundedEngineLine_arrivals (source : LineSource) (pending : List UInt8) :
    (readBoundedEngineLine source pending).source.arrivals.length +
      (readBoundedEngineLine source pending).ending.pauses ≤ source.arrivals.length := by
  rw [readBoundedEngineLine]
  split_ifs
  · exact readArrivals_arrivals pending source.arrivals
  · cases readBuffer source.available pending with
    | overlong => exact le_rfl
    | ended line rest => exact le_rfl
    | more pending' => exact readArrivals_arrivals pending' source.arrivals

theorem discardArrivals_arrivals (arrivals : List Arrival) :
    (discardArrivals arrivals).2.arrivals.length + (discardArrivals arrivals).1.pauses ≤
      arrivals.length := by
  induction arrivals with
  | nil => exact le_rfl
  | cons arrival arrivals ih =>
      cases arrival with
      | wait => exact le_rfl
      | fill bytes nonempty =>
          rw [discardArrivals]
          cases bytes.findIdx? (· == newline) with
          | some index => exact Nat.le_succ _
          | none => exact ih.trans (Nat.le_succ _)

theorem discardEngineLineRemainder_arrivals (source : LineSource) :
    (discardEngineLineRemainder source).2.arrivals.length +
      (discardEngineLineRemainder source).1.pauses ≤ source.arrivals.length := by
  rw [discardEngineLineRemainder]
  split_ifs
  · exact discardArrivals_arrivals source.arrivals
  · cases source.available.findIdx? (· == newline) with
    | some index => exact le_rfl
    | none => exact discardArrivals_arrivals source.arrivals

/-! ## All calls -/

namespace ResumableLineReader

/-- Between calls the reader keeps a part of a line, or discards one and keeps nothing. -/
structure Good (r : ResumableLineReader) : Prop where
  kept : Partial r.pendingLine
  discards : r.discardingLine = true → r.pendingLine = []

theorem good_new (source : LineSource) : (new source).Good where
  kept := partial_nil
  discards := fun _ ↦ rfl

/-- The results that the calls still have to give. -/
def remaining (r : ResumableLineReader) : List (Except Error (List Char)) :=
  if r.discardingLine then lineResults (r.reader.bytes.drop (firstLength r.reader.bytes))
  else lineResults (r.pendingLine ++ r.reader.bytes)

/-- What a reader still has to go through. -/
def work (r : ResumableLineReader) : ℕ :=
  3 * (r.pendingLine.length + r.reader.bytes.length + r.reader.arrivals.length) +
    if r.discardingLine then 1 else 2

/-- What a call gives and leaves. -/
structure Advances (r : ResumableLineReader) (result : Option (Except Error (List Char)))
    (r' : ResumableLineReader) : Prop where
  good : r'.Good
  gives : r.remaining = result.toList ++ r'.remaining
  progress : r'.work < r.work ∨ r'.remaining = []

theorem discardLineRemainder_of_discarding {r : ResumableLineReader}
    (h : r.discardingLine = true) :
    r.discardLineRemainder = ⟨(discardEngineLineRemainder r.reader).2, [],
      (discardEngineLineRemainder r.reader).1.pauses == 1⟩ := by
  rw [discardLineRemainder, h, Bool.true_or, if_pos rfl]
  rcases discardEngineLineRemainder r.reader with ⟨_ | _, source⟩ <;> rfl

theorem advances_discard {r : ResumableLineReader} (h : r.Good) (hd : r.discardingLine = true) :
    Advances r none r.discardLineRemainder := by
  obtain ⟨source, pending, discarding⟩ := r
  obtain rfl : discarding = true := hd
  obtain rfl : pending = [] := h.discards rfl
  have hspec := discards_discardEngineLineRemainder source
  have harrivals := discardEngineLineRemainder_arrivals source
  rw [discardLineRemainder_of_discarding rfl]
  dsimp only at hspec harrivals ⊢
  generalize discardEngineLineRemainder source = ended at hspec harrivals
  cases hspec with
  | @waiting source' suffix rest =>
      refine ⟨⟨partial_nil, fun _ ↦ rfl⟩, ?_, .inl ?_⟩
      · simp only [remaining, Ending.pauses, beq_self_eq_true, if_true, rest, Option.toList_none,
          List.nil_append]
      · have hlength := suffix.length_le
        simp only [Ending.pauses] at harrivals
        simp only [work, Ending.pauses, beq_self_eq_true, if_true]
        omega
  | @ready source' behind =>
      refine ⟨⟨partial_nil, fun _ ↦ rfl⟩, ?_, ?_⟩
      · simp [remaining, Ending.pauses, behind]
      · by_cases hbytes : source.bytes = []
        · right
          simp [remaining, Ending.pauses, behind, hbytes]
        · left
          have hpos := firstLength_pos hbytes
          have hlength : source'.bytes.length = source.bytes.length - firstLength source.bytes := by
            rw [behind, List.length_drop]
          have hsome := List.length_pos_of_ne_nil hbytes
          simp only [Ending.pauses] at harrivals
          simp only [work, Ending.pauses, Nat.reduceBEq, Bool.false_eq_true, if_false, if_true]
          omega

theorem fromUtf8_ne_resourceLimit (bytes : List UInt8) :
    isResourceLimit ((fromUtf8 bytes).map some) = false := by
  rw [fromUtf8]
  cases Utf8.decode bytes <;> rfl

theorem length_take_firstLength {bytes : List UInt8} (h : firstLength bytes ≤ maxEngineLineBytes) :
    (bytes.take (firstLength bytes)).length ≤ maxEngineLineBytes :=
  (List.length_take_le _ _).trans h

/-- A line that is not too long is no reason to discard. -/
theorem isResourceLimit_lineResult {line : List UInt8} (h : line.length ≤ maxEngineLineBytes) :
    isResourceLimit ((lineResult line).map some) = false := by
  rw [lineResult, if_neg (not_lt.mpr h)]
  exact fromUtf8_ne_resourceLimit _

theorem call_of_reading {r : ResumableLineReader} (h : r.discardingLine = false) :
    r.call = (match r.readLine.1 with
      | .ready (.ok (some line)) => some (.ok line)
      | .ready (.error error) => some (.error error)
      | _ => none, r.readLine.2) := by
  rw [call, h, if_neg Bool.false_ne_true]
  dsimp only
  rcases r.readLine.1 with _ | (_ | _ | _) <;> rfl

theorem advances_read {r : ResumableLineReader} (h : r.Good) (hd : r.discardingLine = false) :
    Advances r r.call.1 r.call.2 := by
  obtain ⟨source, pending, discarding⟩ := r
  obtain rfl : discarding = false := hd
  have hspec := reads_readBoundedEngineLine h.kept source
  have harrivals := readBoundedEngineLine_arrivals source pending
  rw [call_of_reading rfl]
  dsimp only [readLine] at hspec ⊢
  generalize readBoundedEngineLine source pending = read at hspec harrivals
  -- The bytes to be read, with the part that was kept.
  generalize hbytes : pending ++ source.bytes = bytes at hspec
  have hremaining : remaining ⟨source, pending, false⟩ = lineResults bytes := by
    rw [← hbytes]
    rfl
  have hwork : work ⟨source, pending, false⟩ = 3 * (bytes.length + source.arrivals.length) + 2 := by
    rw [← hbytes, List.length_append]
    rfl
  cases hspec with
  | @waiting pending' source' kept split =>
      refine ⟨⟨kept, fun hd ↦ nomatch hd⟩, ?_, .inl ?_⟩
      · rw [hremaining, ← split]
        rfl
      · have hlength : pending'.length + source'.bytes.length = bytes.length := by
          rw [← split, List.length_append]
        simp only [Ending.pauses] at harrivals
        rw [hwork]
        simp only [work, Bool.false_eq_true, if_false]
        omega
  | finished none_left =>
      refine ⟨good_new _, ?_, .inr rfl⟩
      rw [hremaining, none_left]
      rfl
  | @line source' some_left short behind =>
      have hdiscarding := isResourceLimit_lineResult (length_take_firstLength short)
      have hgives : lineResults bytes =
          lineResult (bytes.take (firstLength bytes)) :: lineResults source'.bytes := by
        rw [lineResults_cons some_left, behind]
      have hpos := firstLength_pos some_left
      have hsome := List.length_pos_of_ne_nil some_left
      have hlength : source'.bytes.length = bytes.length - firstLength bytes := by
        rw [behind, List.length_drop]
      have hless : work ⟨source', [], false⟩ < work ⟨source, pending, false⟩ := by
        simp only [Ending.pauses] at harrivals
        rw [hwork]
        simp only [work, List.length_nil, Bool.false_eq_true, if_false]
        omega
      dsimp only
      rw [hdiscarding]
      refine ⟨good_new source', ?_, .inl hless⟩
      rw [hremaining, hgives]
      cases lineResult (bytes.take (firstLength bytes)) <;> rfl
  | @overlong source' long suffix rest =>
      have hne : bytes ≠ [] := by
        rintro rfl
        exact absurd long (by decide)
      have hlong : maxEngineLineBytes < (bytes.take (firstLength bytes)).length := by
        rw [List.length_take_of_le Lines.firstLength_le]
        exact long
      refine ⟨⟨partial_nil, fun _ ↦ rfl⟩, ?_, .inl ?_⟩
      · rw [hremaining, lineResults_cons hne, lineResult, if_pos hlong, ← rest]
        rfl
      · have hlength := suffix.length_le
        simp only [Ending.pauses] at harrivals
        rw [hwork]
        simp only [work, lineTooLong, isResourceLimit, List.length_nil, if_true]
        omega

theorem advances_call {r : ResumableLineReader} (h : r.Good) :
    Advances r r.call.1 r.call.2 := by
  cases hd : r.discardingLine with
  | true =>
      rw [call, hd, if_pos rfl]
      exact advances_discard h hd
  | false => exact advances_read h hd

/-- The calls give no result that is not due. -/
theorem calls_isPrefix {r : ResumableLineReader} (h : r.Good) (n : ℕ) :
    calls n r <+: r.remaining := by
  induction n generalizing r with
  | zero => exact List.nil_prefix
  | succ n ih =>
      have hcall := advances_call h
      rw [calls, hcall.gives]
      exact (List.prefix_append_right_inj _).mpr (ih hcall.good)

/-- After some number of calls every result has been given. -/
theorem exists_calls_eq {r : ResumableLineReader} (h : r.Good) :
    ∃ n, ∀ m, n ≤ m → calls m r = r.remaining := by
  induction hwork : r.work using Nat.strong_induction_on generalizing r with
  | _ w ih =>
      have hcall := advances_call h
      obtain ⟨n, hn⟩ : ∃ n, ∀ m, n ≤ m → calls m r.call.2 = r.call.2.remaining := by
        rcases hcall.progress with hless | hnone
        · exact ih _ (hwork ▸ hless) hcall.good rfl
        · refine ⟨0, fun m _ ↦ ?_⟩
          have hextends := calls_isPrefix hcall.good m
          rw [hnone] at hextends
          rw [hnone, List.prefix_nil.mp hextends]
      refine ⟨n + 1, fun m hm ↦ ?_⟩
      obtain ⟨m, rfl⟩ := Nat.exists_eq_add_of_le' hm
      rw [← add_assoc, calls, hn _ (Nat.le_add_left _ _), ← hcall.gives]

/-- However the bytes of a stream arrive and wherever calls are given up, the calls give
the lines of the stream: no call a result that is not due, and enough calls all of them. -/
theorem calls_lines (arrivals : List Arrival) :
    (∀ n, calls n (new ⟨[], arrivals⟩) <+: lineResults (arrivedBytes arrivals)) ∧
      ∃ n, ∀ m, n ≤ m →
        calls m (new ⟨[], arrivals⟩) = lineResults (arrivedBytes arrivals) :=
  ⟨calls_isPrefix (good_new ⟨[], arrivals⟩), exists_calls_eq (good_new ⟨[], arrivals⟩)⟩

end ResumableLineReader

end EnCroissant.Engine
