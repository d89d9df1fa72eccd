import Mathlib
import EnCroissant.Pgn.Joining

/-!
# Editing a PGN file

An edit copies the bytes in front of a range, writes the replacement of the
range with newlines at its seams, and copies the bytes behind the range.
-/

namespace EnCroissant

def maxPgnBytes : ℕ := 10 * 1024 * 1024

/-! ## The edit -/

/-- `copy_range` from `start` up to `stop`. -/
def copyRange (source : List UInt8) (start stop : ℕ) : Except Error (List UInt8) :=
  if stop < start then .error (.conflict "invalid PGN byte range")
  else
    let copied := (source.drop start).take (stop - start)
    if copied.length < stop - start then .error (.conflict "PGN snapshot ended while copying")
    else .ok copied

/-- `read_exact` of one byte behind a `seek`. -/
def readByte (source : List UInt8) (offset : ℕ) : Except Error UInt8 :=
  match source[offset]? with
  | none => .error (.io .unexpectedEof "failed to fill whole buffer")
  | some b => .ok b

def startsWithNewline (text : List UInt8) : Bool := text.head? = some newline

def endsWithNewline (text : List UInt8) : Bool := text.getLast? = some newline

/-- The newline in front of a replacement. -/
def leadingSeam (source : List UInt8) (target : GameRange) (replacement : List UInt8) :
    Except Error (List UInt8) :=
  if target.start > 0 ∧ !startsWithNewline replacement then do
    let prior ← readByte source (target.start - 1)
    .ok (if prior ≠ newline then [newline] else [])
  else .ok []

/-- The newline behind a replacement. -/
def trailingSeam (size : ℕ) (target : GameRange) (replacement : List UInt8) : List UInt8 :=
  if !endsWithNewline replacement ∧ (target.stop < size ∨ target.stop = target.start) then
    [newline]
  else []

/-- The newline in place of a deleted range. -/
def deletionSeam (source : List UInt8) (size : ℕ) (target : GameRange) :
    Except Error (List UInt8) :=
  if target.start > 0 ∧ target.stop < size then do
    let prior ← readByte source (target.start - 1)
    let following ← readByte source target.stop
    .ok (if prior ≠ newline ∧ following ≠ newline then [newline] else [])
  else .ok []

/-- What is written between the two copied ranges. -/
def seam (source : List UInt8) (size : ℕ) (target : GameRange) :
    Option (List UInt8) → Except Error (List UInt8)
  | some replacement => do
      let lead ← leadingSeam source target replacement
      .ok (lead ++ replacement ++ trailingSeam size target replacement)
  | none => deletionSeam source size target

def editExisting (source : List UInt8) (size : ℕ) (target : GameRange)
    (replacement : Option (List UInt8)) : Except Error (List UInt8) := do
  let front ← copyRange source 0 target.start
  let middle ← seam source size target replacement
  let back ← copyRange source target.stop size
  .ok (front ++ middle ++ back)

def checkedIndex (n : ℤ) : Except Error ℕ :=
  if n < 0 then .error (.invalidInput "Invalid game index") else .ok n.toNat

/-- The file after `delete_game`. -/
def deleteGame (bytes : List UInt8) (n : ℤ) : Except Error (List UInt8) := do
  let n ← checkedIndex n
  let games ← scanGames bytes
  match games[n]? with
  | none => .error .staleGame
  | some range => editExisting bytes bytes.length range none

/-- The file after `write_game`; the index behind the last game appends. -/
def writeGame (bytes : List UInt8) (n : ℤ) (pgn : List UInt8) : Except Error (List UInt8) := do
  let n ← checkedIndex n
  if pgn.length > maxPgnBytes then .error (.resourceLimit "replacement PGN exceeds 10 MiB")
  else do
    let games ← scanGames bytes
    match games[n]? with
    | some range => editExisting bytes bytes.length range (some pgn)
    | none =>
        if n = games.length then
          editExisting bytes bytes.length ⟨bytes.length, bytes.length⟩ (some pgn)
        else .error (.invalidInput "game index is out of bounds")

/-- The bytes of the games of a file. -/
def gameTexts (bytes : List UInt8) : Except Error (List (List UInt8)) := do
  let games ← scanGames bytes
  .ok (games.map (·.slice bytes))

/-! ## What an edit writes -/

theorem copyRange_front (front rest : List UInt8) :
    copyRange (front ++ rest) 0 front.length = .ok front := by
  simp [copyRange]

theorem copyRange_back (front rest : List UInt8) :
    copyRange (front ++ rest) front.length (front ++ rest).length = .ok rest := by
  simp [copyRange]

theorem readByte_append (front rest : List UInt8) (b : UInt8) :
    readByte (front ++ b :: rest) front.length = .ok b := by
  simp [readByte]

theorem ending_concat (front : List UInt8) (b : UInt8) :
    Lines.ending newline (front ++ [b]) = if b ≠ newline then [newline] else [] := by
  simp only [Lines.ending, List.getLast?_concat, ite_not]

theorem leadingSeam_eq {front text : List UInt8} (rest : List UInt8) (stop : ℕ)
    (h : startsWithNewline text = false) :
    leadingSeam (front ++ rest) ⟨front.length, stop⟩ text =
      .ok (Lines.ending newline front) := by
  rcases List.eq_nil_or_concat' front with rfl | ⟨init, last, rfl⟩
  · rfl
  · have hread := readByte_append init rest last
    rw [leadingSeam, if_pos ⟨by simp, by simp [h]⟩, ending_concat, List.length_append,
      List.length_singleton, Nat.add_sub_cancel, List.append_assoc, List.singleton_append, hread]
    rfl

theorem trailingSeam_eq {text : List UInt8} (front game back : List UInt8) (h : text ≠ []) :
    trailingSeam (front ++ game ++ back).length ⟨front.length, front.length + game.length⟩ text =
      if back = [] ∧ game ≠ [] then [] else Lines.ending newline text := by
  have hlength : (front.length + game.length < (front ++ game ++ back).length ∨
      front.length + game.length = front.length) ↔ ¬(back = [] ∧ game ≠ []) := by
    rw [List.length_append, List.length_append, ← List.length_eq_zero_iff, Ne,
      ← List.length_eq_zero_iff]
    omega
  obtain ⟨init, last, rfl⟩ := (List.eq_nil_or_concat' text).resolve_left h
  rw [trailingSeam, if_congr (and_congr_right' hlength) rfl rfl, ending_concat,
    endsWithNewline, List.getLast?_concat]
  by_cases hlast : last = newline <;> by_cases hback : back = [] ∧ game ≠ [] <;>
    simp [hlast, hback]

theorem deletionSeam_eq {front back : List UInt8} (game : List UInt8)
    (h : back.head? ≠ some newline) :
    deletionSeam (front ++ game ++ back) (front ++ game ++ back).length
        ⟨front.length, front.length + game.length⟩ =
      .ok (if back = [] then [] else Lines.ending newline front) := by
  cases back with
  | nil => rw [deletionSeam, if_neg (by simp), if_pos rfl]
  | cons following back =>
      rw [if_neg (List.cons_ne_nil _ _)]
      rcases List.eq_nil_or_concat' front with rfl | ⟨init, last, rfl⟩
      · rfl
      · have hlast : readByte (init ++ [last] ++ game ++ following :: back)
            ((init ++ [last]).length - 1) = .ok last := by
          simpa using readByte_append init (game ++ following :: back) last
        have hfollowing : readByte (init ++ [last] ++ game ++ following :: back)
            ((init ++ [last]).length + game.length) = .ok following := by
          rw [← List.length_append]
          exact readByte_append _ _ _
        have hne : following ≠ newline := by simpa using h
        have hinside : (init ++ [last]).length + game.length <
            (init ++ [last] ++ game ++ following :: back).length := by
          rw [← List.length_append, @List.length_append _ (init ++ [last] ++ game)]
          simp
        rw [deletionSeam, if_pos ⟨by simp, hinside⟩, hlast, hfollowing, ending_concat]
        simp only [bind, Except.bind, hne, ne_eq, not_false_eq_true, and_true]

theorem copyRange_behind (front game back : List UInt8) :
    copyRange (front ++ game ++ back) (front.length + game.length)
      (front ++ game ++ back).length = .ok back := by
  rw [← List.length_append]
  exact copyRange_back _ _

/-- A replacement is set off by newlines on both sides. -/
theorem editExisting_some {text : List UInt8} (front game back : List UInt8) (hne : text ≠ [])
    (hstarts : startsWithNewline text = false) :
    editExisting (front ++ game ++ back) (front ++ game ++ back).length
        ⟨front.length, front.length + game.length⟩ (some text) =
      .ok (front ++ Lines.ending newline front ++ text ++
        (if back = [] ∧ game ≠ [] then [] else Lines.ending newline text) ++ back) := by
  have hfront := copyRange_front front (game ++ back)
  have hlead := @leadingSeam_eq front text (game ++ back) (front.length + game.length) hstarts
  rw [← List.append_assoc] at hfront hlead
  simp only [editExisting, seam, hfront, hlead, trailingSeam_eq front game back hne,
    copyRange_behind]
  simp only [bind, Except.bind, List.append_assoc]

theorem editExisting_none {back : List UInt8} (front game : List UInt8)
    (h : back.head? ≠ some newline) :
    editExisting (front ++ game ++ back) (front ++ game ++ back).length
        ⟨front.length, front.length + game.length⟩ none =
      .ok (front ++ (if back = [] then [] else Lines.ending newline front) ++ back) := by
  have hfront := copyRange_front front (game ++ back)
  rw [← List.append_assoc] at hfront
  simp only [editExisting, seam, hfront, deletionSeam_eq game h, copyRange_behind]
  rfl

end EnCroissant
