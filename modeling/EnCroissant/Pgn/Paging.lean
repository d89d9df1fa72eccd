import Mathlib
import EnCroissant.Library.Paging
import EnCroissant.Pgn.SingleGame

/-!
# Reading the games of a file page by page

A request names a range of games and is answered with a prefix of it: as many
games as fit into the byte budget, and an oversized first game as an omission.
-/

namespace EnCroissant

def maxPageLen : ℕ := 1000

def maxPageBytes : ℕ := maxPgnBytes

inductive GameOmission where
  | tooLarge
  deriving DecidableEq, Repr

/-- A game of a page; the bytes of its text are those of its range. -/
structure StampedGame where
  pgn : List Char
  stamp : String
  revision : String
  present : Bool
  omission : Option GameOmission
  deriving DecidableEq, Repr

/-! ## One page -/

structure ValidGameRange where
  start : ℕ
  count : ℕ
  deriving DecidableEq, Repr

def ValidGameRange.new (start stop : Int32) : Except Error ValidGameRange :=
  if start < 0 ∨ stop < start then .error (.invalidInput "Invalid game range")
  else .ok ⟨start.toNatClampNeg, stop.toNatClampNeg - start.toNatClampNeg + 1⟩

def checkedRange (start stop : Int32) : Except Error ValidGameRange := do
  let range ← ValidGameRange.new start stop
  if range.count > maxPageLen then .error (.resourceLimit "PGN page exceeds 1000 games")
  else .ok range

/-- The checked length of a cached range. -/
def GameRange.byteLen (range : GameRange) : Except Error ℕ :=
  if range.stop < range.start then .error (.conflict "invalid cached PGN byte range")
  else .ok (range.stop - range.start)

/-- The selection loop at the `index`-th range, with `total` bytes selected: how many
ranges are selected, or that the first one is too large. -/
def selectLen (index total : ℕ) : List GameRange → Except Error (Option ℕ)
  | [] => .ok (some index)
  | range :: rest => do
      let bytes ← range.byteLen
      if index = 0 ∧ bytes > maxPgnBytes then .ok none
      else if total + bytes ≥ 2 ^ 64 then .ok (some index)
      else if index > 0 ∧ total + bytes > maxPageBytes then .ok (some index)
      else selectLen (index + 1) (total + bytes) rest

/-- The ranges of a page, and the omission that stands for them. -/
def selectPage (start count : ℕ) (games : List GameRange) :
    Except Error (Option GameOmission × List GameRange) :=
  if games.isEmpty ∧ start = 0 ∧ count = 1 then .ok (none, [])
  else if start + count > games.length then
    .error (.invalidInput "game index is out of bounds")
  else do
    let requested := (games.drop start).take count
    match ← selectLen 0 0 requested with
    | none => .ok (some .tooLarge, [])
    | some selected => .ok (none, requested.take selected)

def readRangeBytes (bytes : List UInt8) (range : GameRange) : Except Error (List UInt8) := do
  let len ← range.byteLen
  if len > maxPgnBytes then .error (.resourceLimit "PGN game exceeds 10 MiB")
  else
    let data := (bytes.drop range.start).take len
    if data.length < len then .error (.io .unexpectedEof "failed to fill whole buffer")
    else .ok data

section

variable (utf8Error : List UInt8 → String) (gameStamp : List UInt8 → String) (revision : String)

def readRanges (bytes : List UInt8) : List GameRange → Except Error (List (List Char))
  | [] => .ok []
  | range :: rest => do
      let data ← readRangeBytes bytes range
      match Utf8.decode data with
      | none => .error (invalidData ("invalid UTF-8 PGN: " ++ utf8Error data))
      | some pgn => do
          let games ← readRanges bytes rest
          .ok (pgn :: games)

def omitted (omission : GameOmission) : StampedGame where
  pgn := []
  stamp := ""
  revision := revision
  present := true
  omission := some omission

def stamped (pgn : List Char) : StampedGame where
  pgn := pgn
  stamp := gameStamp (Utf8.encode pgn)
  revision := revision
  present := true
  omission := none

/-- `read_games_core` of a file with these bytes. -/
def readGamesCore (bytes : List UInt8) (start stop : Int32) :
    Except Error (List StampedGame) := do
  let range ← checkedRange start stop
  let games ← scanGames bytes
  let (omission, requested) ← selectPage range.start range.count games
  let values ← readRanges utf8Error bytes requested
  match omission with
  | some omission => .ok [omitted revision omission]
  | none => .ok (values.map (stamped gameStamp revision))

/-! ## A client that reads every page -/

/-- `count_pgn_games`. -/
def countPgnGames (bytes : List UInt8) : Except Error Int32 := do
  let games ← scanGames bytes
  if games.length < 2 ^ 31 then .ok (Int32.ofNat games.length)
  else .error (.resourceLimit "PGN count exceeds IPC limit")

/-- The `n`-th request asks for `size n` games, or for those up to the last one, and the
next one starts behind the games that were returned. -/
def readPage (size : ℕ → ℕ) (bytes : List UInt8) (total n start : ℕ) :
    Except Error (List StampedGame × Option ℕ) := do
  let stop := min (start + size n - 1) (total - 1)
  let page ← readGamesCore utf8Error gameStamp revision bytes (Int32.ofNat start)
    (Int32.ofNat stop)
  let next := start + page.length
  .ok (page, if next < total then some next else none)

/-- Counts the games and reads them with at most `fuel` requests. -/
def readPages (size : ℕ → ℕ) (bytes : List UInt8) (fuel : ℕ) :
    Except Error (Option (List (List StampedGame))) := do
  let total ← countPgnGames bytes
  Paging.follow (readPage utf8Error gameStamp revision size bytes total.toNatClampNeg) fuel 0 0

end

/-! ## What a page holds -/

/-- The byte length of a range. -/
def GameRange.size (range : GameRange) : ℕ := range.stop - range.start

/-- A cached range that can be read from the file. -/
structure Readable (bytes : List UInt8) (range : GameRange) : Prop where
  le : range.start ≤ range.stop
  within : range.stop ≤ bytes.length
  decodes : (Utf8.decode (range.slice bytes)).isSome

/-- The text of a range. -/
def GameRange.text (bytes : List UInt8) (range : GameRange) : List Char :=
  (Utf8.decode (range.slice bytes)).getD []

theorem byteLen_eq {range : GameRange} (h : range.start ≤ range.stop) :
    range.byteLen = .ok range.size := if_neg (by omega)

theorem readRangeBytes_eq {bytes : List UInt8} {range : GameRange} (h : Readable bytes range)
    (hsize : range.size ≤ maxPgnBytes) :
    readRangeBytes bytes range = .ok (range.slice bytes) := by
  have hdata : (bytes.drop range.start).take range.size = range.slice bytes := by
    rw [GameRange.slice, GameRange.size, List.drop_take]
  have hlength : (range.slice bytes).length = range.size := by
    have := h.within
    rw [GameRange.slice, GameRange.size, List.length_drop, List.length_take]
    omega
  have hle : ¬ range.size > maxPgnBytes := by omega
  simp only [readRangeBytes, byteLen_eq h.le, bind, Except.bind, if_neg hle, hdata, hlength,
    lt_self_iff_false, if_false]

theorem readRanges_eq (utf8Error : List UInt8 → String) {bytes : List UInt8}
    {ranges : List GameRange} (h : ∀ range ∈ ranges, Readable bytes range)
    (hsize : ∀ range ∈ ranges, range.size ≤ maxPgnBytes) :
    readRanges utf8Error bytes ranges = .ok (ranges.map (·.text bytes)) := by
  induction ranges with
  | nil => rfl
  | cons range rest ih =>
      have hrange := h range List.mem_cons_self
      obtain ⟨pgn, hpgn⟩ := Option.isSome_iff_exists.mp hrange.decodes
      have hdata := readRangeBytes_eq hrange (hsize range List.mem_cons_self)
      have hrest := ih (fun r hr ↦ h r (List.mem_cons_of_mem _ hr))
        fun r hr ↦ hsize r (List.mem_cons_of_mem _ hr)
      rw [readRanges, hdata, List.map_cons, GameRange.text, hpgn]
      simp only [bind, Except.bind, hpgn, hrest, Option.getD_some]

/-- How many bytes these ranges have. -/
def sizes (ranges : List GameRange) : ℕ := (ranges.map (·.size)).sum

/-- Behind the first range the loop selects as many as keep within the budget. -/
theorem selectLen_later {ranges : List GameRange} (hle : ∀ range ∈ ranges, range.start ≤ range.stop)
    {index total : ℕ} (hindex : 0 < index) (htotal : total ≤ maxPageBytes) :
    ∃ more ≤ ranges.length, selectLen index total ranges = .ok (some (index + more)) ∧
      total + sizes (ranges.take more) ≤ maxPageBytes := by
  induction ranges generalizing index total with
  | nil => exact ⟨0, le_rfl, rfl, by simpa [sizes] using htotal⟩
  | cons range rest ih =>
      have hbytes := byteLen_eq (hle range List.mem_cons_self)
      have hnotFirst : ¬ (index = 0 ∧ range.size > maxPgnBytes) := by omega
      by_cases hfits : total + range.size < 2 ^ 64 ∧ total + range.size ≤ maxPageBytes
      · obtain ⟨more, hmore, hselect, hsum⟩ :=
          ih (fun r hr ↦ hle r (List.mem_cons_of_mem _ hr)) (Nat.succ_pos index) hfits.2
        refine ⟨more + 1, Nat.succ_le_succ hmore, ?_, ?_⟩
        · have hbudget : ¬ (index > 0 ∧ total + range.size > maxPageBytes) := by omega
          rw [selectLen, hbytes]
          simp only [bind, Except.bind]
          rw [if_neg hnotFirst, if_neg (not_le.mpr hfits.1), if_neg hbudget, hselect]
          simp only [Except.ok.injEq, Option.some.injEq]
          omega
        · rw [List.take_succ_cons, sizes, List.map_cons, List.sum_cons, ← Nat.add_assoc]
          exact hsum
      · refine ⟨0, Nat.zero_le _, ?_, by simpa [sizes] using htotal⟩
        rw [selectLen, hbytes]
        simp only [bind, Except.bind]
        rw [if_neg hnotFirst]
        split_ifs with hoverflow hbudget
        · rfl
        · rfl
        · omega

/-- A first range that is too large stands alone; else it is selected, and what follows
it as long as it keeps within the budget. -/
theorem selectLen_first {range : GameRange} {rest : List GameRange}
    (hle : ∀ r ∈ range :: rest, r.start ≤ r.stop) :
    (maxPgnBytes < range.size ∧ selectLen 0 0 (range :: rest) = .ok none) ∨
      (range.size ≤ maxPgnBytes ∧ ∃ selected, 0 < selected ∧ selected ≤ (range :: rest).length ∧
        selectLen 0 0 (range :: rest) = .ok (some selected) ∧
          sizes ((range :: rest).take selected) ≤ maxPageBytes) := by
  have hbytes := byteLen_eq (hle range List.mem_cons_self)
  by_cases hlarge : maxPgnBytes < range.size
  · refine Or.inl ⟨hlarge, ?_⟩
    rw [selectLen, hbytes]
    simp only [bind, Except.bind]
    rw [if_pos ⟨trivial, hlarge⟩]
  · obtain ⟨more, hmore, hselect, hsum⟩ := @selectLen_later rest
      (fun r hr ↦ hle r (List.mem_cons_of_mem _ hr)) 1 range.size Nat.one_pos (not_lt.mp hlarge)
    refine Or.inr ⟨not_lt.mp hlarge, more + 1, Nat.succ_pos _, Nat.succ_le_succ hmore, ?_, ?_⟩
    · have hbound : range.size < 2 ^ 64 := (not_lt.mp hlarge).trans_lt (by decide)
      rw [selectLen, hbytes]
      simp only [bind, Except.bind, Nat.zero_add]
      rw [if_neg (fun h ↦ hlarge h.2), if_neg (not_le.mpr hbound), if_neg (by simp), hselect,
        Nat.add_comm]
    · rw [List.take_succ_cons, sizes, List.map_cons, List.sum_cons]
      exact hsum

/-- The game of a page and the range that it was read from. -/
structure IsGameOf (gameStamp : List UInt8 → String) (revision : String) (bytes : List UInt8)
    (range : GameRange) (game : StampedGame) : Prop where
  revision : game.revision = revision
  present : game.present = true
  omitted : maxPgnBytes < range.size → game.omission = some .tooLarge ∧ game.pgn = []
  text : range.size ≤ maxPgnBytes → game.omission = none ∧
    Utf8.encode game.pgn = range.slice bytes ∧ game.stamp = gameStamp (range.slice bytes)

/-- How many bytes of text a page holds. -/
def pageBytes (page : List StampedGame) : ℕ :=
  (page.map fun game ↦ (Utf8.encode game.pgn).length).sum

section

variable (utf8Error : List UInt8 → String) (gameStamp : List UInt8 → String) (revision : String)

/-- The game that is returned for a range. -/
def gameOf (bytes : List UInt8) (range : GameRange) : StampedGame :=
  if maxPgnBytes < range.size then omitted revision .tooLarge
  else stamped gameStamp revision (range.text bytes)

variable {bytes : List UInt8} {games : List GameRange}

theorem encode_text {range : GameRange} (h : Readable bytes range) :
    Utf8.encode (range.text bytes) = range.slice bytes := by
  obtain ⟨pgn, hpgn⟩ := Option.isSome_iff_exists.mp h.decodes
  rw [GameRange.text, hpgn, Option.getD_some, ← Utf8.encode_of_decode hpgn]

theorem isGameOf_gameOf {range : GameRange} (h : Readable bytes range) :
    IsGameOf gameStamp revision bytes range (gameOf gameStamp revision bytes range) := by
  by_cases hlarge : maxPgnBytes < range.size
  · rw [gameOf, if_pos hlarge]
    exact ⟨rfl, rfl, fun _ ↦ ⟨rfl, rfl⟩, fun hsize ↦ absurd hlarge (not_lt.mpr hsize)⟩
  · rw [gameOf, if_neg hlarge]
    have htext := encode_text h
    exact ⟨rfl, rfl, fun hsize ↦ absurd hsize hlarge,
      fun _ ↦ ⟨rfl, htext, congrArg gameStamp htext⟩⟩

theorem length_encode_text {range : GameRange} (h : Readable bytes range) :
    (Utf8.encode (range.text bytes)).length = range.size := by
  have := h.within
  rw [encode_text h, GameRange.slice, GameRange.size, List.length_drop, List.length_take]
  omega

theorem pageBytes_stamped {ranges : List GameRange} (h : ∀ range ∈ ranges, Readable bytes range) :
    pageBytes ((ranges.map (·.text bytes)).map (stamped gameStamp revision)) = sizes ranges := by
  rw [pageBytes, sizes, List.map_map, List.map_map]
  refine congrArg List.sum (List.map_congr_left fun range hrange ↦ ?_)
  exact length_encode_text (h range hrange)

theorem size_le_sizes {ranges : List GameRange} {range : GameRange} (h : range ∈ ranges) :
    range.size ≤ sizes ranges :=
  List.single_le_sum (fun _ _ ↦ Nat.zero_le _) _ (List.mem_map_of_mem h)

/-- A request within the file is answered with a nonempty prefix of what it asks for. -/
theorem readGamesCore_some (hscan : scanGames bytes = .ok games)
    (hreadable : ∀ range ∈ games, Readable bytes range) {start count : ℕ}
    (hcount : 0 < count) (hbound : start + count ≤ games.length)
    {first last : Int32} (hrange : checkedRange first last = .ok ⟨start, count⟩) :
    ∃ selected, 0 < selected ∧ selected ≤ count ∧
      readGamesCore utf8Error gameStamp revision bytes first last =
        .ok (((games.drop start).take selected).map (gameOf gameStamp revision bytes)) ∧
      pageBytes (((games.drop start).take selected).map (gameOf gameStamp revision bytes)) ≤
        maxPageBytes := by
  have hinside : ¬ (games.isEmpty ∧ start = 0 ∧ count = 1) := by
    rintro ⟨hempty, -, -⟩
    rw [List.isEmpty_iff] at hempty
    rw [hempty, List.length_nil] at hbound
    omega
  have hlength : ((games.drop start).take count).length = count := by
    rw [List.length_take, List.length_drop]
    omega
  obtain ⟨range, rest, hrequested⟩ := List.exists_cons_of_length_pos (hlength ▸ hcount)
  have hmem : ∀ r ∈ range :: rest, Readable bytes r := by
    rw [← hrequested]
    exact fun r hr ↦ hreadable r (List.mem_of_mem_drop (List.mem_of_mem_take hr))
  have hselect : selectPage start count games = (do
      match ← selectLen 0 0 (range :: rest) with
      | none => .ok (some .tooLarge, [])
      | some selected => .ok (none, (range :: rest).take selected)) := by
    rw [selectPage, if_neg hinside, if_neg (by omega), hrequested]
  rcases selectLen_first fun r hr ↦ (hmem r hr).le with
    ⟨hlarge, hlen⟩ | ⟨-, selected, hpos, hle, hlen, hsizes⟩
  · have hfirst : (games.drop start).take 1 = [range] := by
      have := congrArg (List.take 1) hrequested
      rw [List.take_take, min_eq_left hcount] at this
      simpa using this
    refine ⟨1, Nat.one_pos, hcount, ?_, ?_⟩
    · rw [hlen] at hselect
      simp only [readGamesCore, hrange, hscan, hselect, hfirst, bind, Except.bind, readRanges,
        List.map_cons, List.map_nil, gameOf, if_pos hlarge]
    · rw [hfirst, List.map_singleton, gameOf, if_pos hlarge]
      exact Nat.zero_le _
  · rw [← hrequested, hlength] at hle
    have hpage : (range :: rest).take selected = (games.drop start).take selected := by
      rw [← hrequested, List.take_take, min_eq_left hle]
    rw [hpage] at hsizes
    have hreadable' : ∀ r ∈ (games.drop start).take selected, Readable bytes r :=
      fun r hr ↦ hreadable r (List.mem_of_mem_drop (List.mem_of_mem_take hr))
    have hsmall : ∀ r ∈ (games.drop start).take selected, r.size ≤ maxPgnBytes :=
      fun r hr ↦ (size_le_sizes hr).trans hsizes
    have hgames : ((games.drop start).take selected).map (gameOf gameStamp revision bytes) =
        (((games.drop start).take selected).map (·.text bytes)).map
          (stamped gameStamp revision) := by
      rw [List.map_map]
      exact List.map_congr_left fun r hr ↦ if_neg (not_lt.mpr (hsmall r hr))
    refine ⟨selected, hpos, hle, ?_, ?_⟩
    · rw [hlen] at hselect
      simp only [readGamesCore, hrange, hscan, hselect, hpage, bind, Except.bind, hgames,
        readRanges_eq utf8Error hreadable' hsmall]
    · rw [hgames, pageBytes_stamped gameStamp revision hreadable']
      exact hsizes

/-- The request of a client for `size` games, cut to the last one. -/
theorem checkedRange_request {start total size : ℕ} (htotal : total < 2 ^ 31)
    (hstart : start < total ∨ start = 0) (hsize : 0 < size) (hsize' : size ≤ maxPageLen) :
    checkedRange (Int32.ofNat start) (Int32.ofNat (min (start + size - 1) (total - 1))) =
      .ok ⟨start, min (start + size - 1) (total - 1) - start + 1⟩ := by
  have hstop : min (start + size - 1) (total - 1) < 2 ^ 31 := by omega
  have hstart' : start < 2 ^ 31 := by omega
  have hpositive : ¬ (Int32.ofNat start < 0 ∨
      Int32.ofNat (min (start + size - 1) (total - 1)) < Int32.ofNat start) := by
    rw [Int32.lt_iff_toInt_lt, Int32.lt_iff_toInt_lt, Int32.toInt_ofNat_of_lt hstart',
      Int32.toInt_ofNat_of_lt hstop, Int32.toInt_zero]
    omega
  have hcount : ¬ min (start + size - 1) (total - 1) - start + 1 > maxPageLen := by omega
  rw [checkedRange, ValidGameRange.new, if_neg hpositive,
    Int32.toNatClampNeg_ofNat_of_lt hstart', Int32.toNatClampNeg_ofNat_of_lt hstop]
  simp only [bind, Except.bind, if_neg hcount]

end

/-! ## Every page -/

/-- The scanner's ranges can be read. -/
theorem readable_of_scanGames {bytes : List UInt8} {games : List GameRange}
    (h : scanGames bytes = .ok games) : ∀ range ∈ games, Readable bytes range := by
  obtain ⟨pre, blocks, hdecomposed, hlayout⟩ := scanGames_eq_ok_iff.mp h
  have htexts : games.map (·.slice bytes) = blocks.map List.flatten := by
    have hgames := gameTexts_of_decomposed hdecomposed
    rw [gameTexts, h] at hgames
    exact Except.ok.inj hgames
  intro range hrange
  have hslice : range.slice bytes ∈ blocks.map List.flatten := by
    rw [← htexts]
    exact List.mem_map_of_mem hrange
  obtain ⟨block, hblock, heq⟩ := List.mem_map.mp hslice
  have hlength := hdecomposed.length_eq
  rw [hlayout] at hrange
  obtain ⟨done, text, rest, hblocks, rfl⟩ := mem_layout hrange
  rw [hblocks, List.flatten_append, List.flatten_cons, List.length_append,
    List.length_append] at hlength
  refine ⟨Nat.le_add_right _ _, by rw [hlength]; dsimp only; omega, ?_⟩
  rw [← heq]
  refine isSome_decode_flatten fun line hline ↦ hdecomposed.ok line ?_
  exact List.mem_append_right _ (List.mem_flatten_of_mem hblock hline)

theorem countPgnGames_eq_ok {bytes : List UInt8} {total : Int32}
    (h : countPgnGames bytes = .ok total) :
    ∃ games, scanGames bytes = .ok games ∧ games.length < 2 ^ 31 ∧
      total.toNatClampNeg = games.length := by
  rw [countPgnGames] at h
  cases hscan : scanGames bytes with
  | error error =>
      rw [hscan] at h
      cases h
  | ok games =>
      rw [hscan] at h
      simp only [bind, Except.bind] at h
      split_ifs at h with hlength
      obtain rfl := Except.ok.inj h
      exact ⟨games, rfl, hlength, Int32.toNatClampNeg_ofNat_of_lt hlength⟩

section

variable (utf8Error : List UInt8 → String) (gameStamp : List UInt8 → String) (revision : String)
  {bytes : List UInt8} {games : List GameRange} {size : ℕ → ℕ}

/-- The opening request of a file without games is answered with none. -/
theorem readPage_of_empty (hscan : scanGames bytes = .ok []) (hsize : 0 < size 0)
    (hsize' : size 0 ≤ maxPageLen) :
    readPage utf8Error gameStamp revision size bytes 0 0 0 = .ok ([], none) := by
  have hrange := checkedRange_request (by decide : 0 < 2 ^ 31) (Or.inr rfl) hsize hsize'
  have hselect : selectPage 0 (min (0 + size 0 - 1) (0 - 1) - 0 + 1) [] = .ok (none, []) := by
    rw [selectPage, if_pos]
    simp
  simp only [readPage, readGamesCore, hrange, hscan, hselect, bind, Except.bind, readRanges]
  rfl

/-- What is left for the client behind `start` games. -/
def Behind (bytes : List UInt8) (games : List GameRange) (_n start : ℕ)
    (rest : List StampedGame) : Prop :=
  start < games.length ∧ rest = (games.drop start).map (gameOf gameStamp revision bytes)

variable {utf8Error gameStamp revision}

/-- A request for some of the games left returns the first of them, within the limits. -/
theorem readPage_behind (hscan : scanGames bytes = .ok games) (hbound : games.length < 2 ^ 31)
    (hsize : ∀ n, 0 < size n ∧ size n ≤ maxPageLen) {n start : ℕ} {rest : List StampedGame}
    (h : Behind gameStamp revision bytes games n start rest) :
    ∃ page rest', page ≠ [] ∧ rest = page ++ rest' ∧ page.length ≤ size n ∧
      pageBytes page ≤ maxPageBytes ∧
        readPage utf8Error gameStamp revision size bytes games.length n start = .ok
          (page, if start + page.length < games.length then some (start + page.length) else none) ∧
          rest' = (games.drop (start + page.length)).map (gameOf gameStamp revision bytes) := by
  obtain ⟨hstart, rfl⟩ := h
  obtain ⟨hpos, hle⟩ := hsize n
  have hrange := checkedRange_request hbound (Or.inl hstart) hpos hle
  obtain ⟨selected, hselected, hcount, hread, hbytes⟩ :=
    readGamesCore_some utf8Error gameStamp revision hscan (readable_of_scanGames hscan)
      (Nat.succ_pos _) (by omega) hrange
  have hlength : (((games.drop start).take selected).map
      (gameOf gameStamp revision bytes)).length = selected := by
    rw [List.length_map, List.length_take, List.length_drop]
    omega
  refine ⟨_, ((games.drop start).drop selected).map (gameOf gameStamp revision bytes), ?_, ?_,
    ?_, hbytes, ?_, ?_⟩
  · refine List.ne_nil_of_length_pos ?_
    rwa [hlength]
  · rw [← List.map_append, List.take_append_drop]
  · omega
  · simp only [readPage, hread, bind, Except.bind]
  · rw [hlength, List.drop_drop]

/-- Every request of the client leaves what the next one asks for. -/
theorem advances_readPage (hscan : scanGames bytes = .ok games) (hbound : games.length < 2 ^ 31)
    (hsize : ∀ n, 0 < size n ∧ size n ≤ maxPageLen) :
    Paging.Advances (readPage utf8Error gameStamp revision size bytes games.length)
      (Behind gameStamp revision bytes games) where
  step {n start rest} h := by
    obtain ⟨page, rest', hne, rfl, -, -, hread, rfl⟩ := readPage_behind hscan hbound hsize h
    by_cases hmore : start + page.length < games.length
    · rw [if_pos hmore] at hread
      exact Or.inr ⟨page, _, _, hne, rfl, hread, hmore, rfl⟩
    · rw [if_neg hmore] at hread
      refine Or.inl ?_
      rw [List.drop_of_length_le (not_lt.mp hmore), List.map_nil, List.append_nil]
      exact hread

/-- The pages of a file hold its games, each once and in order, every request moves on, and
a game comes without its text exactly when it is too large alone. -/
theorem readPages_games {t : Int32} (hcount : countPgnGames bytes = .ok t)
    (hsize : ∀ n, 0 < size n ∧ size n ≤ maxPageLen) :
    ∃ games pages, scanGames bytes = .ok games ∧ games.length = t.toNatClampNeg ∧
      (∀ fuel, games.length < fuel →
        readPages utf8Error gameStamp revision size bytes fuel = .ok (some pages)) ∧
      List.Forall₂ (IsGameOf gameStamp revision bytes) games pages.flatten ∧
      (games ≠ [] → ∀ page ∈ pages, page ≠ []) ∧
      ∀ page ∈ pages, pageBytes page ≤ maxPageBytes ∧ page.length ≤ maxPageLen := by
  obtain ⟨games, hscan, hbound, htotal⟩ := countPgnGames_eq_ok hcount
  have hrun : ∀ fuel, readPages utf8Error gameStamp revision size bytes fuel =
      Paging.follow (readPage utf8Error gameStamp revision size bytes games.length) fuel 0 0 := by
    intro fuel
    rw [readPages, hcount, ← htotal]
    rfl
  rcases Nat.eq_zero_or_pos games.length with hempty | hpos
  · obtain rfl := List.length_eq_zero_iff.mp hempty
    have hread := readPage_of_empty utf8Error gameStamp revision hscan (hsize 0).1 (hsize 0).2
    refine ⟨[], [[]], hscan, htotal.symm, ?_, List.Forall₂.nil, fun h ↦ absurd rfl h, ?_⟩
    · rintro (_ | fuel) hfuel
      · cases hfuel
      · rw [hrun]
        exact Paging.follow_of_last fuel hread
    · intro page hpage
      obtain rfl := List.mem_singleton.mp hpage
      exact ⟨Nat.zero_le _, Nat.zero_le _⟩
  · obtain ⟨pages, hpages, hflatten, heach⟩ :=
      Paging.follow_eq (advances_readPage hscan hbound hsize)
        (games.map (gameOf gameStamp revision bytes)) ⟨hpos, rfl⟩
    have hpage : ∀ page ∈ pages, page ≠ [] ∧ pageBytes page ≤ maxPageBytes ∧
        page.length ≤ maxPageLen := by
      intro page hmem
      obtain ⟨n, start, rest, next, hbehind, hread⟩ := heach page hmem
      obtain ⟨page', rest', hne, -, hlength, hbytes, hread', -⟩ :=
        readPage_behind hscan hbound hsize hbehind
      obtain rfl := congrArg Prod.fst (Except.ok.inj (hread.symm.trans hread'))
      exact ⟨hne, hbytes, hlength.trans (hsize n).2⟩
    refine ⟨games, pages, hscan, htotal.symm, ?_, ?_, fun _ page h ↦ (hpage page h).1,
      fun page h ↦ (hpage page h).2⟩
    · intro fuel hfuel
      rw [hrun]
      exact hpages fuel (by rwa [List.length_map])
    · rw [hflatten, List.forall₂_map_right_iff, List.forall₂_same]
      exact fun range hrange ↦ isGameOf_gameOf gameStamp revision
        (readable_of_scanGames hscan range hrange)

end

/-- The stamp of the only game of `commentPreface`. -/
def stampOfPreface : String :=
  "9744a751173f9fee66e2a52fa017cbecb885c7af51edaa2c9e3da167d6588707"

theorem readPages_games_commentPreface :
    ∃ games pages, scanGames commentPreface = .ok games ∧ games.length = 1 ∧
      (∀ fuel, games.length < fuel →
        readPages (fun _ ↦ "") (fun _ ↦ stampOfPreface) "1:2:25:0:0" (fun _ ↦ 1) commentPreface fuel =
          .ok (some pages)) ∧
      List.Forall₂ (IsGameOf (fun _ ↦ stampOfPreface) "1:2:25:0:0" commentPreface) games
        pages.flatten ∧
      (games ≠ [] → ∀ page ∈ pages, page ≠ []) ∧
      ∀ page ∈ pages, pageBytes page ≤ maxPageBytes ∧ page.length ≤ maxPageLen :=
  readPages_games (t := 1) (by decide) fun _ ↦ by decide

end EnCroissant
