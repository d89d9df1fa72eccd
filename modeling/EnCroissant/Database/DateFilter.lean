import EnCroissant.Library.Utf8

/-!
# The two date filters

A stored date may leave parts of it open with question marks and then stands
for an interval of days.  The search index compares its bytes; the game list
compares a text that an SQL expression builds.  Both filters select the same
games.
-/

namespace EnCroissant

/-! ## The filter of the search index -/

def asciiBytes (s : String) : List UInt8 :=
  Utf8.encode s.toList

/-- The comparison of two texts, as both sides make it: byte by byte. -/
def textLe (s t : List Char) : Bool :=
  decide (Utf8.encode s ≤ Utf8.encode t)

def isDatePart (byte : UInt8) : Bool :=
  (48 ≤ byte && byte ≤ 57) || byte == 63

/-- The shape `dddd.dd.dd`, where a question mark may stand for a digit. -/
def isPgnDate (bytes : List UInt8) : Bool :=
  bytes.length == 10 &&
    bytes.zipIdx.all fun b ↦ if b.2 == 4 || b.2 == 7 then b.1 == 46 else isDatePart b.1

def isLeapYear (year : ℕ) : Bool :=
  year % 4 == 0 && (year % 100 != 0 || year % 400 == 0)

/-- The last day of a month given by its two bytes; 31 for one that is unknown. -/
def lastDay (year : ℕ) (month : List UInt8) : List UInt8 :=
  if [asciiBytes "04", asciiBytes "06", asciiBytes "09", asciiBytes "11"].contains month then
    asciiBytes "30"
  else if month == asciiBytes "02" then
    if isLeapYear year then asciiBytes "29" else asciiBytes "28"
  else asciiBytes "31"

def slice (bytes : List UInt8) (start stop : ℕ) : List UInt8 :=
  (bytes.drop start).take (stop - start)

def copyInto (bytes : List UInt8) (start : ℕ) (part : List UInt8) : List UInt8 :=
  bytes.take start ++ part ++ bytes.drop (start + part.length)

def yearOf (bytes : List UInt8) : ℕ :=
  (slice bytes 0 4).foldl (fun year digit ↦ year * 10 + (digit - 48).toNat) 0

/-- The first or the last day a date with a known year stands for. -/
def endpoint (latest : Bool) (bytes : List UInt8) : List UInt8 :=
  let last := lastDay (yearOf bytes) (slice bytes 5 7)
  let replaced :=
    if (slice bytes 5 7).contains 63 then
      copyInto bytes 5 (if latest then asciiBytes "12" else asciiBytes "01")
    else bytes
  if (slice bytes 8 10).contains 63 then
    copyInto replaced 8 (if latest then last else asciiBytes "01")
  else replaced

/-- The filter of the position search over its index. -/
def matchesDate (date start stop : Option (List Char)) : Bool :=
  if start.isNone && stop.isNone then true
  else
    match date with
    | none => false
    | some date =>
        let bytes := Utf8.encode date
        if !isPgnDate bytes then
          start.all (textLe · date) && stop.all (textLe date ·)
        else if (slice bytes 0 4).contains 63 then false
        else
          start.all (fun bound ↦ decide (Utf8.encode bound ≤ endpoint false bytes)) &&
            stop.all fun bound ↦ decide (endpoint true bytes ≤ Utf8.encode bound)

/-! ## The functions of the database -/

namespace Sqlite

/-- One character of a `GLOB` pattern: itself, or a set given by its ranges. -/
inductive GlobItem where
  | char (c : Char)
  | set (ranges : List (Char × Char))

def GlobItem.accepts : GlobItem → Char → Bool
  | .char d, c => c == d
  | .set ranges, c => ranges.any fun range ↦ range.1 ≤ c && c ≤ range.2

def glob : List GlobItem → List Char → Bool
  | [], [] => true
  | item :: items, c :: cs => item.accepts c && glob items cs
  | _, _ => false

/-- `substr`, which counts characters from one. -/
def substr (s : List Char) (start length : ℕ) : List Char :=
  (s.drop (start - 1)).take length

structure Date where
  year : ℕ
  month : ℕ
  day : ℕ
  deriving DecidableEq

def daysInMonth (year month : ℕ) : ℕ :=
  if month = 4 ∨ month = 6 ∨ month = 9 ∨ month = 11 then 30
  else if month = 2 then if isLeapYear year then 29 else 28
  else 31

def numeral (digits : List Char) : ℕ :=
  digits.foldl (fun n c ↦ n * 10 + (c.toNat - 48)) 0

/-- The form `YYYY-MM-DD`, with the month and the day in range. -/
def parseDateOk (s : List Char) : Bool :=
  s.length == 10 && (substr s 1 4 ++ substr s 6 2 ++ substr s 9 2).all Char.isDigit &&
    substr s 5 1 == ['-'] && substr s 8 1 == ['-'] &&
    1 ≤ numeral (substr s 6 2) && numeral (substr s 6 2) ≤ 12 &&
    1 ≤ numeral (substr s 9 2) && numeral (substr s 9 2) ≤ 31

def parseDate (s : List Char) : Option Date :=
  if parseDateOk s then
    some ⟨numeral (substr s 1 4), numeral (substr s 6 2), numeral (substr s 9 2)⟩
  else none

/-- The modifier `+1 month`; a date past the year 9999 is out of range. -/
def Date.nextMonth (d : Date) : Option Date :=
  let next : Date :=
    if d.month = 12 then ⟨d.year + 1, 1, d.day⟩ else ⟨d.year, d.month + 1, d.day⟩
  let next : Date :=
    if next.day > daysInMonth next.year next.month then
      ⟨next.year, next.month + 1, next.day - daysInMonth next.year next.month⟩
    else next
  if next.year > 9999 then none else some next

/-- The modifier `-1 day`. -/
def Date.previousDay (d : Date) : Option Date :=
  if d.day > 1 then some ⟨d.year, d.month, d.day - 1⟩
  else if d.month > 1 then some ⟨d.year, d.month - 1, daysInMonth d.year (d.month - 1)⟩
  else if d.year > 0 then some ⟨d.year - 1, 12, 31⟩
  else none

/-- `strftime('%d', date(s, '+1 month', '-1 day'))`. -/
def monthEnd (s : List Char) : Option (List Char) :=
  (((parseDate s).bind Date.nextMonth).bind Date.previousDay).map fun d ↦
    [Char.ofNat (48 + d.day / 10), Char.ofNat (48 + d.day % 10)]

end Sqlite

/-! ## The filter of the game list -/

open Sqlite

def datePart : GlobItem := .set [('0', '9'), ('?', '?')]

def datePattern : List GlobItem :=
  [datePart, datePart, datePart, datePart, .char '.', datePart, datePart, .char '.', datePart,
    datePart]

/-- The month the expression writes. -/
def monthSql (latest : Bool) (date : List Char) : List Char :=
  if (substr date 6 2).contains '?' then if latest then "12".toList else "01".toList
  else substr date 6 2

/-- The day the expression writes. -/
def daySql (latest : Bool) (date : List Char) : List Char :=
  if (substr date 9 2).contains '?' then
    if latest && (textLe "01".toList (substr date 6 2) && textLe (substr date 6 2) "12".toList)
    then
      (monthEnd (substr date 1 4 ++ "-".toList ++ substr date 6 2 ++ "-01".toList)).getD
        "31".toList
    else if latest then "31".toList else "01".toList
  else substr date 9 2

def dateIntervalEndpointSql (latest : Bool) (date : Option (List Char)) :
    Option (List Char) :=
  match date with
  | none => none
  | some date =>
      if (Utf8.encode date).length == 10 && glob datePattern date then
        if (substr date 1 4).contains '?' then none
        else
          some (substr date 1 4 ++ ['.'] ++ monthSql latest date ++ ['.'] ++ daySql latest date)
      else some date

/-- The condition on the date that the query for the games carries; a comparison
with `NULL` selects nothing. -/
def selectsDate (start stop date : Option (List Char)) : Bool :=
  (start.all fun bound ↦ (dateIntervalEndpointSql false date).any (textLe bound ·)) &&
    stop.all fun bound ↦ (dateIntervalEndpointSql true date).any (textLe · bound)

/-! ## Dates of the common shape -/

/-- The characters of the parts of a date. -/
def partChars : List Char := ['0', '1', '2', '3', '4', '5', '6', '7', '8', '9', '?']

def byteOf (c : Char) : UInt8 := UInt8.ofNat c.toNat

theorem mem_partChars_iff (c : Char) :
    c ∈ partChars ↔ c = '0' ∨ c = '1' ∨ c = '2' ∨ c = '3' ∨ c = '4' ∨ c = '5' ∨ c = '6' ∨
      c = '7' ∨ c = '8' ∨ c = '9' ∨ c = '?' := by
  simp [partChars]

theorem partChar_byte {c : Char} (h : c ∈ partChars) :
    String.utf8EncodeChar c = [byteOf c] ∧ isDatePart (byteOf c) = true ∧
      datePart.accepts c = true ∧ (byteOf c == 63) = (c == '?') := by
  rw [mem_partChars_iff] at h
  rcases h with rfl | rfl | rfl | rfl | rfl | rfl | rfl | rfl | rfl | rfl | rfl <;>
    exact ⟨by decide, by decide, by decide, by decide⟩

theorem mem_partChars_ofNat {n : ℕ} (h : n = 63 ∨ (48 ≤ n ∧ n ≤ 57)) :
    Char.ofNat n ∈ partChars := by
  rcases h with rfl | ⟨hlow, hhigh⟩
  · decide
  · interval_cases n <;> decide

theorem mem_partChars_of_isDatePart {b : UInt8} (h : isDatePart b = true) :
    b < 128 ∧ Char.ofNat b.toNat ∈ partChars := by
  have hrange : b.toNat = 63 ∨ (48 ≤ b.toNat ∧ b.toNat ≤ 57) := by
    simp only [isDatePart, Bool.or_eq_true, Bool.and_eq_true, decide_eq_true_eq, beq_iff_eq,
      UInt8.le_iff_toNat_le, ← UInt8.toNat_inj] at h
    change (48 ≤ b.toNat ∧ b.toNat ≤ 57) ∨ b.toNat = 63 at h
    omega
  refine ⟨?_, mem_partChars_ofNat hrange⟩
  rw [UInt8.lt_iff_toNat_lt]
  change b.toNat < 128
  omega

theorem mem_partChars_of_accepts {c : Char} (h : datePart.accepts c = true) :
    c ∈ partChars := by
  have hrange : c.toNat = 63 ∨ (48 ≤ c.toNat ∧ c.toNat ≤ 57) := by
    simp only [datePart, GlobItem.accepts, List.any_cons, List.any_nil, Bool.or_false,
      Bool.or_eq_true, Bool.and_eq_true, decide_eq_true_eq, Char.le_def,
      UInt32.le_iff_toNat_le] at h
    change (48 ≤ c.toNat ∧ c.toNat ≤ 57) ∨ (63 ≤ c.toNat ∧ c.toNat ≤ 63) at h
    omega
  have hmem := mem_partChars_ofNat hrange
  rw [Char.ofNat_toNat] at hmem
  exact hmem

/-- A date of the shape both filters look for. -/
structure PgnDate where
  y₁ : Char
  y₂ : Char
  y₃ : Char
  y₄ : Char
  m₁ : Char
  m₂ : Char
  d₁ : Char
  d₂ : Char
  parts : ∀ c ∈ [y₁, y₂, y₃, y₄, m₁, m₂, d₁, d₂], c ∈ partChars

namespace PgnDate

def year (p : PgnDate) : List Char := [p.y₁, p.y₂, p.y₃, p.y₄]

def month (p : PgnDate) : List Char := [p.m₁, p.m₂]

def day (p : PgnDate) : List Char := [p.d₁, p.d₂]

def text (p : PgnDate) : List Char := p.year ++ ['.'] ++ p.month ++ ['.'] ++ p.day

end PgnDate

theorem encode_parts {cs : List Char} (h : ∀ c ∈ cs, c ∈ partChars) :
    Utf8.encode cs = cs.map byteOf := by
  induction cs with
  | nil => rfl
  | cons c cs ih =>
      have hc := (partChar_byte (h c List.mem_cons_self)).1
      rw [Utf8.encode_cons, hc, ih fun d hd ↦ h d (List.mem_cons_of_mem c hd)]
      rfl

theorem contains_parts {cs : List Char} (h : ∀ c ∈ cs, c ∈ partChars) :
    (cs.map byteOf).contains 63 = cs.contains '?' := by
  induction cs with
  | nil => rfl
  | cons c cs ih =>
      have hc := (partChar_byte (h c List.mem_cons_self)).2.2.2
      rw [List.map_cons, List.contains_cons, List.contains_cons,
        ih fun d hd ↦ h d (List.mem_cons_of_mem c hd), BEq.comm, hc, BEq.comm]

namespace PgnDate

theorem year_parts (p : PgnDate) : ∀ c ∈ p.year, c ∈ partChars := by
  intro c hc
  apply p.parts c
  simp only [year, List.mem_cons, List.not_mem_nil, or_false] at hc ⊢
  tauto

theorem month_parts (p : PgnDate) : ∀ c ∈ p.month, c ∈ partChars := by
  intro c hc
  apply p.parts c
  simp only [month, List.mem_cons, List.not_mem_nil, or_false] at hc ⊢
  tauto

theorem day_parts (p : PgnDate) : ∀ c ∈ p.day, c ∈ partChars := by
  intro c hc
  apply p.parts c
  simp only [day, List.mem_cons, List.not_mem_nil, or_false] at hc ⊢
  tauto

theorem encode_text (p : PgnDate) :
    Utf8.encode p.text =
      [byteOf p.y₁, byteOf p.y₂, byteOf p.y₃, byteOf p.y₄, 46, byteOf p.m₁, byteOf p.m₂, 46,
        byteOf p.d₁, byteOf p.d₂] := by
  have hdot : Utf8.encode ['.'] = [46] := by decide
  rw [text]
  simp only [Utf8.encode_append, hdot, encode_parts p.year_parts, encode_parts p.month_parts,
    encode_parts p.day_parts]
  rfl

theorem isPgnDate_text (p : PgnDate) : isPgnDate (Utf8.encode p.text) = true := by
  have hpart : ∀ c ∈ [p.y₁, p.y₂, p.y₃, p.y₄, p.m₁, p.m₂, p.d₁, p.d₂],
      isDatePart (byteOf c) = true := fun c hc ↦ (partChar_byte (p.parts c hc)).2.1
  simp only [List.forall_mem_cons] at hpart
  rw [encode_text]
  simp [isPgnDate, hpart]

theorem glob_text (p : PgnDate) : glob datePattern p.text = true := by
  have hpart : ∀ c ∈ [p.y₁, p.y₂, p.y₃, p.y₄, p.m₁, p.m₂, p.d₁, p.d₂],
      datePart.accepts c = true := fun c hc ↦ (partChar_byte (p.parts c hc)).2.2.1
  simp only [List.forall_mem_cons] at hpart
  have hdot : (GlobItem.char '.').accepts '.' = true := by decide
  simp [text, year, month, day, datePattern, glob, hpart, hdot]

end PgnDate

theorem exists_pgnDate_of_glob {date : List Char} (h : glob datePattern date = true) :
    ∃ p : PgnDate, date = p.text := by
  rcases date with _ | ⟨y₁, _ | ⟨y₂, _ | ⟨y₃, _ | ⟨y₄, _ | ⟨dot, _ | ⟨m₁, _ | ⟨m₂, _ | ⟨dot', _ |
    ⟨d₁, _ | ⟨d₂, _ | ⟨c, rest⟩⟩⟩⟩⟩⟩⟩⟩⟩⟩⟩
  all_goals simp only [datePattern, glob, Bool.and_false, Bool.false_eq_true] at h
  simp only [Bool.and_eq_true, Bool.and_true] at h
  obtain ⟨hy₁, hy₂, hy₃, hy₄, hdot, hm₁, hm₂, hdot', hd₁, hd₂⟩ := h
  rw [GlobItem.accepts, beq_iff_eq] at hdot hdot'
  subst hdot hdot'
  refine ⟨⟨y₁, y₂, y₃, y₄, m₁, m₂, d₁, d₂, ?_⟩, rfl⟩
  simp only [List.forall_mem_cons]
  exact ⟨mem_partChars_of_accepts hy₁, mem_partChars_of_accepts hy₂,
    mem_partChars_of_accepts hy₃, mem_partChars_of_accepts hy₄, mem_partChars_of_accepts hm₁,
    mem_partChars_of_accepts hm₂, mem_partChars_of_accepts hd₁, mem_partChars_of_accepts hd₂,
    fun c hc ↦ by cases hc⟩

theorem exists_pgnDate_of_isPgnDate {date : List Char}
    (h : isPgnDate (Utf8.encode date) = true) :
    ∃ p : PgnDate, date = p.text := by
  generalize hbytes : Utf8.encode date = bytes at h
  rcases bytes with _ | ⟨y₁, _ | ⟨y₂, _ | ⟨y₃, _ | ⟨y₄, _ | ⟨dot, _ | ⟨m₁, _ | ⟨m₂, _ | ⟨dot', _ |
    ⟨d₁, _ | ⟨d₂, _ | ⟨c, rest⟩⟩⟩⟩⟩⟩⟩⟩⟩⟩⟩
  all_goals simp [isPgnDate] at h
  obtain ⟨hy₁, hy₂, hy₃, hy₄, rfl, hm₁, hm₂, rfl, hd₁, hd₂⟩ := h
  obtain ⟨hy₁, hy₁'⟩ := mem_partChars_of_isDatePart hy₁
  obtain ⟨hy₂, hy₂'⟩ := mem_partChars_of_isDatePart hy₂
  obtain ⟨hy₃, hy₃'⟩ := mem_partChars_of_isDatePart hy₃
  obtain ⟨hy₄, hy₄'⟩ := mem_partChars_of_isDatePart hy₄
  obtain ⟨hm₁, hm₁'⟩ := mem_partChars_of_isDatePart hm₁
  obtain ⟨hm₂, hm₂'⟩ := mem_partChars_of_isDatePart hm₂
  obtain ⟨hd₁, hd₁'⟩ := mem_partChars_of_isDatePart hd₁
  obtain ⟨hd₂, hd₂'⟩ := mem_partChars_of_isDatePart hd₂
  obtain ⟨t₀, rfl, ht₀⟩ := Utf8.eq_cons_of_encode_eq_ascii hy₁ hbytes
  obtain ⟨t₁, rfl, ht₁⟩ := Utf8.eq_cons_of_encode_eq_ascii hy₂ ht₀
  obtain ⟨t₂, rfl, ht₂⟩ := Utf8.eq_cons_of_encode_eq_ascii hy₃ ht₁
  obtain ⟨t₃, rfl, ht₃⟩ := Utf8.eq_cons_of_encode_eq_ascii hy₄ ht₂
  obtain ⟨t₄, rfl, ht₄⟩ := Utf8.eq_cons_of_encode_eq_ascii (by decide) ht₃
  obtain ⟨t₅, rfl, ht₅⟩ := Utf8.eq_cons_of_encode_eq_ascii hm₁ ht₄
  obtain ⟨t₆, rfl, ht₆⟩ := Utf8.eq_cons_of_encode_eq_ascii hm₂ ht₅
  obtain ⟨t₇, rfl, ht₇⟩ := Utf8.eq_cons_of_encode_eq_ascii (by decide) ht₆
  obtain ⟨t₈, rfl, ht₈⟩ := Utf8.eq_cons_of_encode_eq_ascii hd₁ ht₇
  obtain ⟨t₉, rfl, ht₉⟩ := Utf8.eq_cons_of_encode_eq_ascii hd₂ ht₈
  have hnil : t₉ = [] := Utf8.encode_injective ht₉
  subst hnil
  refine ⟨⟨_, _, _, _, _, _, _, _, ?_⟩, rfl⟩
  simp only [List.forall_mem_cons]
  exact ⟨hy₁', hy₂', hy₃', hy₄', hm₁', hm₂', hd₁', hd₂', fun c hc ↦ by cases hc⟩

/-- Both filters recognise the same dates. -/
theorem isPgnDate_iff (date : List Char) :
    isPgnDate (Utf8.encode date) =
      ((Utf8.encode date).length == 10 && glob datePattern date) := by
  rw [Bool.eq_iff_iff]
  constructor
  · intro h
    obtain ⟨p, rfl⟩ := exists_pgnDate_of_isPgnDate h
    rw [p.glob_text, p.encode_text]
    rfl
  · intro h
    rw [Bool.and_eq_true] at h
    obtain ⟨p, rfl⟩ := exists_pgnDate_of_glob h.2
    exact p.isPgnDate_text

/-! ## The endpoints -/

/-- The number of a month whose digits are both known. -/
def validMonth (m₁ m₂ : Char) : Option ℕ :=
  if (textLe "01".toList [m₁, m₂] && textLe [m₁, m₂] "12".toList) &&
      (m₁.isDigit && m₂.isDigit) then
    some (numeral [m₁, m₂])
  else none

def monthAgrees (m₁ m₂ : Char) : Bool :=
  ([asciiBytes "04", asciiBytes "06", asciiBytes "09", asciiBytes "11"].contains
      [byteOf m₁, byteOf m₂] ==
    [some 4, some 6, some 9, some 11].contains (validMonth m₁ m₂)) &&
    (([byteOf m₁, byteOf m₂] == asciiBytes "02") == (validMonth m₁ m₂ == some 2)) &&
    (validMonth m₁ m₂).all fun n ↦ 1 ≤ n && n ≤ 12

theorem monthAgrees_of_parts {m₁ m₂ : Char} (h₁ : m₁ ∈ partChars) (h₂ : m₂ ∈ partChars) :
    monthAgrees m₁ m₂ = true := by
  have hall : (partChars.all fun c ↦ partChars.all fun d ↦ monthAgrees c d) = true := by
    decide
  exact List.all_eq_true.mp (List.all_eq_true.mp hall m₁ h₁) m₂ h₂

def twoDigits (n : ℕ) : List Char := [Char.ofNat (48 + n / 10), Char.ofNat (48 + n % 10)]

theorem lastDay_of_parts {m₁ m₂ : Char} (h₁ : m₁ ∈ partChars) (h₂ : m₂ ∈ partChars)
    (year : ℕ) :
    lastDay year [byteOf m₁, byteOf m₂] =
      Utf8.encode
        (((validMonth m₁ m₂).map fun n ↦ twoDigits (daysInMonth year n)).getD "31".toList) := by
  have hagrees := monthAgrees_of_parts h₁ h₂
  simp only [monthAgrees, Bool.and_eq_true, beq_iff_eq] at hagrees
  obtain ⟨⟨hthirty, hfebruary⟩, -⟩ := hagrees
  rw [lastDay, hthirty, hfebruary]
  cases hmonth : validMonth m₁ m₂ with
  | none => rfl
  | some n =>
      rw [Option.map_some, Option.getD_some, daysInMonth]
      by_cases hn : n = 4 ∨ n = 6 ∨ n = 9 ∨ n = 11
      · have hcontains : [some 4, some 6, some 9, some 11].contains (some n) = true := by
          simpa using hn
        rw [hcontains, if_pos rfl, if_pos hn]
        decide
      · have hcontains : [some 4, some 6, some 9, some 11].contains (some n) = false := by
          simpa using hn
        rw [hcontains, if_neg (by decide), if_neg hn]
        by_cases htwo : n = 2
        · rw [htwo, if_pos rfl]
          cases isLeapYear year <;> decide
        · have hne : (some n == some 2) = false := by simpa using htwo
          rw [hne, if_neg (by decide), if_neg htwo]
          decide

theorem daysInMonth_bounds (year month : ℕ) :
    28 ≤ daysInMonth year month ∧ daysInMonth year month ≤ 31 := by
  rw [daysInMonth]
  split_ifs <;> omega

/-- The day before the first of the next month is the last of the month. -/
theorem previousDay_nextMonth {year month : ℕ} (hyear : year ≤ 9999) (hlow : 1 ≤ month)
    (hhigh : month ≤ 12) :
    (((Date.mk year month 1).nextMonth).bind Date.previousDay).getD ⟨year, month, 31⟩ =
      ⟨year, month, daysInMonth year month⟩ := by
  have hnext : ∀ y m, ¬ 1 > daysInMonth y m := by
    intro y m
    have hbounds := daysInMonth_bounds y m
    omega
  by_cases hdecember : month = 12
  · subst hdecember
    have hdays : daysInMonth year 12 = 31 := by rw [daysInMonth]; rfl
    simp only [Date.nextMonth, if_true, if_neg (hnext _ _), hdays]
    by_cases hlast : year + 1 > 9999
    · rw [if_pos hlast]
      rfl
    · rw [if_neg hlast]
      simp [Date.previousDay]
  · have hlast : ¬ year > 9999 := by omega
    have hlater : month + 1 > 1 := by omega
    simp only [Date.nextMonth, if_neg hdecember, if_neg (hnext _ _), if_neg hlast,
      Option.bind_some, Date.previousDay, if_pos hlater, gt_iff_lt, lt_irrefl, if_false,
      Option.getD_some, Nat.add_sub_cancel]

theorem numeral_lt {digits : List Char} (h : ∀ c ∈ digits, c.isDigit = true) :
    numeral digits < 10 ^ digits.length := by
  have hfold : ∀ n k, n < 10 ^ k →
      digits.foldl (fun n c ↦ n * 10 + (c.toNat - 48)) n < 10 ^ (k + digits.length) := by
    induction digits with
    | nil => exact fun n k hn ↦ hn
    | cons c cs ih =>
        intro n k hn
        have hdigit : c.toNat ≤ 57 := by
          have hc := h c List.mem_cons_self
          rw [Char.isDigit, Bool.and_eq_true, decide_eq_true_eq, decide_eq_true_eq] at hc
          exact hc.2
        have hstep : n * 10 + (c.toNat - 48) < 10 ^ (k + 1) := by
          rw [pow_succ]
          omega
        have hrest := ih (fun d hd ↦ h d (List.mem_cons_of_mem c hd)) _ _ hstep
        rw [List.foldl_cons, List.length_cons, show k + (cs.length + 1) = k + 1 + cs.length by omega]
        exact hrest
  have hzero := hfold 0 0 (by decide)
  rw [Nat.zero_add] at hzero
  exact hzero

/-- The last day the expression computes for a month in its range. -/
theorem monthEnd_of_digits {y₁ y₂ y₃ y₄ m₁ m₂ : Char}
    (hyear : ∀ c ∈ [y₁, y₂, y₃, y₄], c.isDigit = true) (hm₁ : m₁.isDigit = true)
    (hm₂ : m₂.isDigit = true) (hlow : 1 ≤ numeral [m₁, m₂]) (hhigh : numeral [m₁, m₂] ≤ 12) :
    (monthEnd [y₁, y₂, y₃, y₄, '-', m₁, m₂, '-', '0', '1']).getD "31".toList =
      twoDigits (daysInMonth (numeral [y₁, y₂, y₃, y₄]) (numeral [m₁, m₂])) := by
  have hparse : parseDate [y₁, y₂, y₃, y₄, '-', m₁, m₂, '-', '0', '1'] =
      some ⟨numeral [y₁, y₂, y₃, y₄], numeral [m₁, m₂], 1⟩ := by
    simp only [List.forall_mem_cons] at hyear
    have hone : numeral ['0', '1'] = 1 := by decide
    have hchecks : (parseDateOk [y₁, y₂, y₃, y₄, '-', m₁, m₂, '-', '0', '1']) = true := by
      simp [parseDateOk, substr, hyear, hm₁, hm₂, hlow, hhigh, hone]
    rw [parseDate, if_pos hchecks]
    change some (Date.mk _ _ (numeral ['0', '1'])) = _
    rw [hone]
    rfl
  have hlt := numeral_lt hyear
  have hbound : numeral [y₁, y₂, y₃, y₄] ≤ 9999 := by
    change numeral [y₁, y₂, y₃, y₄] < 10 ^ 4 at hlt
    omega
  have hlast := previousDay_nextMonth hbound hlow hhigh
  rw [monthEnd, hparse, Option.bind_some]
  cases hend : (Date.mk (numeral [y₁, y₂, y₃, y₄]) (numeral [m₁, m₂]) 1).nextMonth.bind
      Date.previousDay with
  | none =>
      rw [hend, Option.getD_none, Date.mk.injEq] at hlast
      rw [← hlast.2.2]
      rfl
  | some d =>
      rw [hend, Option.getD_some] at hlast
      rw [hlast]
      rfl

theorem isDigit_of_part {c : Char} (h : c ∈ partChars) (hknown : (c == '?') = false) :
    c.isDigit = true := by
  rw [mem_partChars_iff] at h
  rcases h with rfl | rfl | rfl | rfl | rfl | rfl | rfl | rfl | rfl | rfl | rfl
  all_goals first | decide | cases hknown

namespace PgnDate

theorem year_isDigit (p : PgnDate) (hknown : p.year.contains '?' = false) :
    ∀ c ∈ p.year, c.isDigit = true := by
  intro c hc
  apply isDigit_of_part (p.year_parts c hc)
  rw [beq_eq_false_iff_ne]
  rintro rfl
  rw [List.contains_iff_mem.mpr hc] at hknown
  cases hknown

/-- The last day of the month, as the expression has it, is the one the index
filter looks up. -/
theorem lastDay_eq (p : PgnDate) (hknown : p.year.contains '?' = false) :
    lastDay (numeral p.year) (p.month.map byteOf) =
      Utf8.encode
        (if textLe "01".toList p.month && textLe p.month "12".toList then
          (monthEnd (p.year ++ "-".toList ++ p.month ++ "-01".toList)).getD "31".toList
        else "31".toList) := by
  have hm₁ : p.m₁ ∈ partChars := p.month_parts _ (by simp [month])
  have hm₂ : p.m₂ ∈ partChars := p.month_parts _ (by simp [month])
  have hmonth : p.month.map byteOf = [byteOf p.m₁, byteOf p.m₂] := rfl
  rw [hmonth, lastDay_of_parts hm₁ hm₂]
  congr 1
  by_cases hbetween : (textLe "01".toList p.month && textLe p.month "12".toList) = true
  · rw [if_pos hbetween]
    by_cases hdigits : (p.m₁.isDigit && p.m₂.isDigit) = true
    · have hvalid : validMonth p.m₁ p.m₂ = some (numeral p.month) :=
        if_pos (by rw [Bool.and_eq_true]; exact ⟨hbetween, hdigits⟩)
      have hagrees := monthAgrees_of_parts hm₁ hm₂
      simp only [monthAgrees, hvalid, Bool.and_eq_true, Option.all_some, decide_eq_true_eq]
        at hagrees
      rw [Bool.and_eq_true] at hdigits
      have hend := monthEnd_of_digits (p.year_isDigit hknown) hdigits.1 hdigits.2
        hagrees.2.1 hagrees.2.2
      rw [hvalid, Option.map_some, Option.getD_some]
      exact hend.symm
    · have hvalid : validMonth p.m₁ p.m₂ = none :=
        if_neg fun h ↦ hdigits ((Bool.and_eq_true _ _ ▸ h).2)
      have hparse : parseDate (p.year ++ "-".toList ++ p.month ++ "-01".toList) = none := by
        apply if_neg
        intro hok
        simp [parseDateOk, substr, year, month] at hok
        apply hdigits
        simp [hok]
      rw [hvalid, monthEnd, hparse]
      rfl
  · have hvalid : validMonth p.m₁ p.m₂ = none :=
      if_neg fun h ↦ hbetween ((Bool.and_eq_true _ _ ▸ h).1)
    rw [if_neg hbetween, hvalid]
    rfl

theorem encode_text_append (p : PgnDate) :
    Utf8.encode p.text =
      (p.year.map byteOf ++ [46]) ++ p.month.map byteOf ++ ([46] ++ p.day.map byteOf) :=
  p.encode_text

theorem yearOf_text (p : PgnDate) :
    yearOf (Utf8.encode p.text) = numeral p.year := by
  have hdigit : ∀ c ∈ p.year, (byteOf c - 48).toNat = c.toNat - 48 := by
    intro c hc
    have hmem := p.year_parts c hc
    rw [mem_partChars_iff] at hmem
    rcases hmem with rfl | rfl | rfl | rfl | rfl | rfl | rfl | rfl | rfl | rfl | rfl <;> decide
  have hslice : slice (Utf8.encode p.text) 0 4 = p.year.map byteOf := by
    rw [encode_text]
    rfl
  rw [yearOf, hslice, List.foldl_map, numeral]
  apply List.foldl_ext
  intro n c hc
  rw [hdigit c hc]

theorem encode_monthSql (p : PgnDate) (latest : Bool) :
    Utf8.encode (monthSql latest p.text) =
      if (p.month.map byteOf).contains 63 then
        if latest then asciiBytes "12" else asciiBytes "01"
      else p.month.map byteOf := by
  have hmonth : substr p.text 6 2 = p.month := rfl
  rw [monthSql, hmonth, contains_parts p.month_parts]
  cases p.month.contains '?' with
  | true => cases latest <;> rfl
  | false => exact encode_parts p.month_parts

theorem encode_daySql (p : PgnDate) (hknown : p.year.contains '?' = false) (latest : Bool) :
    Utf8.encode (daySql latest p.text) =
      if (p.day.map byteOf).contains 63 then
        if latest then lastDay (numeral p.year) (p.month.map byteOf) else asciiBytes "01"
      else p.day.map byteOf := by
  have hyear : substr p.text 1 4 = p.year := rfl
  have hmonth : substr p.text 6 2 = p.month := rfl
  have hday : substr p.text 9 2 = p.day := rfl
  rw [daySql, hyear, hmonth, hday, contains_parts p.day_parts]
  cases p.day.contains '?' with
  | false => exact encode_parts p.day_parts
  | true =>
      rw [if_pos rfl, if_pos rfl]
      cases latest with
      | false => rfl
      | true =>
          rw [if_pos rfl, p.lastDay_eq hknown]
          cases textLe "01".toList p.month && textLe p.month "12".toList <;> rfl

theorem copyInto_append (front part part' back : List UInt8)
    (h : part'.length = part.length) :
    copyInto (front ++ part ++ back) front.length part' = front ++ part' ++ back := by
  have htake : (front ++ part ++ back).take front.length = front := by
    rw [List.append_assoc, List.take_left]
  rw [copyInto, htake, h, ← List.length_append, List.drop_left]

/-- Both filters compute the same end of the interval. -/
theorem encode_endpointSql (p : PgnDate) (hknown : p.year.contains '?' = false)
    (latest : Bool) :
    ∃ e, dateIntervalEndpointSql latest (some p.text) = some e ∧
      Utf8.encode e = endpoint latest (Utf8.encode p.text) := by
  have hlength : (Utf8.encode p.text).length == 10 := by rw [encode_text]; rfl
  have hyear : substr p.text 1 4 = p.year := rfl
  refine ⟨p.year ++ ['.'] ++ monthSql latest p.text ++ ['.'] ++ daySql latest p.text, ?_, ?_⟩
  · rw [dateIntervalEndpointSql, hlength, p.glob_text, Bool.and_true, if_pos rfl, hyear, hknown,
      if_neg (by decide)]
  · have hdot : Utf8.encode ['.'] = [46] := by decide
    have hmonth : slice (Utf8.encode p.text) 5 7 = p.month.map byteOf := by
      rw [encode_text]
      rfl
    have hday : slice (Utf8.encode p.text) 8 10 = p.day.map byteOf := by
      rw [encode_text]
      rfl
    have hlast : (lastDay (numeral p.year) (p.month.map byteOf)).length = 2 := by
      rw [lastDay]
      split_ifs <;> rfl
    have hnewMonth : ∀ month : List UInt8, month.length = 2 →
        copyInto (Utf8.encode p.text) 5 month =
          p.year.map byteOf ++ [46] ++ month ++ ([46] ++ p.day.map byteOf) := by
      intro month hlen
      rw [encode_text_append]
      exact copyInto_append (p.year.map byteOf ++ [46]) _ _ _ (by rw [hlen]; rfl)
    have hnewDay : ∀ month day : List UInt8, month.length = 2 → day.length = 2 →
        copyInto (p.year.map byteOf ++ [46] ++ month ++ ([46] ++ p.day.map byteOf)) 8 day =
          p.year.map byteOf ++ [46] ++ month ++ ([46] ++ day) := by
      intro month day hlen hlen'
      have hcopy := copyInto_append (p.year.map byteOf ++ [46] ++ month ++ [46])
        (p.day.map byteOf) day [] (by rw [hlen']; rfl)
      have hfront : (p.year.map byteOf ++ [46] ++ month ++ [46]).length = 8 := by
        simp only [List.length_append, hlen]
        rfl
      rw [hfront] at hcopy
      simpa only [List.append_assoc, List.append_nil] using hcopy
    have hdate : ∀ month day : List UInt8,
        p.year.map byteOf ++ [46] ++ month ++ [46] ++ day =
          p.year.map byteOf ++ [46] ++ month ++ ([46] ++ day) := by
      intro month day
      rw [List.append_assoc _ [46] day]
    simp only [Utf8.encode_append, hdot, encode_parts p.year_parts, encode_monthSql,
      encode_daySql p hknown, hdate]
    rw [endpoint, hmonth, hday, yearOf_text]
    have htwelve : (if latest then asciiBytes "12" else asciiBytes "01").length = 2 := by
      cases latest <;> rfl
    have hday' : (if latest then lastDay (numeral p.year) (p.month.map byteOf)
        else asciiBytes "01").length = 2 := by
      cases latest with
      | true => exact hlast
      | false => rfl
    by_cases hm : (p.month.map byteOf).contains 63 = true
    · rw [if_pos hm, if_pos hm, hnewMonth _ htwelve]
      by_cases hd : (p.day.map byteOf).contains 63 = true
      · rw [if_pos hd, if_pos hd, hnewDay _ _ htwelve hday']
      · rw [if_neg hd, if_neg hd]
    · rw [if_neg hm, if_neg hm]
      by_cases hd : (p.day.map byteOf).contains 63 = true
      · rw [if_pos hd, if_pos hd, encode_text_append, hnewDay _ _ rfl hday']
      · rw [if_neg hd, if_neg hd, encode_text_append]

end PgnDate

/-- Without an interval, a date is selected only by a query with no bounds. -/
theorem selectsDate_of_none {start stop date : Option (List Char)}
    (h : ∀ latest, dateIntervalEndpointSql latest date = none) :
    selectsDate start stop date = (start.isNone && stop.isNone) := by
  rw [selectsDate, h, h]
  cases start <;> cases stop <;> rfl

theorem selectsDate_of_some {start stop date : Option (List Char)} {first last : List Char}
    (hfirst : dateIntervalEndpointSql false date = some first)
    (hlast : dateIntervalEndpointSql true date = some last) :
    selectsDate start stop date = (start.all (textLe · first) && stop.all (textLe last ·)) := by
  rw [selectsDate, hfirst, hlast]
  rfl

theorem dateIntervalEndpointSql_of_other {date : List Char}
    (h : isPgnDate (Utf8.encode date) = false) (latest : Bool) :
    dateIntervalEndpointSql latest (some date) = some date := by
  rw [isPgnDate_iff] at h
  rw [dateIntervalEndpointSql, h, if_neg (by decide)]

theorem dateIntervalEndpointSql_of_unknown_year {p : PgnDate}
    (h : p.year.contains '?' = true) (latest : Bool) :
    dateIntervalEndpointSql latest (some p.text) = none := by
  have hshape := isPgnDate_iff p.text
  rw [p.isPgnDate_text] at hshape
  have hyear : substr p.text 1 4 = p.year := rfl
  rw [dateIntervalEndpointSql, ← hshape, if_pos rfl, hyear, if_pos h]

/-- The filter of the search index accepts a stored date exactly when the query
for the game list selects it, for every date and all bounds. -/
theorem matchesDate_eq_selectsDate
    (date start stop : Option (List Char)) :
    matchesDate date start stop = selectsDate start stop date := by
  unfold matchesDate
  by_cases hbounds : (start.isNone && stop.isNone) = true
  · rw [if_pos hbounds]
    rw [Bool.and_eq_true, Option.isNone_iff_eq_none, Option.isNone_iff_eq_none] at hbounds
    obtain ⟨rfl, rfl⟩ := hbounds
    rfl
  · rw [if_neg hbounds]
    rw [Bool.not_eq_true] at hbounds
    cases date with
    | none => rw [selectsDate_of_none (fun _ ↦ rfl), hbounds]
    | some date =>
        by_cases hshape : isPgnDate (Utf8.encode date) = true
        · obtain ⟨p, rfl⟩ := exists_pgnDate_of_isPgnDate hshape
          have hslice : slice (Utf8.encode p.text) 0 4 = p.year.map byteOf := by
            rw [p.encode_text]
            rfl
          simp only [hshape, Bool.not_true, Bool.false_eq_true, if_false, hslice,
            contains_parts p.year_parts]
          cases hknown : p.year.contains '?' with
          | true =>
              rw [selectsDate_of_none (dateIntervalEndpointSql_of_unknown_year hknown), hbounds]
              rfl
          | false =>
              obtain ⟨first, hfirst, hfirst'⟩ := p.encode_endpointSql hknown false
              obtain ⟨last, hlast, hlast'⟩ := p.encode_endpointSql hknown true
              rw [selectsDate_of_some hfirst hlast, ← hfirst', ← hlast']
              rfl
        · rw [Bool.not_eq_true] at hshape
          have hself := dateIntervalEndpointSql_of_other hshape
          rw [selectsDate_of_some (hself false) (hself true)]
          simp only [hshape, Bool.not_false, if_true]

example : matchesDate (some "2024.02.??".toList) none (some "2024.02.29".toList) = true := by
  decide

example : selectsDate none (some "2024.02.28".toList) (some "2024.02.??".toList) = false := by
  decide

end EnCroissant
