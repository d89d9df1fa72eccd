import EnCroissant.Game.Controller
import EnCroissant.Library.Utf8Boundaries
import EnCroissant.Pgn.Scan

/-!
# Diagnostics of a failed engine

Before the last lines of an engine are shown, credentials and paths are taken out of
them.  The scanner walks over the bytes of the text and slices it as it goes; a slice
that does not lie between two characters, or a step that does not advance, would be an
error, and neither happens.
-/

namespace EnCroissant.Engine

open Utf8 (isBoundary charLen)

/-- The bytes of a text of the source. -/
def bytesOf (text : String) : List UInt8 := Utf8.encode text.toList

/-! ## Quoted tokens -/

structure TerminalQuotedToken where
  quote : UInt8
  start : ℕ
  close : Option ℕ
  stop : ℕ
  deriving DecidableEq, Repr

/-- A quote at the front after some backslashes: the quote, their number, and the length of
both. -/
def delimiter (bytes : List UInt8) : Option (UInt8 × ℕ × ℕ) :=
  let depth := (bytes.takeWhile (· = 92)).length
  match bytes[depth]? with
  | some quote => if quote = 39 || quote = 34 then some (quote, depth, depth + 1) else none
  | none => none

/-- The first delimiter with this quote and depth; the cursor passes over other delimiters. -/
def closingDelimiter (quote : UInt8) (depth : ℕ) : ℕ → ℕ → List UInt8 → Option (ℕ × ℕ)
  | _, _, [] => none
  | skip + 1, cursor, _ :: rest => closingDelimiter quote depth skip (cursor + 1) rest
  | 0, cursor, b :: rest =>
      match delimiter (b :: rest) with
      | some (candidate, escapes, length) =>
          if candidate = quote && escapes = depth then some (cursor, cursor + length)
          else closingDelimiter quote depth (length - 1) (cursor + 1) rest
      | none => closingDelimiter quote depth 0 (cursor + 1) rest

def terminalQuotedToken (text : List UInt8) (index : ℕ) : Option TerminalQuotedToken :=
  match delimiter (text.drop index) with
  | none => none
  | some (quote, depth, length) =>
      match closingDelimiter quote depth 0 (index + length) (text.drop (index + length)) with
      | some (close, stop) => some ⟨quote, index + length, some close, stop⟩
      | none => some ⟨quote, index + length, none, text.length⟩

/-! ## Credentials -/

def isAsciiAlphanumeric (b : UInt8) : Bool :=
  (48 ≤ b && b ≤ 57) || (65 ≤ b && b ≤ 90) || (97 ≤ b && b ≤ 122)

def isKeyByte (b : UInt8) : Bool := isAsciiAlphanumeric b || b = 95 || b = 45

def isAsciiWhitespace (b : UInt8) : Bool := b = 9 || b = 10 || b = 12 || b = 13 || b = 32

def toAsciiLower (b : UInt8) : UInt8 := if 65 ≤ b && b ≤ 90 then b + 32 else b

def secretSuffixes : List (List UInt8) :=
  ["token", "secret", "password", "passwd", "apikey", "api_key", "api-key"].map bytesOf

/-- Whether a key in lower case announces a credential, `bearer` apart. -/
def isSecretKey (key : List UInt8) : Bool :=
  key = bytesOf "authorization" || secretSuffixes.any (·.isSuffixOf key)

/-- The place after a run of bytes. -/
def skipWhile (test : UInt8 → Bool) (text : List UInt8) (index : ℕ) : ℕ :=
  index + ((text.drop index).takeWhile test).length

/-- `&text[start..stop]`, where both are character boundaries. -/
def slice (text : List UInt8) (start stop : ℕ) : Option (List UInt8) :=
  if start ≤ stop && stop ≤ text.length && isBoundary text start && isBoundary text stop then
    some ((text.take stop).drop start)
  else none

/-- The value of a credential: its quotes' content, or all that is left of the text. -/
def secretValue (text : List UInt8) (index : ℕ) : ℕ × ℕ × ℕ :=
  match terminalQuotedToken text index with
  | some value => (value.start, value.close.getD text.length, value.stop)
  | none => (index, text.length, text.length)

/-- Where the value begins behind a key that ends at `index`, if one is announced. -/
def secretStart (text : List UInt8) (keyEnd index : ℕ) (bearer : Bool) : Option ℕ :=
  let index := skipWhile isAsciiWhitespace text index
  if bearer then
    if index = keyEnd then none else some index
  else
    match text[index]? with
    | some b =>
        if b = 61 || b = 58 then some (skipWhile isAsciiWhitespace text (index + 1)) else none
    | none => none

/-- The ends of a possible key at the front, and the place behind it. -/
def secretKey (text : List UInt8) (quoted : Option TerminalQuotedToken) : Option (ℕ × ℕ × ℕ) :=
  match quoted with
  | some token => token.close.map fun close ↦ (token.start, close, token.stop)
  | none => some (0, skipWhile isKeyByte text 0, skipWhile isKeyByte text 0)

/-- A credential at the front: the ends of its value and where the scan goes on.  Fails
where a slice does. -/
def terminalSecret (text : List UInt8) (quoted : Option TerminalQuotedToken) :
    Option (Option (ℕ × ℕ × ℕ)) :=
  match secretKey text quoted with
  | none => some none
  | some (keyStart, keyEnd, index) =>
      match slice text keyStart keyEnd with
      | none => none
      | some key =>
          let key := key.map toAsciiLower
          let bearer := key = bytesOf "bearer"
          if !key.all isKeyByte then some none
          else if !bearer && !isSecretKey key then some none
          else some ((secretStart text keyEnd index bearer).map (secretValue text))

/-! ## The scanner -/

def pathStarts : List (List UInt8) :=
  ["/", "\\\\", "~/", "~\\", "./", "../", ".\\", "..\\"].map bytesOf

/-- The drive of a path with a letter for it. -/
def startsDrive : List UInt8 → Bool
  | drive :: colon :: slash :: _ =>
      ((65 ≤ drive && drive ≤ 90) || (97 ≤ drive && drive ≤ 122)) && colon = 58 &&
        (slash = 47 || slash = 92)
  | _ => false

/-- Where a path begins. -/
def startsPath (rest : List UInt8) : Bool :=
  pathStarts.any (·.isPrefixOf rest) || startsDrive rest

/-- Whether a path goes on: up to the quote it stands behind, and otherwise up to a blank or
a separator.  All blanks of the text are spaces by now. -/
def continuesPath (quote : Option UInt8) (b : UInt8) : Bool :=
  match quote with
  | some quote => b ≠ quote
  | none => !(b = 32 || b = 39 || b = 34 || b = 44 || b = 59 || b = 41)

def quoteBefore (previous : Option UInt8) : Option UInt8 :=
  previous.filter fun b ↦ b = 39 || b = 34

def chessBytes : List UInt8 := bytesOf "rnbqkpRNBQKP12345678"

/-- A draw or a board, which is copied whole. -/
def isChessToken (token : List UInt8) : Bool :=
  token = bytesOf "1/2-1/2" ||
    (47 ∈ token && token.all fun b ↦ b = 47 || b ∈ chessBytes)

inductive TerminalToken where
  | secret (start stop next : ℕ)
  | opening (next : ℕ)
  | path (next : ℕ)
  | chess (next : ℕ)
  | char (next : ℕ)
  deriving DecidableEq, Repr

def TerminalToken.next : TerminalToken → ℕ
  | secret _ _ next => next
  | opening next => next
  | path next => next
  | chess next => next
  | char next => next

/-- What stands at the front of the rest of the text, behind a byte.  Fails where a slice
does. -/
def terminalToken (previous : Option UInt8) (rest : List UInt8) : Option TerminalToken :=
  if !isBoundary rest 0 then none
  else
    let boundary := previous.all (!isAsciiAlphanumeric ·)
    let quoted := terminalQuotedToken rest 0
    match if boundary then terminalSecret rest quoted else some none with
    | none => none
    | some (some (start, stop, next)) => some (.secret start stop next)
    | some none =>
        match quoted.filter (·.quote = 34) with
        | some opening => some (.opening opening.start)
        | none =>
            if boundary && startsPath rest then
              some (.path (skipWhile (continuesPath (quoteBefore previous)) rest 0))
            else if boundary && rest.head?.any (· ∈ chessBytes) then
              match slice rest 0 (skipWhile (· ≠ 32) rest 0) with
              | none => none
              | some token =>
                  if isChessToken token then some (.chess token.length)
                  else some (.char (charLen rest))
            else some (.char (charLen rest))

/-- What is written for a token. -/
def TerminalToken.output (rest : List UInt8) : TerminalToken → Option (List UInt8)
  | secret start stop next => do
      let before ← slice rest 0 start
      let after ← slice rest stop next
      some (before ++ bytesOf "[redacted]" ++ after)
  | opening next => slice rest 0 next
  | path _ => some (bytesOf "[path]")
  | chess next => slice rest 0 next
  | char next => slice rest 0 next

/-- The byte before the rest, once a part of it is passed over. -/
def previousAfter (previous : Option UInt8) (rest : List UInt8) (next : ℕ) : Option UInt8 :=
  (rest.take next).getLast?.or previous

/-- The scan, which fails where a slice does and where it does not come to an end. -/
def scanTerminal : ℕ → Option UInt8 → List UInt8 → Option (List UInt8)
  | _, _, [] => some []
  | 0, _, _ :: _ => none
  | fuel + 1, previous, rest => do
      let token ← terminalToken previous rest
      let written ← token.output rest
      let later ←
        scanTerminal fuel (previousAfter previous rest token.next) (rest.drop token.next)
      some (written ++ later)

/-- Control characters and blanks become spaces. -/
def levelled (text : List Char) : List Char :=
  text.map fun c ↦ if isControl c || isWhitespace c then ' ' else c

def sanitizeTerminalText (text : List Char) : Option (List UInt8) :=
  let bytes := Utf8.encode (levelled text)
  scanTerminal bytes.length none bytes

/-! ## Every slice lies between two characters -/

/-- A place at which a text may be cut. -/
def Cut (text : List UInt8) (n : ℕ) : Prop := n ≤ text.length ∧ isBoundary text n = true

theorem cut_length (text : List UInt8) : Cut text text.length :=
  ⟨le_rfl, Utf8.isBoundary_length text⟩

theorem cut_of_ascii {text : List UInt8} {n : ℕ} {b : UInt8} (h : text[n]? = some b)
    (hb : b < 128) : Cut text n :=
  ⟨(List.getElem?_eq_some_iff.mp h).1.le, Utf8.isBoundary_of_ascii h hb⟩

theorem cut_zero (cs : List Char) : Cut (Utf8.encode cs) 0 := ⟨Nat.zero_le _, Utf8.isBoundary_zero cs⟩

theorem cut_succ {cs : List Char} {n : ℕ} {b : UInt8} (h : (Utf8.encode cs)[n]? = some b)
    (hb : b < 128) : Cut (Utf8.encode cs) (n + 1) :=
  ⟨(List.getElem?_eq_some_iff.mp h).1, Utf8.isBoundary_succ_of_ascii h hb⟩

theorem slice_eq_some {text : List UInt8} {start stop : ℕ} (hle : start ≤ stop)
    (hstart : Cut text start) (hstop : Cut text stop) :
    slice text start stop = some ((text.take stop).drop start) := by
  rw [slice, if_pos]
  rw [Bool.and_eq_true, Bool.and_eq_true, Bool.and_eq_true, decide_eq_true_eq, decide_eq_true_eq]
  exact ⟨⟨⟨hle, hstop.1⟩, hstart.2⟩, hstop.2⟩

theorem getElem?_of_takeWhile_length {test : UInt8 → Bool} {text : List UInt8} {n : ℕ}
    (h : n < (text.takeWhile test).length) : ∃ b, text[n]? = some b ∧ test b = true := by
  have hsame : (text.takeWhile test ++ text.dropWhile test)[n]? = (text.takeWhile test)[n]? :=
    List.getElem?_append_left h
  rw [List.takeWhile_append_dropWhile, List.getElem?_eq_getElem h] at hsame
  exact ⟨_, hsame, List.mem_takeWhile_imp (List.getElem_mem h)⟩

theorem skipWhile_le {test : UInt8 → Bool} {text : List UInt8} {index : ℕ}
    (h : index ≤ text.length) : skipWhile test text index ≤ text.length := by
  have hle : ((text.drop index).takeWhile test).length ≤ (text.drop index).length :=
    (List.takeWhile_prefix _).length_le
  rw [List.length_drop] at hle
  rw [skipWhile]
  omega

/-- The text may be cut after a run of ASCII bytes as well as before it. -/
theorem cut_skipWhile {test : UInt8 → Bool} (htest : ∀ b, test b = true → b < 128)
    {cs : List Char} {index : ℕ} (h : Cut (Utf8.encode cs) index) :
    Cut (Utf8.encode cs) (skipWhile test (Utf8.encode cs) index) := by
  rw [skipWhile]
  rcases Nat.eq_zero_or_pos
    (((Utf8.encode cs).drop index).takeWhile test).length with hzero | hpos
  · rwa [hzero, Nat.add_zero]
  · obtain ⟨n, hn⟩ := Nat.exists_eq_succ_of_ne_zero hpos.ne'
    have hlast : n < (((Utf8.encode cs).drop index).takeWhile test).length := by
      rw [hn]
      exact Nat.lt_succ_self n
    obtain ⟨b, hb, hholds⟩ := getElem?_of_takeWhile_length hlast
    rw [List.getElem?_drop] at hb
    rw [hn]
    exact cut_succ hb (htest b hholds)

theorem ascii_of_isKeyByte (b : UInt8) (h : isKeyByte b = true) : b < 128 := by
  simp only [isKeyByte, isAsciiAlphanumeric, Bool.or_eq_true, Bool.and_eq_true,
    decide_eq_true_eq, UInt8.le_iff_toNat_le, ← UInt8.toNat_inj] at h
  rw [UInt8.lt_iff_toNat_lt]
  simp only [UInt8.reduceToNat] at h ⊢
  omega

theorem ascii_of_isAsciiWhitespace (b : UInt8) (h : isAsciiWhitespace b = true) : b < 128 := by
  simp only [isAsciiWhitespace, Bool.or_eq_true, decide_eq_true_eq, ← UInt8.toNat_inj] at h
  rw [UInt8.lt_iff_toNat_lt]
  simp only [UInt8.reduceToNat] at h ⊢
  omega

/-! ### Quoted tokens -/

/-- What a delimiter is: backslashes and one of the two quotes. -/
structure IsDelimiter (bytes : List UInt8) (quote : UInt8) (depth : ℕ) : Prop where
  escapes : ∀ i < depth, bytes[i]? = some 92
  quoteAt : bytes[depth]? = some quote
  isQuote : quote = 39 ∨ quote = 34

theorem isDelimiter_of_delimiter {bytes : List UInt8} {quote : UInt8} {depth length : ℕ}
    (h : delimiter bytes = some (quote, depth, length)) :
    length = depth + 1 ∧ IsDelimiter bytes quote depth := by
  rw [delimiter] at h
  cases hquote : bytes[(bytes.takeWhile (· = 92)).length]? with
  | none =>
      simp only [hquote] at h
      cases h
  | some b =>
      simp only [hquote] at h
      split_ifs at h with hb
      cases h
      refine ⟨rfl, fun i hi ↦ ?_, hquote, by simpa using hb⟩
      obtain ⟨b', hb', h92⟩ := getElem?_of_takeWhile_length hi
      rw [hb', of_decide_eq_true h92]

theorem IsDelimiter.first {bytes : List UInt8} {quote : UInt8} {depth : ℕ}
    (h : IsDelimiter bytes quote depth) : ∃ b, bytes[0]? = some b ∧ b < 128 := by
  cases depth with
  | zero =>
      refine ⟨quote, h.quoteAt, ?_⟩
      rcases h.isQuote with rfl | rfl <;> decide
  | succ depth => exact ⟨92, h.escapes 0 (Nat.succ_pos depth), by decide⟩

theorem IsDelimiter.ascii {bytes : List UInt8} {quote : UInt8} {depth : ℕ}
    (h : IsDelimiter bytes quote depth) : quote < 128 := by
  rcases h.isQuote with rfl | rfl <;> decide

theorem closingDelimiter_spec {quote : UInt8} {depth : ℕ} {bytes : List UInt8} :
    ∀ {skip cursor close stop : ℕ},
      closingDelimiter quote depth skip cursor bytes = some (close, stop) →
        ∃ i, close = cursor + i ∧ stop = cursor + i + depth + 1 ∧
          IsDelimiter (bytes.drop i) quote depth := by
  induction bytes with
  | nil =>
      intro skip cursor close stop h
      cases skip <;> cases h
  | cons b rest ih =>
      intro skip cursor close stop h
      have hlater : ∀ {skip}, closingDelimiter quote depth skip (cursor + 1) rest =
          some (close, stop) → ∃ i, close = cursor + i ∧ stop = cursor + i + depth + 1 ∧
            IsDelimiter ((b :: rest).drop i) quote depth := by
        intro skip h
        obtain ⟨i, hclose, hstop, hdelimiter⟩ := ih h
        exact ⟨i + 1, by omega, by omega, hdelimiter⟩
      cases skip with
      | succ skip =>
          rw [closingDelimiter] at h
          exact hlater h
      | zero =>
          rw [closingDelimiter] at h
          cases hdelimiter : delimiter (b :: rest) with
          | none =>
              rw [hdelimiter] at h
              exact hlater h
          | some found =>
              obtain ⟨candidate, escapes, length⟩ := found
              rw [hdelimiter] at h
              simp only at h
              split_ifs at h with hmatch
              · rw [Bool.and_eq_true, decide_eq_true_eq, decide_eq_true_eq] at hmatch
                obtain ⟨rfl, rfl⟩ := hmatch
                obtain ⟨rfl, hfound⟩ := isDelimiter_of_delimiter hdelimiter
                cases h
                exact ⟨0, rfl, by omega, hfound⟩
              · exact hlater h

/-- The places of a quoted token are cuts, in order. -/
structure QuotedCuts (text : List UInt8) (index : ℕ) (token : TerminalQuotedToken) : Prop where
  after : index < token.start
  start : Cut text token.start
  close : ∀ close, token.close = some close → token.start ≤ close ∧ close < token.stop ∧
    Cut text close
  start_le : token.start ≤ token.stop
  stop : Cut text token.stop
  unclosed : token.close = none → token.stop = text.length

theorem quotedCuts_of_terminalQuotedToken {cs : List Char} {index : ℕ}
    {token : TerminalQuotedToken}
    (h : terminalQuotedToken (Utf8.encode cs) index = some token) :
    QuotedCuts (Utf8.encode cs) index token := by
  rw [terminalQuotedToken] at h
  cases hdelimiter : delimiter ((Utf8.encode cs).drop index) with
  | none =>
      rw [hdelimiter] at h
      cases h
  | some found =>
      obtain ⟨quote, depth, length⟩ := found
      obtain ⟨rfl, hopen⟩ := isDelimiter_of_delimiter hdelimiter
      have hquote := hopen.quoteAt
      rw [List.getElem?_drop] at hquote
      have hstart := cut_succ hquote hopen.ascii
      rw [hdelimiter] at h
      simp only at h
      cases hclosing : closingDelimiter quote depth 0 (index + (depth + 1))
          ((Utf8.encode cs).drop (index + (depth + 1))) with
      | none =>
          rw [hclosing] at h
          cases h
          exact ⟨by simp only; omega, hstart, fun _ hclose ↦ (Option.some_ne_none _ hclose.symm).elim,
            hstart.1, cut_length _, fun _ ↦ rfl⟩
      | some found =>
          obtain ⟨close, stop⟩ := found
          rw [hclosing] at h
          cases h
          obtain ⟨i, rfl, rfl, hfound⟩ := closingDelimiter_spec hclosing
          rw [List.drop_drop] at hfound
          obtain ⟨b, hb, hascii⟩ := hfound.first
          have hlast := hfound.quoteAt
          rw [List.getElem?_drop] at hb hlast
          refine ⟨by simp only; omega, hstart, fun close hclose ↦ ?_, by simp only; omega,
            cut_succ hlast hfound.ascii, fun hnone ↦ (Option.some_ne_none _ hnone).elim⟩
          cases hclose
          exact ⟨by simp only; omega, by simp only; omega, cut_of_ascii hb hascii⟩

/-! ### Credentials -/

structure SecretCuts (text : List UInt8) (secret : ℕ × ℕ × ℕ) : Prop where
  start : Cut text secret.1
  stop : Cut text secret.2.1
  next : Cut text secret.2.2
  le : secret.2.1 ≤ secret.2.2
  pos : 0 < secret.2.2

theorem secretCuts_secretValue {cs : List Char} {index : ℕ} (hne : Utf8.encode cs ≠ [])
    (h : Cut (Utf8.encode cs) index) :
    SecretCuts (Utf8.encode cs) (secretValue (Utf8.encode cs) index) := by
  rw [secretValue]
  cases hvalue : terminalQuotedToken (Utf8.encode cs) index with
  | none => exact ⟨h, cut_length _, cut_length _, le_rfl, List.length_pos_of_ne_nil hne⟩
  | some value =>
      have hcuts := quotedCuts_of_terminalQuotedToken hvalue
      have hafter := hcuts.after
      have hle := hcuts.start_le
      simp only
      cases hclose : value.close with
      | none =>
          exact ⟨hcuts.start, cut_length _, hcuts.stop, (hcuts.unclosed hclose).ge,
            by simp only; omega⟩
      | some close =>
          obtain ⟨hstart, hstop, hcut⟩ := hcuts.close close hclose
          exact ⟨hcuts.start, hcut, hcuts.stop, hstop.le, by simp only; omega⟩

theorem cut_secretStart {cs : List Char} {keyEnd index n : ℕ} {bearer : Bool}
    (hindex : Cut (Utf8.encode cs) index)
    (h : secretStart (Utf8.encode cs) keyEnd index bearer = some n) : Cut (Utf8.encode cs) n := by
  have hskip := cut_skipWhile ascii_of_isAsciiWhitespace hindex
  rw [secretStart] at h
  split_ifs at h
  · cases h
    exact hskip
  · cases hbyte : (Utf8.encode cs)[skipWhile isAsciiWhitespace (Utf8.encode cs) index]? with
    | none =>
        rw [hbyte] at h
        cases h
    | some b =>
        rw [hbyte] at h
        simp only at h
        split_ifs at h with hseparator
        cases h
        have hb : b < 128 := by
          rw [Bool.or_eq_true, decide_eq_true_eq, decide_eq_true_eq] at hseparator
          rcases hseparator with rfl | rfl <;> decide
        exact cut_skipWhile ascii_of_isAsciiWhitespace (cut_succ hbyte hb)

theorem cuts_secretKey {cs : List Char} {keyStart keyEnd index : ℕ}
    (h : secretKey (Utf8.encode cs) (terminalQuotedToken (Utf8.encode cs) 0) =
      some (keyStart, keyEnd, index)) :
    keyStart ≤ keyEnd ∧ Cut (Utf8.encode cs) keyStart ∧ Cut (Utf8.encode cs) keyEnd ∧
      Cut (Utf8.encode cs) index := by
  cases hquoted : terminalQuotedToken (Utf8.encode cs) 0 with
  | none =>
      rw [hquoted] at h
      cases h
      have hskip := cut_skipWhile ascii_of_isKeyByte (cut_zero cs)
      exact ⟨Nat.zero_le _, cut_zero cs, hskip, hskip⟩
  | some token =>
      have hcuts := quotedCuts_of_terminalQuotedToken hquoted
      rw [hquoted] at h
      obtain ⟨close, hclose, hends⟩ := Option.map_eq_some_iff.mp h
      cases hends
      obtain ⟨hstart, -, hcut⟩ := hcuts.close _ hclose
      exact ⟨hstart, hcuts.start, hcut, hcuts.stop⟩

theorem terminalSecret_isSome {cs : List Char} (hne : Utf8.encode cs ≠ []) :
    ∃ found, terminalSecret (Utf8.encode cs) (terminalQuotedToken (Utf8.encode cs) 0) =
      some found ∧ ∀ secret, found = some secret → SecretCuts (Utf8.encode cs) secret := by
  rw [terminalSecret]
  cases hkey : secretKey (Utf8.encode cs) (terminalQuotedToken (Utf8.encode cs) 0) with
  | none => exact ⟨none, rfl, fun secret h ↦ by cases h⟩
  | some ends =>
      obtain ⟨keyStart, keyEnd, index⟩ := ends
      obtain ⟨hle, hstart, hend, hindex⟩ := cuts_secretKey hkey
      simp only [slice_eq_some hle hstart hend]
      split_ifs
      · exact ⟨none, rfl, fun secret h ↦ by cases h⟩
      · exact ⟨none, rfl, fun secret h ↦ by cases h⟩
      · refine ⟨_, rfl, fun secret h ↦ ?_⟩
        obtain ⟨n, hn, rfl⟩ := Option.map_eq_some_iff.mp h
        exact secretCuts_secretValue hne (cut_secretStart hindex hn)

/-! ### The scan -/

theorem pathStarts_eq : pathStarts =
    [[47], [92, 92], [126, 47], [126, 92], [46, 47], [46, 46, 47], [46, 92], [46, 46, 92]] := by
  decide

theorem head?_of_startsPath {rest : List UInt8} (h : startsPath rest = true) :
    ∃ b, rest.head? = some b ∧ b ≠ 32 ∧ b ≠ 39 ∧ b ≠ 34 ∧ b ≠ 44 ∧ b ≠ 59 ∧ b ≠ 41 := by
  cases rest with
  | nil => cases h
  | cons b rest =>
      have hfirst : b = 47 ∨ b = 92 ∨ b = 126 ∨ b = 46 ∨ 65 ≤ b := by
        rw [startsPath, Bool.or_eq_true, pathStarts_eq] at h
        rcases h with h | h
        · simp only [List.any_cons, List.any_nil, List.isPrefixOf_cons_cons, Bool.or_eq_true,
            Bool.and_eq_true, beq_iff_eq, Bool.or_false] at h
          rcases h with h | h | h | h | h | h | h | h
          all_goals
            have hb := h.1
            simp [← hb]
        · match rest, h with
          | colon :: slash :: later, h =>
              simp only [startsDrive, Bool.and_eq_true, Bool.or_eq_true, decide_eq_true_eq] at h
              rcases h.1.1 with hupper | hlower
              · exact .inr (.inr (.inr (.inr hupper.1)))
              · exact .inr (.inr (.inr (.inr (UInt8.le_trans (show (65 : UInt8) ≤ 97 by decide) hlower.1))))
      refine ⟨b, rfl, ?_⟩
      rcases hfirst with rfl | rfl | rfl | rfl | hletter
      · decide
      · decide
      · decide
      · decide
      · refine ⟨?_, ?_, ?_, ?_, ?_, ?_⟩ <;> rintro rfl <;> exact absurd hletter (by decide)

/-- A path goes on at least over its first byte. -/
theorem continuesPath_of_startsPath {previous : Option UInt8} {rest : List UInt8}
    (h : startsPath rest = true) :
    ∃ b, rest.head? = some b ∧ continuesPath (quoteBefore previous) b = true := by
  obtain ⟨b, hb, hspace, hsingle, hdouble, hcomma, hsemicolon, hparen⟩ := head?_of_startsPath h
  refine ⟨b, hb, ?_⟩
  cases hquote : quoteBefore previous with
  | none => simp [continuesPath, hspace, hsingle, hdouble, hcomma, hsemicolon, hparen]
  | some quote =>
      obtain ⟨-, hisQuote⟩ := Option.filter_eq_some_iff.mp hquote
      rw [Bool.or_eq_true, decide_eq_true_eq, decide_eq_true_eq] at hisQuote
      rw [continuesPath, decide_eq_true_eq]
      rcases hisQuote with rfl | rfl
      · exact hsingle
      · exact hdouble

/-- A token advances to a cut, and its slices lie between characters. -/
structure TokenCuts (rest : List UInt8) (token : TerminalToken) : Prop where
  pos : 0 < token.next
  next : Cut rest token.next
  written : ∃ written, token.output rest = some written

theorem lt_skipWhile {test : UInt8 → Bool} {rest : List UInt8} {b : UInt8}
    (hb : rest.head? = some b) (htest : test b = true) : 0 < skipWhile test rest 0 := by
  cases rest with
  | nil => cases hb
  | cons c rest =>
      cases hb
      rw [skipWhile, List.drop_zero, List.takeWhile_cons_of_pos htest, List.length_cons]
      omega

/-- The place where a run ends is a cut, when only ASCII bytes end it. -/
theorem cut_of_stops {test : UInt8 → Bool} (htest : ∀ b, test b = false → b < 128)
    (text : List UInt8) : Cut text (skipWhile test text 0) := by
  rw [skipWhile, List.drop_zero, Nat.zero_add]
  cases hrest : text.dropWhile test with
  | nil =>
      have hall := List.takeWhile_append_dropWhile (p := test) (l := text)
      rw [hrest, List.append_nil] at hall
      rw [hall]
      exact cut_length text
  | cons b later =>
      have hstop : test b = false := by
        have hhead := List.head?_dropWhile_not test text
        rw [hrest] at hhead
        exact hhead
      have hbyte : (text.takeWhile test ++ text.dropWhile test)[(text.takeWhile test).length]? =
          some b := by
        rw [List.getElem?_append_right le_rfl, Nat.sub_self, hrest]
        rfl
      rw [List.takeWhile_append_dropWhile] at hbyte
      exact cut_of_ascii hbyte (htest b hstop)

theorem ascii_of_continuesPath {previous : Option UInt8} (b : UInt8)
    (h : continuesPath (quoteBefore previous) b = false) : b < 128 := by
  cases hquote : quoteBefore previous with
  | none =>
      rw [hquote, continuesPath, Bool.not_eq_false'] at h
      simp only [Bool.or_eq_true, decide_eq_true_eq] at h
      rcases h with ((((rfl | rfl) | rfl) | rfl) | rfl) | rfl <;> decide
  | some quote =>
      obtain ⟨-, hisQuote⟩ := Option.filter_eq_some_iff.mp hquote
      rw [hquote, continuesPath, decide_eq_false_iff_not, not_not] at h
      rw [Bool.or_eq_true, decide_eq_true_eq, decide_eq_true_eq] at hisQuote
      rcases hisQuote with rfl | rfl <;> exact h ▸ by decide

theorem tokenCuts_of_cut {rest : List UInt8} {token : TerminalToken} (hpos : 0 < token.next)
    (hzero : Cut rest 0) (hnext : Cut rest token.next)
    (hslice : token.output rest = slice rest 0 token.next) : TokenCuts rest token :=
  ⟨hpos, hnext, _, hslice.trans (slice_eq_some (Nat.zero_le _) hzero hnext)⟩

theorem tokenCuts_char {cs : List Char} (hne : cs ≠ []) :
    TokenCuts (Utf8.encode cs) (.char (charLen (Utf8.encode cs))) := by
  have hlength : charLen (Utf8.encode cs) ≤ (Utf8.encode cs).length ∧
      0 < charLen (Utf8.encode cs) := by
    cases cs with
    | nil => exact absurd rfl hne
    | cons c cs =>
        rw [Utf8.charLen_encode, Utf8.encode_cons, List.length_append]
        refine ⟨Nat.le_add_right _ _, ?_⟩
        rw [String.length_utf8EncodeChar]
        exact c.utf8Size_pos
  exact tokenCuts_of_cut hlength.2 (cut_zero cs) ⟨hlength.1, Utf8.isBoundary_charLen hne⟩ rfl

theorem terminalToken_isSome {cs : List Char} (hne : cs ≠ []) (previous : Option UInt8) :
    ∃ token, terminalToken previous (Utf8.encode cs) = some token ∧
      TokenCuts (Utf8.encode cs) token := by
  have hbytes : Utf8.encode cs ≠ [] := fun h ↦ hne (Utf8.encode_injective h)
  have hsecret : ∃ found, (if previous.all (!isAsciiAlphanumeric ·) = true then
      terminalSecret (Utf8.encode cs) (terminalQuotedToken (Utf8.encode cs) 0) else some none) =
        some found ∧ ∀ secret, found = some secret → SecretCuts (Utf8.encode cs) secret := by
    split_ifs
    · exact terminalSecret_isSome hbytes
    · exact ⟨none, rfl, fun secret h ↦ by cases h⟩
  obtain ⟨found, hfound, hcuts⟩ := hsecret
  rw [terminalToken, Utf8.isBoundary_zero, if_neg (by decide)]
  simp only [hfound]
  cases found with
  | some secret =>
      have hsecret := hcuts secret rfl
      obtain ⟨start, stop, next⟩ := secret
      refine ⟨_, rfl, hsecret.pos, hsecret.next, ?_⟩
      have hbefore := slice_eq_some (Nat.zero_le _) (cut_zero cs) hsecret.start
      have hafter := slice_eq_some hsecret.le hsecret.stop hsecret.next
      simp only at hbefore hafter
      simp only [TerminalToken.output, hbefore, hafter]
      exact ⟨_, rfl⟩
  | none =>
      simp only
      cases hopening : (terminalQuotedToken (Utf8.encode cs) 0).filter (·.quote = 34) with
      | some opening =>
          have hquoted := quotedCuts_of_terminalQuotedToken
            (Option.filter_eq_some_iff.mp hopening).1
          exact ⟨_, rfl, tokenCuts_of_cut hquoted.after (cut_zero cs) hquoted.start rfl⟩
      | none =>
          simp only
          split_ifs with hpath hchess
          · rw [Bool.and_eq_true] at hpath
            obtain ⟨b, hb, hcontinues⟩ := continuesPath_of_startsPath hpath.2
            exact ⟨_, rfl, lt_skipWhile hb hcontinues, cut_of_stops ascii_of_continuesPath _,
              ⟨_, rfl⟩⟩
          · have hstop := cut_of_stops
              (fun b (hb : decide (b ≠ 32) = false) ↦ by
                rw [decide_eq_false_iff_not, not_not] at hb
                exact hb ▸ by decide) (Utf8.encode cs)
            simp only [slice_eq_some (Nat.zero_le _) (cut_zero cs) hstop, List.drop_zero,
              List.length_take_of_le hstop.1]
            split_ifs with htoken
            · refine ⟨_, rfl, tokenCuts_of_cut ?_ (cut_zero cs) hstop rfl⟩
              refine Nat.pos_of_ne_zero fun hzero ↦ ?_
              rw [show skipWhile (fun b ↦ decide (b ≠ 32)) (Utf8.encode cs) 0 = 0 from hzero,
                List.take_zero] at htoken
              exact absurd htoken (by decide)
            · exact ⟨_, rfl, tokenCuts_char hne⟩
          · exact ⟨_, rfl, tokenCuts_char hne⟩

/-- With fuel for every byte the scan of a text comes to its end. -/
theorem scanTerminal_isSome {fuel : ℕ} :
    ∀ {cs : List Char} (previous : Option UInt8), (Utf8.encode cs).length ≤ fuel →
      (scanTerminal fuel previous (Utf8.encode cs)).isSome = true := by
  induction fuel with
  | zero =>
      intro cs previous hfuel
      rw [List.length_eq_zero_iff.mp (Nat.le_zero.mp hfuel)]
      rfl
  | succ fuel ih =>
      intro cs previous hfuel
      cases cs with
      | nil => rfl
      | cons c cs =>
          obtain ⟨token, htoken, hcuts⟩ := terminalToken_isSome (List.cons_ne_nil c cs) previous
          obtain ⟨written, hwritten⟩ := hcuts.written
          obtain ⟨after, hafter⟩ := Utf8.exists_encode_drop hcuts.next.2
          have hpos := hcuts.pos
          have hlength : (Utf8.encode after).length ≤ fuel := by
            rw [← hafter, List.length_drop]
            omega
          have hlater := ih (previousAfter previous (Utf8.encode (c :: cs)) token.next) hlength
          obtain ⟨later, hlater⟩ := Option.isSome_iff_exists.mp hlater
          cases hbytes : Utf8.encode (c :: cs) with
          | nil => rfl
          | cons b rest =>
              rw [hbytes] at htoken hwritten hafter hlater
              simp only [scanTerminal, htoken, hwritten, hafter, hlater, bind, Option.bind]
              rfl

theorem sanitizeTerminalText_isSome (text : List Char) :
    (sanitizeTerminalText text).isSome = true :=
  scanTerminal_isSome none le_rfl

end EnCroissant.Engine
