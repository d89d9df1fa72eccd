import EnCroissant.Tree.Node

/-!
# Players and games that a comment refers to

A comment refers to a game by the surnames and initials of its players, their ratings
and the result.  A game matches the reference for certain, only perhaps, or not at all.
What the tables of Unicode say is a parameter, and so is what is made of the rest of the
comment.
-/

namespace EnCroissant

/-- What the program uses of Unicode's tables. -/
structure Unicode where
  /-- `normalize("NFC")`. -/
  nfc : Text → Text
  /-- `toLocaleLowerCase("en")`. -/
  toLocaleLowerCase : Text → Text

namespace Text

/-- `replace(/\s+/g, " ")`, right after a blank or not. -/
def collapseSpaces : Bool → Text → Text
  | _, [] => []
  | afterSpace, c :: rest =>
      if isSpace c then
        if afterSpace then collapseSpaces true rest else ' ' :: collapseSpaces true rest
      else c :: collapseSpaces false rest

/-- Every character but blanks and apostrophes stays. -/
theorem mem_of_mem_collapseSpaces {c : Char} (hc : c ≠ ' ') {text : Text} :
    ∀ {afterSpace : Bool}, c ∈ collapseSpaces afterSpace text → c ∈ text := by
  induction text with
  | nil => exact fun h ↦ h
  | cons d rest ih =>
      intro afterSpace h
      rw [collapseSpaces] at h
      split_ifs at h
      · exact List.mem_cons_of_mem _ (ih h)
      · exact List.mem_cons_of_mem _ (ih ((List.mem_cons.mp h).resolve_left hc))
      · exact (List.mem_cons.mp h).elim (fun hd ↦ hd ▸ List.mem_cons_self)
          fun h ↦ List.mem_cons_of_mem _ (ih h)

theorem mem_of_mem_trim {c : Char} {text : Text} (h : c ∈ text.trim) : c ∈ text :=
  (List.dropWhile_suffix _).subset ((List.rdropWhile_prefix _ _).subset h)

end Text

open Text

structure ReferencePlayer where
  surname : Text
  initials : Text
  rating : Option ℤ
  deriving DecidableEq, Repr

structure GameReference where
  outcome : Outcome
  white : ReferencePlayer
  black : ReferencePlayer
  context : Text
  closed : Bool
  deriving DecidableEq, Repr

inductive ReferenceVerification where
  | verified
  | unverified
  | rejected
  deriving DecidableEq, Repr

/-- What a reference is compared with of a game. -/
structure NormalizedGame where
  id : ℤ
  event : Text
  site : Text
  date : Option Text
  round : Option Text
  white : Text
  whiteId : ℤ
  whiteElo : Option ℤ
  black : Text
  blackId : ℤ
  blackElo : Option ℤ
  result : Outcome
  deriving DecidableEq, Repr

section

variable (U : Unicode)

def normalized (text : Text) : Text :=
  Text.trim (collapseSpaces false
    ((U.toLocaleLowerCase (U.nfc text)).map fun c ↦ if c = '’' then '\'' else c))

/-- The characters between initials and between words. -/
def isSeparator (c : Char) : Bool := c = '.' || isSpace c || c = '-'

def initialsOf (text : Text) : Text := (normalized U text).filter fun c ↦ !isSeparator c

/-- What a name has besides the surname of the reference; `none` where the surname differs. -/
def givenOf (reference : ReferencePlayer) (name : Text) : Option Text :=
  if ',' ∈ name then
    if normalized U (name.takeWhile (· ≠ ',')) ≠ normalized U reference.surname then none
    else some (Text.trim ((name.dropWhile (· ≠ ',')).drop 1))
  else
    let suffix := ' ' :: normalized U reference.surname
    let name := normalized U name
    if suffix.isSuffixOf name then some (name.take (name.length - suffix.length)) else none

def referencePlayerVerification (reference : ReferencePlayer) (name : Option Text) :
    ReferenceVerification :=
  match name with
  | none => .rejected
  | some name =>
      if name = [] then .rejected
      else
        match givenOf U reference name with
        | none => .rejected
        | some given =>
            if given = [] then .rejected
            else
              let wanted := initialsOf U reference.initials
              let words := ((normalized U given).splitOnP isSeparator).filter (· ≠ [])
              let abbreviated := words.all (·.length = 1)
              if !abbreviated && normalized U given = wanted then .unverified
              else
                let actual := if abbreviated then initialsOf U given else words.filterMap (·.head?)
                if wanted.isPrefixOf actual then .verified else .rejected

def matchesReferencePlayer (reference : ReferencePlayer) (name : Option Text) : Bool :=
  referencePlayerVerification U reference name ≠ .rejected

/-- The verification of a game, with what is made of the comment around the players. -/
def referenceGameVerification
    (metadataVerification : GameReference → NormalizedGame → ReferenceVerification)
    (reference : GameReference) (game : NormalizedGame) : ReferenceVerification :=
  let white := referencePlayerVerification U reference.white (some game.white)
  let black := referencePlayerVerification U reference.black (some game.black)
  if !(white ≠ .rejected && black ≠ .rejected && game.result = reference.outcome &&
      (reference.white.rating = none || game.whiteElo = reference.white.rating) &&
      (reference.black.rating = none || game.blackElo = reference.black.rating)) then .rejected
  else
    let metadata := metadataVerification reference game
    if metadata = .rejected then .rejected
    else if .unverified ∈ [white, black, metadata] then .unverified
    else .verified

/-! ## The fragment that players are searched by -/

def isAsciiLetter (c : Char) : Bool := ('A' ≤ c && c ≤ 'Z') || ('a' ≤ c && c ≤ 'z')

/-- The longest of the runs of ASCII letters, the first of them where several are. -/
def longestAsciiFragment (surname : Text) : Option Text :=
  let runs := ((U.nfc surname).splitOnP fun c ↦ !isAsciiLetter c).filter (· ≠ [])
  (runs.mergeSort fun a b ↦ b.length ≤ a.length).head?

/-- Whether a name contains a fragment, up to the case of ASCII letters. -/
def containsAscii (fragment name : Text) : Prop :=
  fragment.map Char.toLower <:+: name.map Char.toLower

instance (fragment name : Text) : Decidable (containsAscii fragment name) :=
  inferInstanceAs (Decidable (_ <:+: _))

/-- A name whose surname is, once normalised, that of the reference. -/
def SameSurname (reference : ReferencePlayer) (name : Text) : Prop :=
  if ',' ∈ name then
    normalized U (name.takeWhile (· ≠ ',')) = normalized U reference.surname
  else ' ' :: normalized U reference.surname <:+ normalized U name

/-- Names with the same normalised surname contain the reference's longest ASCII fragment. -/
def KeepsFragment (reference : ReferencePlayer) : Prop :=
  ∀ fragment, longestAsciiFragment U reference.surname = some fragment →
    ∀ name, SameSurname U reference name → containsAscii fragment name

end

variable {U : Unicode}

theorem sameSurname_of_givenOf {reference : ReferencePlayer} {name given : Text}
    (h : givenOf U reference name = some given) : SameSurname U reference name := by
  rw [SameSurname]
  by_cases hcomma : ',' ∈ name
  · rw [if_pos hcomma]
    rw [givenOf, if_pos hcomma] at h
    by_contra hsurname
    rw [if_pos hsurname] at h
    cases h
  · rw [if_neg hcomma]
    rw [givenOf, if_neg hcomma] at h
    by_contra hsuffix
    simp only [List.isSuffixOf_iff_suffix, if_neg hsuffix] at h
    cases h

/-- A player who may be offered has the surname of the reference. -/
theorem sameSurname_of_matches {reference : ReferencePlayer} {name : Text}
    (h : matchesReferencePlayer U reference (some name) = true) :
    SameSurname U reference name := by
  rw [matchesReferencePlayer, decide_eq_true_eq, referencePlayerVerification] at h
  by_cases hempty : name = []
  · exact absurd (if_pos hempty) h
  · simp only [if_neg hempty] at h
    cases hgiven : givenOf U reference name with
    | none =>
        rw [hgiven] at h
        exact absurd rfl h
    | some given => exact sameSurname_of_givenOf hgiven

/-- Both players of a game that may be offered may be offered, and its result is the one
that is asked for. -/
theorem matches_of_referenceGameVerification
    {metadataVerification : GameReference → NormalizedGame → ReferenceVerification}
    {reference : GameReference} {game : NormalizedGame}
    (h : referenceGameVerification U metadataVerification reference game ≠ .rejected) :
    matchesReferencePlayer U reference.white (some game.white) = true ∧
      matchesReferencePlayer U reference.black (some game.black) = true ∧
        game.result = reference.outcome := by
  by_contra hplayers
  refine h ?_
  rw [referenceGameVerification, if_pos]
  rw [matchesReferencePlayer, matchesReferencePlayer, decide_eq_true_eq, decide_eq_true_eq]
    at hplayers
  simp only [Bool.not_eq_true', Bool.and_eq_false_iff, decide_eq_false_iff_not]
  by_contra hall
  push Not at hall
  exact hplayers ⟨hall.1.1.1.1, hall.1.1.1.2, hall.1.1.2⟩

end EnCroissant
