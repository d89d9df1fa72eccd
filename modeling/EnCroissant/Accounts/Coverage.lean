import EnCroissant.Integers
import EnCroissant.Accounts.ChessCom

/-!
# The coverage listing

Lichess lists the games of an account, one line of JSON each.  The listing arrives in
chunks; a line may be spread over several of them.  Reading JSON is a parameter.
-/

namespace EnCroissant

def accountExportPerfs : List String :=
  ["ultraBullet", "bullet", "blitz", "rapid", "classical", "correspondence"]

def maxCoverageHolds : ℕ := 1000000

def maxCoverageLineBytes : ℕ := 64 * 1024

structure CoverageGame where
  id : String
  rated : Bool
  perf : String
  status : String
  createdAt : ℤ
  deriving DecidableEq, Repr

def invalidCoverage : Error := .invalidInput "Lichess returned invalid coverage data"

def tooManyHolds : Error := .resourceLimit "Lichess coverage has too many holds"

def coverageLineTooLarge : Error := .resourceLimit "Lichess coverage line is too large"

def coverageSizeMismatch : Error := .invalidInput "Actual downloaded size mismatch"

def isAsciiAlphanumeric (b : UInt8) : Bool :=
  (48 ≤ b && b ≤ 57) || (65 ≤ b && b ≤ 90) || (97 ≤ b && b ≤ 122)

/-- A game of the listed categories that was not called off. -/
def CoverageGame.listed (game : CoverageGame) : Bool :=
  game.rated && accountExportPerfs.contains game.perf &&
    !(game.status == "aborted" || game.status == "noStart")

def CoverageGame.hold (game : CoverageGame) : CoverageHold where
  id := game.id
  createdAtMs := game.createdAt
  ongoing := game.status == "created" || game.status == "started"

/-- `serde_json::from_slice` for a coverage game. -/
abbrev CoverageReader := List UInt8 → Option CoverageGame

section

variable (parse : CoverageReader)

def coverageLine (line : List UInt8) (holds : List CoverageHold) :
    Except Error (List CoverageHold) :=
  if line.all isAsciiWhitespace then .ok holds
  else
    match parse line with
    | none => .error invalidCoverage
    | some game =>
        let id := Utf8.encode game.id.toList
        if id.length ≠ 8 ∨ ¬id.all isAsciiAlphanumeric ∨ game.createdAt ≤ 0 then
          .error invalidCoverage
        else if game.listed then
          if maxCoverageHolds ≤ holds.length then .error tooManyHolds
          else .ok (holds ++ [game.hold])
        else .ok holds

/-! ## The download -/

/-- The line that has begun, and the holds of the lines before it. -/
structure CoverageProgress where
  line : List UInt8
  holds : List CoverageHold

def addPart (progress : CoverageProgress) (part : List UInt8) :
    Except Error CoverageProgress :=
  if maxCoverageLineBytes < progress.line.length + part.length then .error coverageLineTooLarge
  else
    let line := progress.line ++ part
    if part.getLast? = some newline then do
      let holds ← coverageLine parse line progress.holds
      return ⟨[], holds⟩
    else return ⟨line, progress.holds⟩

/-- An item of the stream is a chunk, or the failure that ends it. -/
def addItem (state : CoverageProgress × ℕ) (item : Except Error (List UInt8)) :
    Except Error (CoverageProgress × ℕ) := do
  let chunk ← item
  let received := saturatingAdd state.2 chunk.length
  let progress ← (Lines.split newline chunk).foldlM (addPart parse) state.1
  return (progress, received)

/-- After the last item. -/
def finishCoverage (contentLength : Option ℕ) (state : CoverageProgress × ℕ) :
    Except Error (List CoverageHold) :=
  if contentLength.any fun length ↦ length != state.2 then .error coverageSizeMismatch
  else coverageLine parse state.1.line state.1.holds

def downloadCoverageHolds (contentLength : Option ℕ) (stream : List (Except Error (List UInt8))) :
    Except Error (List CoverageHold) := do
  let state ← stream.foldlM (addItem parse) (⟨[], []⟩, 0)
  finishCoverage parse contentLength state

/-! ## Parts of a line -/

/-- A line of the listing. -/
def coverageLineOf (holds : List CoverageHold) (line : List UInt8) :
    Except Error (List CoverageHold) :=
  if maxCoverageLineBytes < line.length then .error coverageLineTooLarge
  else coverageLine parse line holds

variable {parse}

theorem addPart_append {progress : CoverageProgress} {part rest : List UInt8}
    (hpart : newline ∉ part) (hrest : rest ≠ []) :
    addPart parse progress (part ++ rest) =
      addPart parse progress part >>= fun progress ↦ addPart parse progress rest := by
  have hlast : part.getLast? ≠ some newline := fun h ↦ hpart (List.mem_of_getLast? h)
  rw [addPart, List.getLast?_append_of_ne_nil _ hrest, List.length_append, ← Nat.add_assoc,
    ← List.append_assoc]
  by_cases hlong : maxCoverageLineBytes < progress.line.length + part.length
  · have hlonger : maxCoverageLineBytes < progress.line.length + part.length + rest.length := by
      omega
    rw [if_pos hlonger, addPart, if_pos hlong]
    rfl
  · have hstep : addPart parse progress part = .ok ⟨progress.line ++ part, progress.holds⟩ := by
      rw [addPart, if_neg hlong]
      exact if_neg hlast
    rw [hstep]
    change _ = addPart parse ⟨progress.line ++ part, progress.holds⟩ rest
    rw [addPart, List.length_append]

/-- However the bytes are cut, they are taken one by one. -/
theorem foldlM_addPart_split (progress : CoverageProgress) (bytes : List UInt8) :
    (Lines.split newline bytes).foldlM (addPart parse) progress =
      bytes.foldlM (fun progress byte ↦ addPart parse progress [byte]) progress := by
  induction bytes generalizing progress with
  | nil => rfl
  | cons byte bytes ih =>
      rw [List.foldlM_cons, Lines.split]
      by_cases hbyte : byte = newline
      · rw [if_pos hbyte, List.foldlM_cons]
        congr 1
        funext progress
        exact ih progress
      · have hne : newline ∉ [byte] := fun h ↦ hbyte (List.mem_singleton.mp h).symm
        rw [if_neg hbyte]
        simp only [← ih]
        cases hsplit : Lines.split newline bytes with
        | nil => rfl
        | cons line lines =>
            have hline : line ≠ [] :=
              (Lines.row_split bytes).ne_nil line (hsplit ▸ List.mem_cons_self ..)
            simp only [List.foldlM_cons]
            rw [← List.singleton_append, addPart_append hne hline, bind_assoc]

theorem saturatingAdd_assoc (a b c : ℕ) :
    saturatingAdd (saturatingAdd a b) c = saturatingAdd a (b + c) := by
  simp only [saturatingAdd]
  omega

theorem foldlM_addItem (state : CoverageProgress × ℕ) (chunks : List (List UInt8))
    (hstate : state.2 ≤ u64Max) :
    (chunks.map Except.ok).foldlM (addItem parse) state =
      (Lines.split newline chunks.flatten).foldlM (addPart parse) state.1 >>= fun progress ↦
        .ok (progress, saturatingAdd state.2 chunks.flatten.length) := by
  rw [foldlM_addPart_split]
  induction chunks generalizing state with
  | nil =>
      have hsame : saturatingAdd state.2 0 = state.2 := min_eq_left hstate
      rw [List.flatten_nil, List.length_nil, hsame]
      rfl
  | cons chunk chunks ih =>
      rw [List.map_cons, List.foldlM_cons, List.flatten_cons, List.foldlM_append, List.length_append]
      have hitem : addItem parse state (.ok chunk) =
          chunk.foldlM (fun progress byte ↦ addPart parse progress [byte]) state.1 >>=
            fun progress ↦ .ok (progress, saturatingAdd state.2 chunk.length) := by
        rw [← foldlM_addPart_split]
        rfl
      rw [hitem, bind_assoc, bind_assoc]
      congr 1
      funext progress
      have hrest := ih (progress, saturatingAdd state.2 chunk.length) (min_le_right _ _)
      rw [saturatingAdd_assoc] at hrest
      exact hrest

/-- The holds do not depend on the chunks in which the listing arrives. -/
theorem downloadCoverageHolds_flatten (contentLength : Option ℕ) (chunks : List (List UInt8)) :
    downloadCoverageHolds parse contentLength (chunks.map .ok) =
      downloadCoverageHolds parse contentLength [.ok chunks.flatten] := by
  have hone := @foldlM_addItem parse (⟨[], []⟩, 0) [chunks.flatten] (Nat.zero_le _)
  rw [List.flatten_singleton, List.map_singleton] at hone
  rw [downloadCoverageHolds, foldlM_addItem (⟨[], []⟩, 0) chunks (Nat.zero_le _), ← hone]
  rfl

/-! ## Lines of the listing -/

theorem addPart_complete {holds : List CoverageHold} {line : List UInt8}
    (hline : Lines.Complete newline line) :
    addPart parse ⟨[], holds⟩ line =
      coverageLineOf parse holds line >>= fun holds ↦ .ok ⟨[], holds⟩ := by
  rw [addPart, if_pos hline.getLast?, coverageLineOf, List.length_nil, Nat.zero_add]
  split_ifs <;> rfl

theorem addPart_unfinished {holds : List CoverageHold} {line : List UInt8}
    (hline : Lines.Unfinished newline line) :
    (addPart parse ⟨[], holds⟩ line >>= fun progress ↦
      coverageLine parse progress.line progress.holds) = coverageLineOf parse holds line := by
  rw [addPart, if_neg hline.getLast?_ne, coverageLineOf, List.length_nil, Nat.zero_add]
  split_ifs <;> rfl

theorem foldlM_coverageLineOf {holds : List CoverageHold} {lines : List (List UInt8)}
    (hlines : Lines.Row newline lines) :
    (lines.foldlM (addPart parse) ⟨[], holds⟩ >>= fun progress ↦
        coverageLine parse progress.line progress.holds) =
      lines.foldlM (coverageLineOf parse) holds := by
  induction lines generalizing holds with
  | nil => rfl
  | cons line lines ih =>
      rw [List.foldlM_cons, List.foldlM_cons, bind_assoc]
      rcases hlines.1 with hline | ⟨hline, rfl⟩
      · rw [addPart_complete hline, bind_assoc]
        congr 1
        funext holds
        exact ih hlines.2
      · have hlast := @addPart_unfinished parse holds line hline
        simp only [List.foldlM_nil, pure_bind, bind_pure]
        exact hlast

/-- A content length that is the number of bytes, if there is one. -/
def ReceivesAll (contentLength : Option ℕ) (bytes : List UInt8) : Prop :=
  ∀ length ∈ contentLength, length = min bytes.length u64Max

theorem any_contentLength_iff {contentLength : Option ℕ} {bytes : List UInt8} :
    (contentLength.any fun length ↦ length != min bytes.length u64Max) = true ↔
      ¬ReceivesAll contentLength bytes := by
  cases contentLength <;> simp [ReceivesAll]

theorem downloadCoverageHolds_eq {contentLength : Option ℕ} {chunks : List (List UInt8)} :
    downloadCoverageHolds parse contentLength (chunks.map .ok) =
      (Lines.split newline chunks.flatten).foldlM (addPart parse) ⟨[], []⟩ >>= fun progress ↦
        finishCoverage parse contentLength (progress, min chunks.flatten.length u64Max) := by
  have hreceived : saturatingAdd 0 chunks.flatten.length = min chunks.flatten.length u64Max := by
    rw [saturatingAdd, Nat.zero_add]
  rw [downloadCoverageHolds, foldlM_addItem (⟨[], []⟩, 0) chunks (Nat.zero_le _), bind_assoc,
    hreceived]
  rfl

/-- The download gives what the lines of the listing give, if it received all of it. -/
theorem downloadCoverageHolds_eq_ok_iff {contentLength : Option ℕ} {chunks : List (List UInt8)}
    {holds : List CoverageHold} :
    downloadCoverageHolds parse contentLength (chunks.map .ok) = .ok holds ↔
      ReceivesAll contentLength chunks.flatten ∧
        (Lines.split newline chunks.flatten).foldlM (coverageLineOf parse) [] = .ok holds := by
  rw [downloadCoverageHolds_eq]
  by_cases hall : ReceivesAll contentLength chunks.flatten
  · have hfinish : ∀ progress, finishCoverage parse contentLength
        (progress, min chunks.flatten.length u64Max) =
          coverageLine parse progress.line progress.holds := by
      intro progress
      exact if_neg fun hany ↦ any_contentLength_iff.mp hany hall
    simp only [hfinish]
    rw [foldlM_coverageLineOf (Lines.row_split _), and_iff_right hall]
  · have hfinish : ∀ progress, finishCoverage parse contentLength
        (progress, min chunks.flatten.length u64Max) = .error coverageSizeMismatch :=
      fun _ ↦ if_pos (any_contentLength_iff.mpr hall)
    simp only [hfinish]
    refine iff_of_false (fun h ↦ ?_) fun h ↦ hall h.1
    obtain ⟨-, -, herror⟩ := bind_eq_ok h
    cases herror

/-! ## The holds of a listing -/

/-- A listing has a line for the game. -/
def ListsGame (parse : CoverageReader) (bytes : List UInt8) (game : CoverageGame) : Prop :=
  ∃ line ∈ Lines.split newline bytes, line.all isAsciiWhitespace = false ∧ parse line = some game

/-- What a line that is accepted adds. -/
theorem coverageLineOf_eq_ok {holds holds' : List CoverageHold} {line : List UInt8}
    (h : coverageLineOf parse holds line = .ok holds') :
    holds <+: holds' ∧ (line.all isAsciiWhitespace = false →
      ∀ game ∈ parse line, 0 < game.createdAt ∧ (game.listed = true → game.hold ∈ holds')) := by
  obtain ⟨-, h⟩ := of_guard h
  rw [coverageLine] at h
  cases hblank : line.all isAsciiWhitespace with
  | true =>
      rw [if_pos hblank] at h
      cases h
      exact ⟨List.prefix_rfl, nofun⟩
  | false =>
      rw [if_neg (Bool.eq_false_iff.mp hblank)] at h
      cases hparse : parse line with
      | none =>
          rw [hparse] at h
          cases h
      | some game =>
          rw [hparse] at h
          obtain ⟨hvalid, h⟩ := of_guard h
          have hcreated : 0 < game.createdAt :=
            lt_of_not_ge fun hle ↦ hvalid (Or.inr (Or.inr hle))
          by_cases hlisted : game.listed = true
          · rw [if_pos hlisted] at h
            obtain ⟨-, h⟩ := of_guard h
            cases h
            refine ⟨List.prefix_append _ _, fun _ game' hgame' ↦ ?_⟩
            obtain rfl : game = game' := Option.some.inj hgame'
            exact ⟨hcreated, fun _ ↦ List.mem_append_right _ (List.mem_singleton_self _)⟩
          · rw [if_neg hlisted] at h
            cases h
            refine ⟨List.prefix_rfl, fun _ game' hgame' ↦ ?_⟩
            obtain rfl : game = game' := Option.some.inj hgame'
            exact ⟨hcreated, fun h ↦ absurd h hlisted⟩

theorem foldlM_coverageLineOf_eq_ok {lines : List (List UInt8)} {holds holds' : List CoverageHold}
    (h : lines.foldlM (coverageLineOf parse) holds = .ok holds') :
    holds <+: holds' ∧ ∀ line ∈ lines, line.all isAsciiWhitespace = false →
      ∀ game ∈ parse line, 0 < game.createdAt ∧ (game.listed = true → game.hold ∈ holds') := by
  induction lines generalizing holds with
  | nil =>
      cases h
      exact ⟨List.prefix_rfl, fun _ hline ↦ nomatch hline⟩
  | cons line lines ih =>
      obtain ⟨middle, hline, hrest⟩ := bind_eq_ok h
      obtain ⟨hextends, hgames⟩ := coverageLineOf_eq_ok hline
      obtain ⟨hextends', hgames'⟩ := ih hrest
      refine ⟨hextends.trans hextends', fun line' hline' hblank game hgame ↦ ?_⟩
      rcases List.mem_cons.mp hline' with rfl | hline'
      · obtain ⟨hcreated, hhold⟩ := hgames hblank game hgame
        exact ⟨hcreated, fun hlisted ↦ hextends'.subset (hhold hlisted)⟩
      · exact hgames' line' hline' hblank game hgame

/-- Every game of the listed categories that the listing has is held. -/
theorem hold_mem_of_listsGame {contentLength : Option ℕ} {chunks : List (List UInt8)}
    {holds : List CoverageHold} {game : CoverageGame}
    (h : downloadCoverageHolds parse contentLength (chunks.map .ok) = .ok holds)
    (hgame : ListsGame parse chunks.flatten game) (hlisted : game.listed = true) :
    game.hold ∈ holds := by
  obtain ⟨-, hfold⟩ := downloadCoverageHolds_eq_ok_iff.mp h
  obtain ⟨line, hline, hblank, hparse⟩ := hgame
  exact ((foldlM_coverageLineOf_eq_ok hfold).2 line hline hblank game hparse).2 hlisted

end

end EnCroissant
