import EnCroissant.Pgn.Headers

/-!
# Headers through their tag lines

The tags of a game are written once each, so a reader finds under every name the
value that was written there, and every field is read back from it.
-/

namespace EnCroissant.PgnHeaders

/-! ## Values -/

theorem decode_escape (value : Text) : decodePgnTagValue (escapeTagValue value) = value :=
  Escaping.unescape_escape (by decide) value

theorem orElse_of_ne_nil {text : Text} (placeholder : Text) (h : text ≠ []) :
    orElse text placeholder = text := if_neg h

theorem resultText_injective : Function.Injective resultText := by
  intro a b h
  cases a <;> cases b <;> first | rfl | cases h

theorem parseResult_resultText (result : Outcome) :
    parseResult (some (resultText result)) = result := by
  cases result <;> rfl

theorem parseOrientation_orientationText (orientation : Option Color) :
    parseOrientation (orientation.map orientationText) = orientation := by
  rcases orientation with - | color
  · rfl
  · cases color <;> rfl

theorem normalizeFen_idem (fen : Text) : normalizeFen (normalizeFen fen) = normalizeFen fen := by
  have hinitial : normalizeFen initialFen = initialFen := by decide
  have hfen : normalizeFen fen = initialFen ∨ normalizeFen fen = fen.trim ∧ fen.trim ≠ [] := by
    rw [normalizeFen]
    cases htrim : fen.trim with
    | nil => exact .inl rfl
    | cons c text => exact .inr ⟨rfl, List.cons_ne_nil c text⟩
  rcases hfen with hfen | ⟨hfen, hne⟩
  · rw [hfen, hinitial]
  · rw [hfen, normalizeFen, Text.trim_trim]
    split
    · contradiction
    · rfl

/-! ## Elo -/

theorem digitsValue_eq (digits : Text) :
    Text.digitsValue digits = Nat.ofDigitChars 10 digits 0 := rfl

theorem trim_of_digits {text : Text} (h : ∀ c ∈ text, c.isDigit = true) : text.trim = text := by
  refine Text.trim_of_forall fun c hc ↦ ?_
  obtain ⟨hlow, hhigh⟩ := Char.isDigit_iff_toNat.mp (h c hc)
  change 48 ≤ c.toNat at hlow
  change c.toNat ≤ 57 at hhigh
  exact Text.isSpace_of_ascii (by omega) (by omega)

theorem eloNumber_le {raw : Text} {elo : ℕ} (h : eloNumber raw = some elo) :
    elo ≤ maxSafeInteger := by
  rw [eloNumber] at h
  split_ifs at h with hdash hdigits
  · obtain rfl := Option.some.inj h
    exact Nat.zero_le _
  · obtain rfl := Option.some.inj h
    exact hdigits.2.2

theorem eloNumber_eloText {elo : ℕ} (h : elo ≤ maxSafeInteger) :
    eloNumber (eloText elo) = some elo := by
  rw [eloText]
  split_ifs with hzero
  · rw [hzero]
    rfl
  · have hdigits : ∀ c ∈ Decimal.digits elo, c.isDigit = true := Decimal.isDigit_digits
    have hdash : Decimal.digits elo ≠ ['-'] := by
      intro heq
      have hmem := hdigits '-' (heq ▸ List.mem_singleton_self '-')
      cases hmem
    have hvalue : Text.digitsValue (Decimal.digits elo) = elo := Decimal.ofDigitChars_digits
    rw [eloNumber, if_neg hdash, trim_of_digits hdigits, hvalue,
      if_pos ⟨Decimal.digits_ne_nil, List.all_eq_true.mpr hdigits, h⟩]

/-- What an Elo tag leaves: a number, or a text among the other tags, or nothing. -/
def EloRead (elo : Option ℕ) (raw : Option Text) : Prop :=
  (∃ n, elo = some n ∧ n ≤ maxSafeInteger ∧ raw = none) ∨
    elo = none ∧ ∀ text, raw = some text → text ≠ [] ∧ eloNumber text = none

/-- The text that an Elo tag leaves among the other tags. -/
def eloKept (raw : Option Text) : Option Text :=
  raw.filter fun text ↦ text ≠ [] ∧ eloNumber text = none

theorem parseEloTag_fst (raw : Option Text) (key : String) (other : Record String Text) :
    (parseEloTag raw key other).1 = (raw.filter (· ≠ [])).bind eloNumber := by
  cases raw with
  | none => rfl
  | some text =>
      rw [parseEloTag]
      by_cases hnil : text = []
      · rw [if_pos hnil, hnil]
        rfl
      · rw [if_neg hnil, Option.filter_some_pos (by simpa using hnil), Option.bind_some]
        cases eloNumber text with
        | none => rfl
        | some elo => rfl

theorem get?_parseEloTag {raw : Option Text} {key name : String} {other : Record String Text} :
    (parseEloTag raw key other).2.get? name =
      if name = key then (eloKept raw).or (other.get? name) else other.get? name := by
  cases raw with
  | none => exact (ite_self _).symm
  | some text =>
      rw [parseEloTag, eloKept]
      by_cases hnil : text = []
      · rw [if_pos hnil, Option.filter_some_neg (by simp [hnil]), Option.none_or, ite_self]
      · rw [if_neg hnil]
        cases helo : eloNumber text with
        | none =>
            dsimp only
            rw [Record.get?_set, Option.filter_some_pos (by simp [hnil, helo]), Option.some_or]
        | some elo =>
            dsimp only
            rw [Option.filter_some_neg (by simp [helo]), Option.none_or, ite_self]

theorem eloRead_eloKept (raw : Option Text) :
    EloRead ((raw.filter (· ≠ [])).bind eloNumber) (eloKept raw) := by
  cases raw with
  | none => exact .inr ⟨rfl, fun _ h ↦ nomatch h⟩
  | some text =>
      rw [eloKept]
      by_cases hnil : text = []
      · rw [Option.filter_some_neg (by simp [hnil]), Option.filter_some_neg (by simp [hnil])]
        exact .inr ⟨rfl, fun _ h ↦ nomatch h⟩
      · rw [Option.filter_some_pos (by simpa using hnil), Option.bind_some]
        cases helo : eloNumber text with
        | none =>
            rw [Option.filter_some_pos (by simp [hnil, helo])]
            refine .inr ⟨rfl, fun kept hkept ↦ ?_⟩
            obtain rfl := Option.some.inj hkept
            exact ⟨hnil, helo⟩
        | some elo =>
            rw [Option.filter_some_neg (by simp [helo])]
            exact .inl ⟨elo, rfl, eloNumber_le helo, rfl⟩

theorem filter_map_ne_nil {α : Type} {f : α → Text} (hf : ∀ a, f a ≠ []) (value : Option α) :
    (value.map f).filter (· ≠ []) = value.map f := by
  cases value with
  | none => rfl
  | some a => exact Option.filter_some_pos (by simpa using hf a)

theorem eloText_ne_nil (elo : ℕ) : eloText elo ≠ [] := by
  rw [eloText]
  split_ifs
  · exact List.cons_ne_nil _ _
  · exact Decimal.digits_ne_nil

/-- An Elo is read from the tag that is written for it, or from the text that was kept. -/
theorem EloRead.reread {elo : Option ℕ} {raw : Option Text} (h : EloRead elo raw) :
    (((raw.or (elo.map eloText)).filter (· ≠ [])).bind eloNumber) = elo ∧
      eloKept (raw.or (elo.map eloText)) = raw := by
  rcases h with ⟨n, rfl, hle, rfl⟩ | ⟨rfl, hraw⟩
  · have helo := eloNumber_eloText hle
    have hne : eloText n ≠ [] := eloText_ne_nil n
    rw [Option.none_or, Option.map_some, eloKept, Option.filter_some_pos (by simpa using hne),
      Option.bind_some, Option.filter_some_neg (by simp [helo])]
    exact ⟨helo, rfl⟩
  · rw [Option.map_none, Option.or_none]
    cases raw with
    | none => exact ⟨rfl, rfl⟩
    | some text =>
        obtain ⟨hne, helo⟩ := hraw text rfl
        rw [eloKept, Option.filter_some_pos (by simpa using hne), Option.bind_some,
          Option.filter_some_pos (by simp [hne, helo])]
        exact ⟨helo, rfl⟩

/-! ## Start paths -/

def StartRead (path : List ℕ) : Prop :=
  path.length ≤ maxStartPathLength ∧ ∀ index ∈ path, index ≤ maxSafeInteger

theorem startRead_nil : StartRead [] := ⟨Nat.zero_le _, fun _ h ↦ nomatch h⟩

theorem pathIndex_le {item : JsonValue} {index : ℕ} (h : pathIndex item = some index) :
    index ≤ maxSafeInteger := by
  cases item with
  | number value =>
      rw [pathIndex] at h
      split_ifs at h with hsafe
      obtain rfl := Option.some.inj h
      exact Int.toNat_le.mpr hsafe.2.2
  | array items => cases h
  | other => cases h

theorem pathIndex_natCast {index : ℕ} (h : index ≤ maxSafeInteger) :
    pathIndex (.number index) = some index := by
  have hbound : (index : ℤ) ≤ maxSafeInteger := Int.ofNat_le.mpr h
  rw [pathIndex, Rat.den_natCast, Rat.num_natCast, if_pos ⟨rfl, Int.natCast_nonneg _, hbound⟩,
    Int.toNat_natCast]

theorem startRead_mapM {items : List JsonValue} {path : List ℕ}
    (h : items.mapM pathIndex = some path) :
    path.length = items.length ∧ ∀ index ∈ path, index ≤ maxSafeInteger := by
  induction items generalizing path with
  | nil =>
      obtain rfl := Option.some.inj h
      exact ⟨rfl, fun _ hmem ↦ nomatch hmem⟩
  | cons item items ih =>
      obtain ⟨index, hindex, rest, hrest, rfl⟩ : ∃ index, pathIndex item = some index ∧
          ∃ rest, items.mapM pathIndex = some rest ∧ index :: rest = path := by
        simpa [List.mapM_cons, Option.bind_eq_some_iff] using h
      obtain ⟨hlength, hsafe⟩ := ih hrest
      refine ⟨by rw [List.length_cons, List.length_cons, hlength], fun i hi ↦ ?_⟩
      rcases List.mem_cons.mp hi with rfl | hi
      · exact pathIndex_le hindex
      · exact hsafe i hi

theorem mapM_pathIndex {path : List ℕ} (h : ∀ index ∈ path, index ≤ maxSafeInteger) :
    (path.map fun index : ℕ ↦ JsonValue.number index).mapM pathIndex = some path := by
  induction path with
  | nil => rfl
  | cons index path ih =>
      have hpath := ih fun i hi ↦ h i (List.mem_cons_of_mem index hi)
      have hindex := pathIndex_natCast (h index List.mem_cons_self)
      rw [List.map_cons, List.mapM_cons, hindex, hpath]
      rfl

theorem startRead_parse (parseJson : Text → Option JsonValue) (value : Option Text) :
    StartRead (parseRawStartHeader parseJson value) := by
  cases value with
  | none => exact startRead_nil
  | some text =>
      rw [parseRawStartHeader]
      split_ifs with hnil
      · exact startRead_nil
      · split
        · next items _ =>
            split_ifs with hlong
            · exact startRead_nil
            · cases hpath : items.mapM pathIndex with
              | none => exact startRead_nil
              | some path =>
                  obtain ⟨hlength, hsafe⟩ := startRead_mapM hpath
                  exact ⟨by rw [Option.getD_some, hlength]; exact not_lt.mp hlong, hsafe⟩
        · exact startRead_nil

theorem StartRead.reread {env : HeaderEnv} (henv : env.Reads) {path : List ℕ} (h : StartRead path) :
    parseRawStartHeader env.parseJson (((some path).filter (· ≠ [])).map stringifyPath) = path := by
  by_cases hnil : path = []
  · rw [hnil]
    rfl
  · have hne : stringifyPath path ≠ [] := List.cons_ne_nil _ _
    have hlength : ¬maxStartPathLength <
        (path.map fun index : ℕ ↦ JsonValue.number index).length := by
      rw [List.length_map]
      exact not_lt.mpr h.1
    rw [Option.filter_some_pos (by simpa using hnil), Option.map_some, parseRawStartHeader,
      if_neg hne, henv.paths path h.2]
    dsimp only
    rw [if_neg hlength, mapM_pathIndex h.2, Option.getD_some]

/-! ## Tags by name -/

theorem map_fst_optionalTag_sublist (name : String) (value : Option Text) :
    ((optionalTag name value).map Prod.fst).Sublist [name] := by
  cases value with
  | none => exact List.nil_sublist _
  | some text =>
      rw [optionalTag]
      split_ifs
      · exact List.nil_sublist _
      · exact List.Sublist.refl _

theorem lookup_optionalTag {key name : String} {value : Option Text} :
    (optionalTag name value).lookup key =
      if key = name then value.filter (· ≠ []) else none := by
  cases value with
  | none => exact (ite_self _).symm
  | some text =>
      rw [optionalTag]
      by_cases hnil : text = []
      · rw [if_pos hnil, Option.filter_some_neg (by simp [hnil]), ite_self]
        rfl
      · rw [if_neg hnil, Option.filter_some_pos (by simpa using hnil), Record.lookup_cons]
        rfl

def optionalTags (rows : List (String × Option Text)) : List (String × Text) :=
  rows.flatMap fun row ↦ optionalTag row.1 row.2

theorem map_fst_optionalTags_sublist (rows : List (String × Option Text)) :
    ((optionalTags rows).map Prod.fst).Sublist (rows.map Prod.fst) := by
  induction rows with
  | nil => exact List.nil_sublist _
  | cons row rows ih =>
      rw [optionalTags, List.flatMap_cons, List.map_append]
      exact (map_fst_optionalTag_sublist row.1 row.2).append ih

theorem lookup_optionalTags {rows : List (String × Option Text)}
    (hnodup : (rows.map Prod.fst).Nodup) (key : String) :
    (optionalTags rows).lookup key = ((rows.lookup key).join).filter (· ≠ []) := by
  induction rows with
  | nil => rfl
  | cons row rows ih =>
      obtain ⟨name, value⟩ := row
      rw [List.map_cons, List.nodup_cons] at hnodup
      rw [optionalTags, List.flatMap_cons, List.lookup_append, lookup_optionalTag,
        Record.lookup_cons, ← optionalTags, ih hnodup.2]
      by_cases hkey : key = name
      · subst hkey
        rw [if_pos rfl, if_pos rfl, Record.lookup_eq_none hnodup.1]
        exact Option.or_none
      · rw [if_neg hkey, if_neg hkey, Option.none_or]

theorem optionalTag_some {name : String} {text : Text} (h : text ≠ []) :
    optionalTag name (some text) = [(name, text)] := if_neg h

/-- The known tags as optional ones; those of the roster are always there. -/
def GameHeaders.rows (game : GameHeaders) : List (String × Option Text) :=
  [("Event", some (orElse game.event ['?'])), ("Site", some (orElse game.site ['?'])),
    ("Date", some (orElse game.date "????.??.??".toList)),
    ("Round", some (orElse game.round ['?'])), ("White", some (orElse game.white ['?'])),
    ("Black", some (orElse game.black ['?'])), ("Result", some (resultText game.result)),
    ("UTCTime", game.time), ("WhiteElo", game.whiteElo.map eloText),
    ("BlackElo", game.blackElo.map eloText),
    ("Start", (game.start.filter (· ≠ [])).map stringifyPath),
    ("Orientation", game.orientation.map orientationText), ("TimeControl", game.timeControl),
    ("WhiteTimeControl", game.whiteTimeControl), ("BlackTimeControl", game.blackTimeControl),
    ("ECO", game.eco), ("Variant", game.variant)]

theorem orElse_ne_nil {text placeholder : Text} (h : placeholder ≠ []) :
    orElse text placeholder ≠ [] := by
  rw [orElse]
  split_ifs with hnil
  · exact h
  · exact hnil

theorem filter_orElse {text placeholder : Text} (h : placeholder ≠ []) :
    (some (orElse text placeholder)).filter (· ≠ []) = some (orElse text placeholder) :=
  Option.filter_some_pos (by simpa using orElse_ne_nil h)

theorem resultText_ne_nil (result : Outcome) : resultText result ≠ [] := by
  cases result <;> exact List.cons_ne_nil _ _

theorem knownTags_eq (game : GameHeaders) : game.knownTags = optionalTags game.rows := by
  have hmark : (['?'] : Text) ≠ [] := List.cons_ne_nil _ _
  have hdate : "????.??.??".toList ≠ [] := by decide
  simp only [GameHeaders.knownTags, GameHeaders.rows, optionalTags, List.flatMap_cons,
    List.flatMap_nil, optionalTag_some (orElse_ne_nil hmark),
    optionalTag_some (orElse_ne_nil hdate),
    optionalTag_some (resultText_ne_nil _), List.append_assoc, List.append_nil, List.cons_append,
    List.nil_append]

theorem nodup_rows (game : GameHeaders) : (game.rows.map Prod.fst).Nodup := by
  change ["Event", "Site", "Date", "Round", "White", "Black", "Result", "UTCTime", "WhiteElo",
    "BlackElo", "Start", "Orientation", "TimeControl", "WhiteTimeControl", "BlackTimeControl",
    "ECO", "Variant"].Nodup
  decide

theorem nodup_knownTags (game : GameHeaders) : (game.knownTags.map Prod.fst).Nodup := by
  rw [knownTags_eq]
  exact (nodup_rows game).sublist (map_fst_optionalTags_sublist _)

theorem lookup_knownTags (game : GameHeaders) (key : String) :
    game.knownTags.lookup key = ((game.rows.lookup key).join).filter (· ≠ []) := by
  rw [knownTags_eq, lookup_optionalTags (nodup_rows game)]

theorem objectEntries_perm (r : Record String Text) : (objectEntries r).Perm r.entries :=
  ((List.mergeSort_perm _ _).append_right _).trans
    (List.filter_append_perm (fun entry ↦ (arrayIndex entry.1).isSome) r.entries)

theorem nodup_objectEntries (r : Record String Text) :
    ((objectEntries r).map Prod.fst).Nodup :=
  ((objectEntries_perm r).map Prod.fst).nodup_iff.mpr r.nodup

theorem nodup_otherTags (game : GameHeaders) : (game.otherTags.map Prod.fst).Nodup :=
  (nodup_objectEntries game.other).sublist (List.filter_sublist.map _)

theorem lookup_otherTags (game : GameHeaders) (key : String) :
    game.otherTags.lookup key =
      if game.overridden key then none else game.other.get? key := by
  have hentries : (objectEntries game.other).lookup key = game.other.get? key :=
    Record.lookup_perm (objectEntries_perm game.other) (nodup_objectEntries game.other)
  rw [GameHeaders.otherTags, Record.lookup_filter fun name ↦ !game.overridden name, hentries]
  cases game.overridden key with
  | true => rfl
  | false => rfl

/-! ## The headers of a map of tags -/

/-- What holds of the headers of any map of tags. -/
structure GameHeaders.WellRead (game : GameHeaders) : Prop where
  time : game.time = none
  whiteTimeControl : game.whiteTimeControl = none
  blackTimeControl : game.blackTimeControl = none
  eco : game.eco = none
  fieldTags : ∀ name ∈ fieldTags, name ≠ "WhiteElo" → name ≠ "BlackElo" →
    game.other.get? name = none
  whiteElo : EloRead game.whiteElo (game.other.get? "WhiteElo")
  blackElo : EloRead game.blackElo (game.other.get? "BlackElo")
  start : ∃ path, game.start = some path ∧ StartRead path
  fen : normalizeFen game.fen = game.fen

variable (parseJson : Text → Option JsonValue) (r : Record String Text)

theorem get?_other_headersOf (name : String) :
    (headersOf parseJson r).other.get? name =
      if name = "WhiteElo" then eloKept (r.get? "WhiteElo")
      else if name = "BlackElo" then eloKept (r.get? "BlackElo")
      else if name ∈ PgnHeaders.fieldTags then none else r.get? name := by
  have hfields : (r.without fun name ↦ decide (name ∈ PgnHeaders.fieldTags)).get? name =
      if name ∈ PgnHeaders.fieldTags then none else r.get? name := by
    rw [Record.get?_without]
    exact if_congr decide_eq_true_iff rfl rfl
  change (parseEloTag _ "WhiteElo" (parseEloTag _ "BlackElo" _).2).2.get? name = _
  rw [get?_parseEloTag, get?_parseEloTag, hfields]
  by_cases hwhite : name = "WhiteElo"
  · subst hwhite
    rw [if_pos rfl, if_pos rfl, if_neg (by decide), if_pos (by decide), Option.or_none]
  · rw [if_neg hwhite, if_neg hwhite]
    by_cases hblack : name = "BlackElo"
    · subst hblack
      rw [if_pos rfl, if_pos rfl, if_pos (by decide), Option.or_none]
    · rw [if_neg hblack, if_neg hblack]

theorem wellRead_headersOf : (headersOf parseJson r).WellRead where
  time := rfl
  whiteTimeControl := rfl
  blackTimeControl := rfl
  eco := rfl
  fieldTags := by
    intro name hname hwhite hblack
    rw [get?_other_headersOf, if_neg hwhite, if_neg hblack, if_pos hname]
  whiteElo := by
    have helo : (headersOf parseJson r).whiteElo =
        ((r.get? "WhiteElo").filter (· ≠ [])).bind eloNumber := parseEloTag_fst _ _ _
    rw [get?_other_headersOf, if_pos rfl, helo]
    exact eloRead_eloKept _
  blackElo := by
    have helo : (headersOf parseJson r).blackElo =
        ((r.get? "BlackElo").filter (· ≠ [])).bind eloNumber := parseEloTag_fst _ _ _
    rw [get?_other_headersOf, if_neg (by decide), if_pos rfl, helo]
    exact eloRead_eloKept _
  start := ⟨_, rfl, startRead_parse _ _⟩
  fen := normalizeFen_idem _

/-! ## Tags that fit in a line -/

def LegibleName (name : String) : Prop := ∀ c ∈ name.toList, c ≠ '"' ∧ c ≠ ']' ∧ c ≠ '\n'

def LegibleRecord (r : Record String Text) : Prop :=
  ∀ name value, name ≠ "Result" → r.get? name = some value → Legible (name, value)

theorem legibleRecord_collectTag {r : Record String Text} (hr : LegibleRecord r) {token : Token}
    (htoken : token.Legible) : LegibleRecord (collectTag r token) := by
  cases token with
  | header tag raw =>
      intro name value hname hvalue
      rw [collectTag, Record.get?_set] at hvalue
      split_ifs at hvalue with heq
      · obtain rfl := Option.some.inj hvalue
        exact heq ▸ htoken
      · exact hr name value hname hvalue
  | outcome text =>
      intro name value hname hvalue
      rw [collectTag, Record.get?_set, if_neg hname] at hvalue
      exact hr name value hname hvalue
  | _ => exact hr

theorem legibleRecord_readTags {tokens : List Token} (h : ∀ token ∈ tokens, token.Legible) :
    LegibleRecord (readTags tokens) := by
  have hfold : ∀ (tokens : List Token) (r : Record String Text), LegibleRecord r →
      (∀ token ∈ tokens, token.Legible) → LegibleRecord (tokens.foldl collectTag r) := by
    intro tokens
    induction tokens with
    | nil => exact fun r hr _ ↦ hr
    | cons token tokens ih =>
        intro r hr htokens
        have hstep := legibleRecord_collectTag hr (htokens token List.mem_cons_self)
        exact ih _ hstep fun t ht ↦ htokens t (List.mem_cons_of_mem token ht)
  exact hfold tokens Record.empty (fun _ _ _ hvalue ↦ nomatch hvalue) h

theorem lineFree_orElse {text placeholder : Text} (h : '\n' ∉ text) (h' : '\n' ∉ placeholder) :
    '\n' ∉ orElse text placeholder := by
  rw [orElse]
  split_ifs
  · exact h'
  · exact h

theorem lineFree_digits (n : ℕ) : '\n' ∉ Decimal.digits n :=
  fun hmem ↦ absurd (Decimal.isDigit_digits _ hmem) (by decide)

theorem lineFree_eloText (elo : ℕ) : '\n' ∉ eloText elo := by
  rw [eloText]
  split_ifs
  · decide
  · exact lineFree_digits elo

theorem lineFree_stringifyPath (path : List ℕ) : '\n' ∉ stringifyPath path := by
  have hitems : '\n' ∉ [','].intercalate (path.map Decimal.digits) := by
    induction path with
    | nil => decide
    | cons index path ih =>
        cases path with
        | nil =>
            rw [List.map_singleton, List.intercalate_singleton]
            exact lineFree_digits index
        | cons index' path =>
            rw [List.map_cons, List.map_cons, List.intercalate_cons_cons, ← List.map_cons]
            intro hmem
            rcases List.mem_append.mp hmem with hmem | hmem
            · rcases List.mem_append.mp hmem with hmem | hmem
              · exact lineFree_digits index hmem
              · revert hmem
                decide
            · exact ih hmem
  intro hmem
  rw [stringifyPath, List.mem_cons, List.mem_append] at hmem
  rcases hmem with hmem | hmem | hmem
  · revert hmem
    decide
  · exact hitems hmem
  · revert hmem
    decide

theorem mem_of_mem_trim {text : Text} {c : Char} (h : c ∈ text.trim) : c ∈ text :=
  (List.dropWhile_suffix _).subset ((List.rdropWhile_prefix _ _).subset h)

theorem lineFree_normalizeFen {fen : Text} (h : '\n' ∉ fen) : '\n' ∉ normalizeFen fen := by
  rw [normalizeFen]
  split
  · decide
  · exact fun hmem ↦ h (mem_of_mem_trim hmem)

theorem legibleName_of_isAlpha {name : String} (h : name.toList.all Char.isAlpha = true) :
    LegibleName name := by
  intro c hc
  have halpha := List.all_eq_true.mp h c hc
  refine ⟨?_, ?_, ?_⟩ <;> rintro rfl <;> exact absurd halpha (by decide)

theorem legibleName_rows (game : GameHeaders) : ∀ name ∈ game.rows.map Prod.fst,
    LegibleName name := by
  intro name hname
  apply legibleName_of_isAlpha
  simp only [GameHeaders.rows, List.map_cons, List.map_nil, List.mem_cons, List.not_mem_nil,
    or_false] at hname
  rcases hname with rfl | rfl | rfl | rfl | rfl | rfl | rfl | rfl | rfl | rfl | rfl | rfl | rfl |
    rfl | rfl | rfl | rfl <;> rfl

theorem legible_optionalTags {rows : List (String × Option Text)}
    (hnames : ∀ name ∈ rows.map Prod.fst, LegibleName name)
    (hvalues : ∀ row ∈ rows, ∀ text ∈ row.2, '\n' ∉ text) :
    ∀ tag ∈ optionalTags rows, Legible tag := by
  intro tag htag
  obtain ⟨⟨name, value⟩, hrow, hmem⟩ := List.mem_flatMap.mp htag
  cases value with
  | none => cases hmem
  | some text =>
      rw [optionalTag] at hmem
      split_ifs at hmem
      · cases hmem
      · obtain rfl := List.mem_singleton.mp hmem
        exact ⟨hnames name (List.mem_map_of_mem hrow), hvalues _ hrow text rfl⟩

section

variable {parseJson : Text → Option JsonValue} {r : Record String Text}

theorem lineFree_get? (hr : LegibleRecord r) {name : String} (hname : name ≠ "Result") :
    ∀ text ∈ r.get? name, '\n' ∉ text :=
  fun text htext ↦ (hr name text hname htext).value

theorem lineFree_getD (hr : LegibleRecord r) {name : String} (hname : name ≠ "Result")
    {placeholder : Text} (h : '\n' ∉ placeholder) :
    '\n' ∉ (r.get? name).getD placeholder := by
  cases hvalue : r.get? name with
  | none => exact h
  | some text => exact lineFree_get? hr hname text hvalue

theorem lineFree_rows (hr : LegibleRecord r) :
    ∀ row ∈ (headersOf parseJson r).rows, ∀ text ∈ row.2, '\n' ∉ text := by
  have hmark : '\n' ∉ (['?'] : Text) := by decide
  have hdate : '\n' ∉ "????.??.??".toList := by decide
  have hnil : '\n' ∉ ([] : Text) := List.not_mem_nil
  have hsome : ∀ {value : Text}, '\n' ∉ value → ∀ text ∈ some value, '\n' ∉ text := by
    rintro value hvalue text htext
    obtain rfl := Option.some.inj htext
    exact hvalue
  have hnone : ∀ text ∈ (none : Option Text), '\n' ∉ text := fun _ htext ↦ nomatch htext
  have htime : ∀ text ∈ r.get? "TimeControl", '\n' ∉ text := lineFree_get? hr (by decide)
  have hvariant : ∀ text ∈ r.get? "Variant", '\n' ∉ text := lineFree_get? hr (by decide)
  have hmap : ∀ {α : Type} (f : α → Text) (value : Option α), (∀ a, '\n' ∉ f a) →
      ∀ text ∈ value.map f, '\n' ∉ text := by
    intro α f value hf text htext
    obtain ⟨a, -, rfl⟩ := Option.map_eq_some_iff.mp htext
    exact hf a
  have hresult : ∀ result, '\n' ∉ resultText result := by
    intro result
    cases result <;> decide
  have horientation : ∀ color, '\n' ∉ orientationText color := by
    intro color
    cases color <;> decide
  have hfield : ∀ {name : String} {placeholder : Text}, name ≠ "Result" →
      '\n' ∉ placeholder → ∀ mark : Text, '\n' ∉ mark →
      ∀ text ∈ some (orElse ((r.get? name).getD placeholder) mark), '\n' ∉ text :=
    fun hname hplaceholder _ hmark ↦
      hsome (lineFree_orElse (lineFree_getD hr hname hplaceholder) hmark)
  rw [GameHeaders.rows]
  simp only [List.forall_mem_cons]
  refine ⟨hfield (by decide) hnil _ hmark, hfield (by decide) hnil _ hmark,
    hfield (by decide) hnil _ hdate, hfield (by decide) hmark _ hmark,
    hfield (by decide) hmark _ hmark, hfield (by decide) hmark _ hmark, hsome (hresult _),
    hnone, hmap _ _ lineFree_eloText, hmap _ _ lineFree_eloText,
    hmap _ _ lineFree_stringifyPath, hmap _ _ horientation, htime, hnone, hnone, hnone, hvariant,
    fun _ h ↦ nomatch h⟩

theorem eloKept_eq_some {raw : Option Text} {text : Text} (h : eloKept raw = some text) :
    raw = some text := (Option.filter_eq_some_iff.mp h).1

/-- A tag that is kept aside has the value that was read under its name. -/
theorem get?_of_other {name : String} {value : Text}
    (h : (headersOf parseJson r).other.get? name = some value) :
    name ≠ "Result" ∧ r.get? name = some value := by
  rw [get?_other_headersOf] at h
  split_ifs at h with hwhite hblack hknown
  · rw [hwhite]
    exact ⟨by decide, eloKept_eq_some h⟩
  · rw [hblack]
    exact ⟨by decide, eloKept_eq_some h⟩
  · refine ⟨?_, h⟩
    rintro rfl
    exact hknown (by decide)

theorem legible_knownTags (hr : LegibleRecord r) :
    ∀ tag ∈ (headersOf parseJson r).knownTags, Legible tag := by
  rw [knownTags_eq]
  exact legible_optionalTags (legibleName_rows _) (lineFree_rows hr)

theorem legible_otherTags (hr : LegibleRecord r) :
    ∀ tag ∈ (headersOf parseJson r).otherTags, Legible tag := by
  intro tag htag
  have hentry : tag ∈ (headersOf parseJson r).other.entries :=
    (objectEntries_perm _).subset (List.mem_of_mem_filter htag)
  have hvalue := (Record.lookup_eq_some (headersOf parseJson r).other.nodup).mpr hentry
  obtain ⟨hname, hget⟩ := get?_of_other hvalue
  exact hr _ _ hname hget

end

/-! ## What is written -/

def setUpTags (fen : Text) : List (String × Text) :=
  if fen = initialFen then [] else [("SetUp", ['1']), ("FEN", fen)]

def writtenTags (headers : GameHeaders) : List (String × Text) :=
  headers.knownTags ++ headers.otherTags ++ setUpTags headers.fen

theorem tagLines_append (tags tags' : List (String × Text)) :
    tagLines (tags ++ tags') = tagLines tags ++ tagLines tags' := List.flatMap_append

/-- The tags in front of a game, when no character of the position is escaped. -/
theorem writeTags_eq {headers : GameHeaders} (hfen : ∀ c ∈ headers.fen, isEscaped c = false) :
    writeTags headers.fen headers = tagLines (writtenTags headers) ++ ['\n'] := by
  have hplain : escapeTagValue headers.fen = headers.fen := Escaping.escape_of_plain hfen
  have hone : escapeTagValue ['1'] = ['1'] := by decide
  have hsetUp : (if headers.fen ≠ initialFen then
      tagLine "SetUp" ['1'] ++ tagLine "FEN" headers.fen else []) =
        tagLines (setUpTags headers.fen) := by
    rw [setUpTags, ite_not]
    split_ifs
    · rfl
    · rw [tagLines, List.flatMap_cons, List.flatMap_cons, List.flatMap_nil, List.append_nil, pgnTag,
        pgnTag, hplain, hone]
  rw [writeTags, headersToPGN, hsetUp, writtenTags, tagLines_append, tagLines_append,
    tagLines_append]

theorem readTags_escaped (tags : List (String × Text)) :
    readTags (tags.map fun tag ↦ .header tag.1 (escapeTagValue tag.2)) = Record.ofList tags := by
  have hcollect : (fun (r : Record String Text) (tag : String × Text) ↦
      collectTag r (.header tag.1 (escapeTagValue tag.2))) = fun r tag ↦ r.set tag.1 tag.2 := by
    funext r tag
    rw [collectTag, decode_escape]
  rw [readTags, List.foldl_map, hcollect, Record.ofList]

theorem filterMap_tagName (tags : List (String × Text)) :
    (tags.map fun tag ↦ Token.header tag.1 (escapeTagValue tag.2)).filterMap Token.tagName =
      tags.map Prod.fst := by
  rw [List.filterMap_map]
  exact congrFun List.filterMap_eq_map' tags

theorem nodup_setUpTags (fen : Text) : ((setUpTags fen).map Prod.fst).Nodup := by
  rw [setUpTags]
  split_ifs
  · exact List.nodup_nil
  · change ["SetUp", "FEN"].Nodup
    decide

theorem legible_setUpTags {fen : Text} (hfen : '\n' ∉ fen) :
    ∀ tag ∈ setUpTags fen, Legible tag := by
  intro tag htag
  rw [setUpTags] at htag
  split_ifs at htag
  · cases htag
  · have htags : tag = ("SetUp", ['1']) ∨ tag = ("FEN", fen) := by simpa using htag
    rcases htags with rfl | rfl
    · exact ⟨legibleName_of_isAlpha (show "SetUp".toList.all Char.isAlpha = true by decide),
        by decide⟩
    · exact ⟨legibleName_of_isAlpha (show "FEN".toList.all Char.isAlpha = true by decide), hfen⟩

theorem lookup_setUpTags {fen : Text} {name : String} (hsetUp : name ≠ "SetUp")
    (hfen : name ≠ "FEN") : (setUpTags fen).lookup name = none := by
  rw [setUpTags]
  split_ifs
  · rfl
  · rw [Record.lookup_cons, Record.lookup_cons, if_neg hsetUp, if_neg hfen, List.lookup_nil]

section

variable {game : GameHeaders} (h : game.WellRead)

include h

/-- An Elo tag is kept aside only where there is no number. -/
theorem GameHeaders.WellRead.overridden {name : String} (hname : game.overridden name = true) :
    game.other.get? name = none := by
  have helo : ∀ {elo : Option ℕ} {raw : Option Text}, EloRead elo raw → elo.isSome = true →
      raw = none := by
    rintro elo raw (⟨n, rfl, -, rfl⟩ | ⟨rfl, -⟩) hsome
    · rfl
    · cases hsome
  rw [GameHeaders.overridden, Bool.or_eq_true, Bool.and_eq_true, Bool.and_eq_true, beq_iff_eq,
    beq_iff_eq] at hname
  rcases hname with ⟨rfl, hsome⟩ | ⟨rfl, hsome⟩
  · exact helo h.whiteElo hsome
  · exact helo h.blackElo hsome

theorem GameHeaders.WellRead.lookup_otherTags (name : String) :
    game.otherTags.lookup name = game.other.get? name := by
  rw [PgnHeaders.lookup_otherTags]
  split_ifs with hname
  · exact (h.overridden hname).symm
  · rfl

theorem GameHeaders.WellRead.get?_written (name : String) :
    (Record.ofList (writtenTags game)).get? name =
      ((setUpTags game.fen).lookup name).or
        ((game.other.get? name).or (((game.rows.lookup name).join).filter (· ≠ []))) := by
  rw [Record.get?_ofList, writtenTags, List.reverse_append, List.reverse_append,
    List.lookup_append, List.lookup_append, Record.lookup_reverse (nodup_setUpTags _),
    Record.lookup_reverse (nodup_otherTags _), Record.lookup_reverse (nodup_knownTags _),
    h.lookup_otherTags, lookup_knownTags]

/-- Under the name of a field stands what was written for the field. -/
theorem GameHeaders.WellRead.get?_field {name : String} {value : Option Text}
    (hrow : (name, value) ∈ game.rows) (hname : name ∈ PgnHeaders.fieldTags)
    (hwhite : name ≠ "WhiteElo") (hblack : name ≠ "BlackElo") (hfen : name ≠ "FEN") :
    (Record.ofList (writtenTags game)).get? name = value.filter (· ≠ []) := by
  have hsetUp : name ≠ "SetUp" := by
    rintro rfl
    revert hname
    decide
  rw [h.get?_written, lookup_setUpTags hsetUp hfen, h.fieldTags name hname hwhite hblack,
    (Record.lookup_eq_some (nodup_rows game)).mpr hrow, Option.none_or, Option.none_or]
  rfl

theorem GameHeaders.WellRead.normalizeFen_written :
    normalizeFen (((Record.ofList (writtenTags game)).get? "FEN").getD []) = game.fen := by
  have hrows : game.rows.lookup "FEN" = none := rfl
  rw [h.get?_written, h.fieldTags "FEN" (by decide) (by decide) (by decide), hrows, setUpTags]
  split_ifs with hfen
  · rw [hfen]
    rfl
  · exact h.fen

theorem GameHeaders.WellRead.elo_written :
    (Record.ofList (writtenTags game)).get? "WhiteElo" =
        (game.other.get? "WhiteElo").or (game.whiteElo.map eloText) ∧
      (Record.ofList (writtenTags game)).get? "BlackElo" =
        (game.other.get? "BlackElo").or (game.blackElo.map eloText) := by
  have hwhite : game.rows.lookup "WhiteElo" = some (game.whiteElo.map eloText) :=
    (Record.lookup_eq_some (nodup_rows game)).mpr (by simp [GameHeaders.rows])
  have hblack : game.rows.lookup "BlackElo" = some (game.blackElo.map eloText) :=
    (Record.lookup_eq_some (nodup_rows game)).mpr (by simp [GameHeaders.rows])
  rw [h.get?_written, h.get?_written, lookup_setUpTags (by decide) (by decide),
    lookup_setUpTags (by decide) (by decide), hwhite, hblack, Option.join_some, Option.join_some,
    filter_map_ne_nil eloText_ne_nil, filter_map_ne_nil eloText_ne_nil, Option.none_or,
    Option.none_or]
  exact ⟨rfl, rfl⟩

/-- Under the name of a roster field stands its value or the placeholder. -/
theorem GameHeaders.WellRead.get?_roster {name : String} {text placeholder : Text}
    (hne : placeholder ≠ []) (hrow : (name, some (orElse text placeholder)) ∈ game.rows)
    (hname : name ∈ ["Event", "Site", "Date", "Round", "White", "Black"]) :
    (Record.ofList (writtenTags game)).get? name = some (orElse text placeholder) := by
  rw [← filter_orElse hne]
  simp only [List.mem_cons, List.not_mem_nil, or_false] at hname
  rcases hname with rfl | rfl | rfl | rfl | rfl | rfl <;>
    exact h.get?_field hrow (by decide) (by decide) (by decide) (by decide)

theorem GameHeaders.WellRead.get?_result :
    (Record.ofList (writtenTags game)).get? "Result" = some (resultText game.result) := by
  have hrow : ("Result", some (resultText game.result)) ∈ game.rows := by simp [GameHeaders.rows]
  rw [h.get?_field hrow (by decide) (by decide) (by decide) (by decide)]
  exact Option.filter_some_pos (by simpa using resultText_ne_nil game.result)

theorem GameHeaders.WellRead.get?_orientation :
    (Record.ofList (writtenTags game)).get? "Orientation" =
      game.orientation.map orientationText := by
  have hrow : ("Orientation", game.orientation.map orientationText) ∈ game.rows := by
    simp [GameHeaders.rows]
  rw [h.get?_field hrow (by decide) (by decide) (by decide) (by decide)]
  refine filter_map_ne_nil (fun color ↦ ?_) _
  cases color <;> exact List.cons_ne_nil _ _

theorem GameHeaders.WellRead.get?_start :
    (Record.ofList (writtenTags game)).get? "Start" =
      (game.start.filter (· ≠ [])).map stringifyPath := by
  have hrow : ("Start", (game.start.filter (· ≠ [])).map stringifyPath) ∈ game.rows := by
    simp [GameHeaders.rows]
  rw [h.get?_field hrow (by decide) (by decide) (by decide) (by decide)]
  exact filter_map_ne_nil (fun _ ↦ List.cons_ne_nil _ _) _

theorem GameHeaders.WellRead.fields_written {env : HeaderEnv} (henv : env.Reads) :
    { headersOf env.parseJson (Record.ofList (writtenTags game)) with other := Record.empty } =
      { game.filled with other := Record.empty } := by
  have hmark : (['?'] : Text) ≠ [] := List.cons_ne_nil _ _
  have hdate : "????.??.??".toList ≠ [] := by decide
  have hfen := h.normalizeFen_written
  have hevent : (Record.ofList (writtenTags game)).get? "Event" = some (orElse game.event ['?']) :=
    h.get?_roster hmark (by simp [GameHeaders.rows]) (by decide)
  have hsite : (Record.ofList (writtenTags game)).get? "Site" = some (orElse game.site ['?']) :=
    h.get?_roster hmark (by simp [GameHeaders.rows]) (by decide)
  have hday : (Record.ofList (writtenTags game)).get? "Date" =
      some (orElse game.date "????.??.??".toList) :=
    h.get?_roster hdate (by simp [GameHeaders.rows]) (by decide)
  have hround : (Record.ofList (writtenTags game)).get? "Round" = some (orElse game.round ['?']) :=
    h.get?_roster hmark (by simp [GameHeaders.rows]) (by decide)
  have hwhite : (Record.ofList (writtenTags game)).get? "White" = some (orElse game.white ['?']) :=
    h.get?_roster hmark (by simp [GameHeaders.rows]) (by decide)
  have hblack : (Record.ofList (writtenTags game)).get? "Black" = some (orElse game.black ['?']) :=
    h.get?_roster hmark (by simp [GameHeaders.rows]) (by decide)
  have hresult := h.get?_result
  have horientation := h.get?_orientation
  have htimeControl : (Record.ofList (writtenTags game)).get? "TimeControl" =
      game.timeControl.filter (· ≠ []) :=
    h.get?_field (by simp [GameHeaders.rows]) (by decide) (by decide) (by decide) (by decide)
  have hvariant : (Record.ofList (writtenTags game)).get? "Variant" =
      game.variant.filter (· ≠ []) :=
    h.get?_field (by simp [GameHeaders.rows]) (by decide) (by decide) (by decide) (by decide)
  obtain ⟨hwhiteElo, hblackElo⟩ := h.elo_written
  obtain ⟨path, hpath, hstart⟩ := h.start
  have hpathTag := h.get?_start
  have hreread := hstart.reread henv
  rw [← hpath, ← hpathTag] at hreread
  generalize Record.ofList (writtenTags game) = r at *
  apply GameHeaders.ext
  · exact hfen
  · exact congrArg (Option.getD · []) hevent
  · exact congrArg (Option.getD · []) hsite
  · exact congrArg (Option.getD · []) hday
  · exact h.time.symm
  · exact congrArg (Option.getD · ['?']) hround
  · exact congrArg (Option.getD · ['?']) hwhite
  · exact (parseEloTag_fst _ _ _).trans (hwhiteElo ▸ h.whiteElo.reread.1)
  · exact congrArg (Option.getD · ['?']) hblack
  · exact (parseEloTag_fst _ _ _).trans (hblackElo ▸ h.blackElo.reread.1)
  · exact (congrArg parseResult hresult).trans (parseResult_resultText _)
  · exact htimeControl
  · exact h.whiteTimeControl.symm
  · exact h.blackTimeControl.symm
  · exact h.eco.symm
  · exact hvariant
  · exact (congrArg some hreread).trans hpath.symm
  · exact (congrArg parseOrientation horientation).trans (parseOrientation_orientationText _)
  · rfl

theorem GameHeaders.WellRead.rows_lookup {name : String} (hname : name ∉ PgnHeaders.fieldTags) :
    (game.rows.lookup name).join = none := by
  cases hvalue : game.rows.lookup name with
  | none => rfl
  | some value =>
      have hrow := (Record.lookup_eq_some (nodup_rows game)).mp hvalue
      simp only [GameHeaders.rows, List.mem_cons, Prod.mk.injEq, List.not_mem_nil, or_false] at hrow
      rcases hrow with ⟨rfl, -⟩ | ⟨rfl, -⟩ | ⟨rfl, -⟩ | ⟨rfl, -⟩ | ⟨rfl, -⟩ | ⟨rfl, -⟩ | ⟨rfl, -⟩ |
        ⟨-, rfl⟩ | ⟨rfl, -⟩ | ⟨rfl, -⟩ | ⟨rfl, -⟩ | ⟨rfl, -⟩ | ⟨rfl, -⟩ | ⟨-, rfl⟩ | ⟨-, rfl⟩ |
        ⟨-, rfl⟩ | ⟨rfl, -⟩
      all_goals first | exact absurd (by decide) hname | skip
      · exact h.time
      · exact h.whiteTimeControl
      · exact h.blackTimeControl
      · exact h.eco

theorem GameHeaders.WellRead.other_written {parseJson : Text → Option JsonValue} {name : String}
    (hname : besideSetUp game.fen name = true) :
    (headersOf parseJson (Record.ofList (writtenTags game))).other.get? name =
      game.filled.other.get? name := by
  obtain ⟨hwhite, hblack⟩ := h.elo_written
  rw [get?_other_headersOf]
  split_ifs with hw hb hknown
  · rw [hw, hwhite]
    exact h.whiteElo.reread.2
  · rw [hb, hblack]
    exact h.blackElo.reread.2
  · exact (h.fieldTags name hknown hw hb).symm
  · have hsetUp : (setUpTags game.fen).lookup name = none := by
      rw [besideSetUp, Bool.or_eq_true, bne_iff_ne, beq_iff_eq] at hname
      rcases hname with hname | hname
      · refine lookup_setUpTags hname ?_
        rintro rfl
        exact hknown (by decide)
      · rw [setUpTags, if_pos hname, List.lookup_nil]
    rw [h.get?_written, hsetUp, h.rows_lookup hknown, Option.none_or]
    exact Option.or_none

theorem GameHeaders.WellRead.lookup_knownTags_of_other {name : String} {text : Text}
    (hother : game.otherTags.lookup name = some text) : game.knownTags.lookup name = none := by
  have hget : game.other.get? name = some text := (h.lookup_otherTags name) ▸ hother
  have helo : ∀ {elo : Option ℕ}, EloRead elo (some text) → elo = none := by
    rintro elo (⟨n, -, -, hnone⟩ | ⟨hnone, -⟩)
    · cases hnone
    · exact hnone
  rw [lookup_knownTags]
  by_cases hknown : name ∈ PgnHeaders.fieldTags
  · by_cases hwhite : name = "WhiteElo"
    · subst hwhite
      have hrow : game.rows.lookup "WhiteElo" = some (game.whiteElo.map eloText) :=
        (Record.lookup_eq_some (nodup_rows game)).mpr (by simp [GameHeaders.rows])
      have hnone : game.whiteElo = none := helo (hget ▸ h.whiteElo)
      rw [hrow, hnone]
      rfl
    · by_cases hblack : name = "BlackElo"
      · subst hblack
        have hrow : game.rows.lookup "BlackElo" = some (game.blackElo.map eloText) :=
          (Record.lookup_eq_some (nodup_rows game)).mpr (by simp [GameHeaders.rows])
        have hnone : game.blackElo = none := helo (hget ▸ h.blackElo)
        rw [hrow, hnone]
        rfl
      · rw [h.fieldTags name hknown hwhite hblack] at hget
        cases hget
  · rw [h.rows_lookup hknown]
    rfl

theorem GameHeaders.WellRead.fen_notMem :
    "FEN" ∉ (game.knownTags ++ game.otherTags).map Prod.fst := by
  intro hmem
  rw [List.map_append] at hmem
  rcases List.mem_append.mp hmem with hmem | hmem
  · have hrows : "FEN" ∉ game.rows.map Prod.fst := by simp [GameHeaders.rows]
    exact hrows ((map_fst_optionalTags_sublist game.rows).subset (knownTags_eq game ▸ hmem))
  · obtain ⟨text, htext⟩ := Record.exists_lookup hmem
    rw [h.lookup_otherTags, h.fieldTags "FEN" (by decide) (by decide) (by decide)] at htext
    cases htext

theorem GameHeaders.WellRead.nodup_written :
    (((writtenTags game).map Prod.fst).filter (besideSetUp game.fen)).Nodup := by
  have hgame : ((game.knownTags ++ game.otherTags).map Prod.fst).Nodup := by
    rw [List.map_append]
    refine (nodup_knownTags game).append (nodup_otherTags game) fun name hknown hother ↦ ?_
    obtain ⟨text, htext⟩ := Record.exists_lookup hother
    obtain ⟨text', htext'⟩ := Record.exists_lookup hknown
    rw [h.lookup_knownTags_of_other htext] at htext'
    cases htext'
  rw [writtenTags, List.map_append, List.filter_append]
  refine (hgame.filter _).append ((nodup_setUpTags _).filter _) fun name hname hsetUp ↦ ?_
  obtain ⟨hmem, hbeside⟩ := List.mem_filter.mp hsetUp
  rw [setUpTags] at hmem
  split_ifs at hmem with hfen
  · cases hmem
  · have hnames : name = "SetUp" ∨ name = "FEN" := by simpa using hmem
    rcases hnames with rfl | rfl
    · rw [besideSetUp, Bool.or_eq_true, bne_iff_ne, beq_iff_eq] at hbeside
      rcases hbeside with hbeside | hbeside
      · exact hbeside rfl
      · exact hfen hbeside
    · exact h.fen_notMem (List.mem_of_mem_filter hname)

end

/-! ## The round trip -/

theorem legible_writtenTags {parseJson : Text → Option JsonValue} {r : Record String Text}
    (hr : LegibleRecord r) : ∀ tag ∈ writtenTags (headersOf parseJson r), Legible tag := by
  have hfen : '\n' ∉ (headersOf parseJson r).fen :=
    lineFree_normalizeFen (lineFree_getD hr (by decide) List.not_mem_nil)
  intro tag htag
  rw [writtenTags, List.mem_append, List.mem_append] at htag
  rcases htag with (htag | htag) | htag
  · exact legible_knownTags hr tag htag
  · exact legible_otherTags hr tag htag
  · exact legible_setUpTags hfen tag htag

theorem GameHeaders.WellRead.rereads {env : HeaderEnv} (henv : env.Reads) {game : GameHeaders}
    (h : game.WellRead) (htags : ∀ tag ∈ writtenTags game, Legible tag)
    (hfen : ∀ c ∈ game.fen, isEscaped c = false) :
    env.Rereads (besideSetUp game.fen) game game.filled := by
  have hlex := henv.tags _ htags
  rw [← writeTags_eq hfen] at hlex
  constructor
  · rw [hlex, getPgnHeaders, readTags_escaped]
    exact ⟨h.fields_written henv, fun name hname ↦ h.other_written hname⟩
  · rw [hlex, filterMap_tagName]
    exact h.nodup_written

namespace TagLexer

/-- The text up to the quote that ends it, and what follows. -/
def quoted : Text → Text × Text
  | [] => ([], [])
  | '"' :: text => ([], text)
  | '\\' :: c :: text => ('\\' :: c :: (quoted text).1, (quoted text).2)
  | c :: text => (c :: (quoted text).1, (quoted text).2)

def lexTags : ℕ → Text → List Token
  | fuel + 1, '[' :: text =>
      let name := text.takeWhile (· ≠ '"')
      let value := quoted (text.drop (name.length + 1))
      .header (String.ofList name.dropLast) value.1 :: lexTags fuel (value.2.drop 2)
  | _, _ => []

def parsePath : Text → Option JsonValue
  | '[' :: text =>
      if text = [']'] then some (.array [])
      else
        ((text.dropLast.splitOn ',').mapM (Decimal.parse (maxSafeInteger + 1))).map fun path ↦
          .array (path.map fun index : ℕ ↦ .number index)
  | _ => none

def env : HeaderEnv where
  lexPgn text := lexTags text.length text
  parseJson := parsePath

theorem quoted_escape (value rest : Text) :
    quoted (escapeTagValue value ++ '"' :: rest) = (escapeTagValue value, rest) := by
  induction value with
  | nil => rfl
  | cons c value ih =>
      cases hc : isEscaped c with
      | true =>
          have hescape : escapeTagValue (c :: value) = '\\' :: c :: escapeTagValue value :=
            Escaping.escape_cons_of_special hc
          rw [hescape, List.cons_append, List.cons_append, quoted, ih]
      | false =>
          have hescape : escapeTagValue (c :: value) = c :: escapeTagValue value :=
            Escaping.escape_cons_of_plain hc
          have hmark : c ≠ '\\' := by
            rintro rfl
            cases hc
          have hquote : c ≠ '"' := by
            rintro rfl
            cases hc
          rw [hescape, List.cons_append, quoted, ih]
          · exact hquote
          · exact fun d _ hmatch _ ↦ hmark hmatch

theorem lexTags_tagLine {tag : String × Text} (h : Legible tag) (fuel : ℕ) (rest : Text) :
    lexTags (fuel + 1) (pgnTag tag.1 tag.2 ++ rest) =
      .header tag.1 (escapeTagValue tag.2) :: lexTags fuel rest := by
  obtain ⟨name, value⟩ := tag
  have hname : ∀ c ∈ name.toList ++ [' '], decide (c ≠ '"') = true := by
    intro c hc
    rcases List.mem_append.mp hc with hc | hc
    · exact decide_eq_true (h.name c hc).1
    · obtain rfl := List.mem_singleton.mp hc
      decide
  have htext : pgnTag name value ++ rest = '[' :: ((name.toList ++ [' ']) ++
      '"' :: (escapeTagValue value ++ '"' :: ']' :: '\n' :: rest)) := by
    simp [pgnTag, tagLine]
  have htake : ((name.toList ++ [' ']) ++ '"' ::
      (escapeTagValue value ++ '"' :: ']' :: '\n' :: rest)).takeWhile (· ≠ '"') =
        name.toList ++ [' '] := by
    rw [List.takeWhile_append_of_pos hname, List.takeWhile_cons_of_neg (by decide),
      List.append_nil]
  have hdrop : ((name.toList ++ [' ']) ++ '"' ::
      (escapeTagValue value ++ '"' :: ']' :: '\n' :: rest)).drop
        ((name.toList ++ [' ']).length + 1) =
          escapeTagValue value ++ '"' :: ']' :: '\n' :: rest := by
    rw [← List.drop_drop, List.drop_left]
    rfl
  rw [htext, lexTags]
  dsimp only
  rw [htake, hdrop, quoted_escape, List.dropLast_concat, String.ofList_toList]
  rfl

theorem length_le_tagLines (tags : List (String × Text)) :
    tags.length ≤ (tagLines tags ++ ['\n']).length := by
  rw [List.length_append]
  refine Nat.le_add_right_of_le ?_
  induction tags with
  | nil => exact Nat.zero_le _
  | cons tag tags ih =>
      have hline : 1 ≤ (pgnTag tag.1 tag.2).length := Nat.succ_le_succ (Nat.zero_le _)
      rw [tagLines, List.flatMap_cons, List.length_append, List.length_cons, ← tagLines]
      omega

theorem lexTags_tagLines {tags : List (String × Text)} (h : ∀ tag ∈ tags, Legible tag) {fuel : ℕ}
    (hfuel : tags.length ≤ fuel) :
    lexTags fuel (tagLines tags ++ ['\n']) =
      tags.map fun tag ↦ .header tag.1 (escapeTagValue tag.2) := by
  induction tags generalizing fuel with
  | nil =>
      cases fuel with
      | zero => rfl
      | succ fuel => rfl
  | cons tag tags ih =>
      obtain ⟨fuel, rfl⟩ := Nat.exists_eq_add_of_le' (Nat.lt_of_lt_of_le (Nat.succ_pos _) hfuel)
      have hrest := ih (fun t ht ↦ h t (List.mem_cons_of_mem tag ht)) (Nat.le_of_succ_le_succ hfuel)
      rw [tagLines, List.flatMap_cons, List.append_assoc, ← tagLines,
        lexTags_tagLine (h tag List.mem_cons_self), hrest, List.map_cons]

theorem mapM_parse {path : List ℕ} (h : ∀ index ∈ path, index ≤ maxSafeInteger) :
    (path.map Decimal.digits).mapM (Decimal.parse (maxSafeInteger + 1)) = some path := by
  induction path with
  | nil => rfl
  | cons index path ih =>
      have hindex : Decimal.parse (maxSafeInteger + 1) (Decimal.digits index) = some index :=
        Decimal.parse_digits (Nat.lt_succ_of_le (h index List.mem_cons_self))
      rw [List.map_cons, List.mapM_cons, hindex, ih fun i hi ↦ h i (List.mem_cons_of_mem index hi)]
      rfl

theorem parsePath_stringifyPath {path : List ℕ} (h : ∀ index ∈ path, index ≤ maxSafeInteger) :
    parsePath (stringifyPath path) = some (.array (path.map fun index : ℕ ↦ .number index)) := by
  cases path with
  | nil => rfl
  | cons index path =>
      have hne : (index :: path).map Decimal.digits ≠ [] := List.cons_ne_nil _ _
      have hcomma : ∀ digits ∈ (index :: path).map Decimal.digits, ',' ∉ digits := by
        intro digits hdigits hmem
        obtain ⟨n, -, rfl⟩ := List.mem_map.mp hdigits
        exact absurd (Decimal.isDigit_digits _ hmem) (by decide)
      have hitems : [','].intercalate ((index :: path).map Decimal.digits) ++ [']'] ≠ [']'] := by
        intro heq
        have hnil : [','].intercalate ((index :: path).map Decimal.digits) = [] :=
          List.append_cancel_right (heq : _ = [] ++ [']'])
        have hsplit := List.splitOn_intercalate ',' hcomma hne
        rw [hnil, List.splitOn_nil] at hsplit
        exact Decimal.digits_ne_nil (List.cons.inj hsplit).1.symm
      rw [stringifyPath, parsePath, if_neg hitems, List.dropLast_concat,
        List.splitOn_intercalate ',' hcomma hne, mapM_parse h, Option.map_some]

theorem reads_env : env.Reads where
  tags tags htags := lexTags_tagLines htags (length_le_tagLines tags)
  paths _ hpath := parsePath_stringifyPath hpath

/-- A game with quotes in its event, an Elo that is no number, and a position of its own. -/
def sampleTokens : List Token :=
  [.header "Event" ['\\', '"', 'A', '\\', '"'], .header "WhiteElo" ['a', 'b', 'c'],
    .header "Start" ['[', '0', ',', '1', ']'], .header "FEN" ['8'], .outcome ['*']]

theorem legible_sampleTokens : ∀ token ∈ sampleTokens, token.Legible := by
  intro token htoken
  simp only [sampleTokens, List.mem_cons, List.not_mem_nil, or_false] at htoken
  rcases htoken with rfl | rfl | rfl | rfl | rfl
  · exact ⟨legibleName_of_isAlpha (show "Event".toList.all Char.isAlpha = true by decide),
      show '\n' ∉ _ by decide⟩
  · exact ⟨legibleName_of_isAlpha (show "WhiteElo".toList.all Char.isAlpha = true by decide),
      show '\n' ∉ _ by decide⟩
  · exact ⟨legibleName_of_isAlpha (show "Start".toList.all Char.isAlpha = true by decide),
      show '\n' ∉ _ by decide⟩
  · exact ⟨legibleName_of_isAlpha (show "FEN".toList.all Char.isAlpha = true by decide),
      show '\n' ∉ _ by decide⟩
  · exact trivial

theorem fen_sampleTokens : (getPgnHeaders env.parseJson sampleTokens).fen = ['8'] := by
  have hget : (readTags sampleTokens).get? "FEN" = some ['8'] := by
    simp [readTags, sampleTokens, collectTag, Record.get?_set, decodePgnTagValue, Escaping.unescape]
  change normalizeFen (((readTags sampleTokens).get? "FEN").getD []) = ['8']
  rw [hget]
  decide

theorem plain_sampleTokens :
    ∀ c ∈ (getPgnHeaders env.parseJson sampleTokens).fen, isEscaped c = false := by
  intro c hc
  rw [fen_sampleTokens] at hc
  obtain rfl := List.mem_singleton.mp hc
  rfl

end TagLexer

end EnCroissant.PgnHeaders
