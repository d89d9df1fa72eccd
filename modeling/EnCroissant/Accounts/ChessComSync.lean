import EnCroissant.Accounts.ChessCom

/-!
# Resumable Chess.com syncs

A successful export publishes whole months, the first ones asked for.  Over any
sequence of exports, each from the cursor of the one before, no month is skipped.
-/

namespace EnCroissant

open Calendar (Month)

/-! ## The archives of an index -/

section

variable {archives : List Archive} {archive : Archive}

theorem mem_dedupMonths (h : archive ∈ dedupMonths archives) : archive ∈ archives := by
  induction archives with
  | nil => exact h
  | cons first rest ih =>
      rw [dedupMonths] at h
      cases hrest : dedupMonths rest with
      | nil =>
          rw [hrest] at h
          rw [List.mem_singleton.mp h]
          exact List.mem_cons_self
      | cons next later =>
          rw [hrest] at h ih
          simp only at h
          split_ifs at h with hmonth
          · rcases List.mem_cons.mp h with rfl | hlater
            · exact List.mem_cons_self
            · exact List.mem_cons_of_mem _ (ih (List.mem_cons_of_mem _ hlater))
          · rcases List.mem_cons.mp h with rfl | hnext
            · exact List.mem_cons_self
            · exact List.mem_cons_of_mem _ (ih hnext)

theorem exists_month_dedupMonths (h : archive ∈ archives) :
    ∃ kept ∈ dedupMonths archives, kept.month = archive.month := by
  induction archives with
  | nil => cases h
  | cons first rest ih =>
      rw [dedupMonths]
      cases hrest : dedupMonths rest with
      | nil =>
          rcases List.mem_cons.mp h with rfl | hmem
          · exact ⟨_, List.mem_singleton_self _, rfl⟩
          · obtain ⟨kept, hkept, -⟩ := ih hmem
            rw [hrest] at hkept
            cases hkept
      | cons next later =>
          rw [hrest] at ih
          simp only
          split_ifs with hmonth
          · rcases List.mem_cons.mp h with rfl | hmem
            · exact ⟨_, List.mem_cons_self, rfl⟩
            · obtain ⟨kept, hkept, heq⟩ := ih hmem
              rcases List.mem_cons.mp hkept with rfl | hlater
              · exact ⟨first, List.mem_cons_self, hmonth.trans heq⟩
              · exact ⟨kept, List.mem_cons_of_mem _ hlater, heq⟩
          · rcases List.mem_cons.mp h with rfl | hmem
            · exact ⟨_, List.mem_cons_self, rfl⟩
            · obtain ⟨kept, hkept, heq⟩ := ih hmem
              exact ⟨kept, List.mem_cons_of_mem _ hkept, heq⟩

theorem pairwise_dedupMonths (h : archives.Pairwise fun a b ↦ a.month ≤ b.month) :
    (dedupMonths archives).Pairwise fun a b ↦ a.month < b.month := by
  induction archives with
  | nil => exact .nil
  | cons first rest ih =>
      obtain ⟨hfirst, hrest⟩ := List.pairwise_cons.mp h
      have hle : ∀ archive ∈ dedupMonths rest, first.month ≤ archive.month :=
        fun archive hmem ↦ hfirst archive (mem_dedupMonths hmem)
      have hlt := ih hrest
      rw [dedupMonths]
      cases hdedup : dedupMonths rest with
      | nil => exact List.pairwise_singleton _ _
      | cons next later =>
          rw [hdedup] at hle hlt
          obtain ⟨hnext, hlater⟩ := List.pairwise_cons.mp hlt
          simp only
          split_ifs with hmonth
          · refine List.pairwise_cons.mpr ⟨fun archive hmem ↦ ?_, hlater⟩
            rw [hmonth]
            exact hnext archive hmem
          · have hstrict : first.month < next.month :=
              lt_of_le_of_ne (hle next List.mem_cons_self) hmonth
            refine List.pairwise_cons.mpr ⟨fun archive hmem ↦ ?_, hlt⟩
            rcases List.mem_cons.mp hmem with rfl | hmem
            · exact hstrict
            · exact hstrict.trans (hnext archive hmem)

end

/-- An archive that the index lists. -/
def ChessComSite.Lists (site : ChessComSite) (player : String) (archive : Archive) : Prop :=
  ∃ index, site.index = .ok index ∧
    ∃ value ∈ index, validateArchiveUrl site.parseUrl player value = .ok archive

/-- A month of which the index lists an archive. -/
def ChessComSite.Indexed (site : ChessComSite) (player : String) (month : Month) : Prop :=
  ∃ archive, site.Lists player archive ∧ archive.month = month

section

variable {site : ChessComSite} {player : String} {limits : ExportLimits}
  {scope : ExportScope} {firstMonth : Option Month} {archives : List Archive}

theorem year_of_archiveMonth {year month : String} {found : Month}
    (h : archiveMonth year month = some found) : 2007 ≤ found.year := by
  obtain ⟨y, hy, h'⟩ := Option.bind_eq_some_iff.mp h
  obtain ⟨m, hm, h''⟩ := Option.bind_eq_some_iff.mp h'
  split_ifs at h'' with hrange
  cases h''
  exact hrange.1.1

theorem ChessComSite.Lists.year {archive : Archive} (h : site.Lists player archive) :
    1970 ≤ archive.month.year := by
  obtain ⟨index, -, value, -, hvalid⟩ := h
  rw [validateArchiveUrl] at hvalid
  split at hvalid
  · cases hvalid
  · split_ifs at hvalid
    split at hvalid
    · cases hvalid
    · split_ifs at hvalid
      split at hvalid
      · cases hvalid
      · cases hvalid
        rename_i hmonth
        exact le_trans (by decide) (year_of_archiveMonth hmonth)
    · cases hvalid

theorem mem_of_mapM {α β : Type} {f : α → Except Error β} {l : List α} :
    ∀ {out : List β}, l.mapM f = .ok out → ∀ b, b ∈ out ↔ ∃ a ∈ l, f a = .ok b := by
  induction l with
  | nil =>
      intro out h b
      rw [List.mapM_nil] at h
      cases h
      simp
  | cons a l ih =>
      intro out h b
      rw [List.mapM_cons] at h
      obtain ⟨first, hfirst, hrest⟩ := bind_eq_ok h
      obtain ⟨bs, hbs, hout⟩ := bind_eq_ok hrest
      cases hout
      rw [List.mem_cons, ih hbs]
      constructor
      · rintro (rfl | ⟨a', ha', hb⟩)
        · exact ⟨a, List.mem_cons_self, hfirst⟩
        · exact ⟨a', List.mem_cons_of_mem _ ha', hb⟩
      · rintro ⟨a', ha', hb⟩
        rcases List.mem_cons.mp ha' with rfl | hmem
        · exact .inl (Except.ok.inj (hb.symm.trans hfirst))
        · exact .inr ⟨a', hmem, hb⟩

/-- The requested archives: every indexed month from the first one on, once, in order. -/
structure Requested (site : ChessComSite) (player : String) (firstMonth : Option Month)
    (archives : List Archive) : Prop where
  ascending : archives.Pairwise fun a b ↦ a.month < b.month
  listed : ∀ archive ∈ archives, site.Lists player archive
  indexed : ∀ month, (∃ archive ∈ archives, archive.month = month) ↔
    site.Indexed player month ∧ ∀ first ∈ firstMonth, first ≤ month

theorem requested_of_ok
    (h : requestedArchives site scope limits player firstMonth = .ok archives) :
    Requested site player firstMonth archives := by
  obtain ⟨index, hindex, hguard⟩ := bind_eq_ok h
  obtain ⟨-, hvalidated⟩ := of_guard hguard
  obtain ⟨validated, hvalid, hempty⟩ := bind_eq_ok hvalidated
  obtain ⟨-, hok⟩ := of_guard hempty
  have hsorted : (validated.mergeSort fun a b ↦ a.month ≤ b.month).Pairwise
      fun a b ↦ a.month ≤ b.month := by
    have htrans : ∀ a b c : Archive, decide (a.month ≤ b.month) = true →
        decide (b.month ≤ c.month) = true → decide (a.month ≤ c.month) = true := by
      intro a b c hab hbc
      simp only [decide_eq_true_eq] at hab hbc ⊢
      exact hab.trans hbc
    have htotal : ∀ a b : Archive,
        (decide (a.month ≤ b.month) || decide (b.month ≤ a.month)) = true := by
      intro a b
      simpa using le_total a.month b.month
    have hpairwise := List.pairwise_mergeSort htrans htotal validated
    simpa only [decide_eq_true_eq] using hpairwise
  have hascending := pairwise_dedupMonths hsorted
  have hlisted : ∀ archive ∈ dedupMonths (validated.mergeSort fun a b ↦ a.month ≤ b.month),
      site.Lists player archive := by
    intro archive hmem
    have hmem' := List.mem_mergeSort.mp (mem_dedupMonths hmem)
    obtain ⟨value, hvalue, hok⟩ := (mem_of_mapM hvalid archive).mp hmem'
    exact ⟨index, hindex, value, hvalue, hok⟩
  have hmonths : ∀ month, (∃ archive ∈ dedupMonths (validated.mergeSort fun a b ↦
      a.month ≤ b.month), archive.month = month) ↔ site.Indexed player month := by
    intro month
    constructor
    · rintro ⟨archive, hmem, hmonth⟩
      exact ⟨archive, hlisted archive hmem, hmonth⟩
    · rintro ⟨archive, ⟨index', hindex', value, hvalue, hok⟩, rfl⟩
      cases Except.ok.inj (hindex'.symm.trans hindex)
      have hmem : archive ∈ validated := (mem_of_mapM hvalid archive).mpr ⟨value, hvalue, hok⟩
      obtain ⟨kept, hkept, hmonth⟩ := exists_month_dedupMonths (List.mem_mergeSort.mpr hmem)
      exact ⟨kept, hkept, hmonth⟩
  cases firstMonth with
  | none =>
      cases hok
      refine ⟨hascending, hlisted, fun month ↦ ?_⟩
      rw [hmonths]
      simp
  | some first =>
      cases hok
      refine ⟨hascending.filter _, fun archive hmem ↦ hlisted archive (List.mem_of_mem_filter hmem),
        fun month ↦ ?_⟩
      rw [← hmonths]
      constructor
      · rintro ⟨archive, hmem, rfl⟩
        obtain ⟨hmem, hfirst⟩ := List.mem_filter.mp hmem
        refine ⟨⟨archive, hmem, rfl⟩, fun first' hfirst' ↦ ?_⟩
        cases hfirst'
        simpa using hfirst
      · rintro ⟨⟨archive, hmem, rfl⟩, hfirst⟩
        exact ⟨archive, List.mem_filter.mpr ⟨hmem, by simpa using hfirst first rfl⟩, rfl⟩

end

/-! ## Whole months -/

/-- The games of a month that are exported. -/
def monthPgns (games : List ArchiveGame) : List String :=
  (games.filter acceptedRules).filterMap gamePgn

/-- No game with accepted rules lacks its PGN. -/
def Complete (games : List ArchiveGame) : Prop :=
  ∀ game ∈ games, acceptedRules game = true → (gamePgn game).isSome = true

section

variable {site : ChessComSite} {scope : ExportScope} {limits : ExportLimits}

theorem stageGames_some {limit total : ℕ} {games : List ArchiveGame} {staged staged' : List String}
    {monthBytes monthBytes' : ℕ}
    (h : stageGames limit total games staged monthBytes = .ok (some (staged', monthBytes'))) :
    staged' = staged ++ monthPgns games ∧ Complete games := by
  induction games generalizing staged monthBytes with
  | nil =>
      cases h
      exact ⟨(List.append_nil _).symm, fun game hmem ↦ by cases hmem⟩
  | cons game rest ih =>
      rw [stageGames] at h
      split_ifs at h with hrules
      · obtain ⟨hstaged, hcomplete⟩ := ih h
        have hnot : acceptedRules game ≠ true := by simpa using hrules
        refine ⟨?_, fun other hmem haccepted ↦ ?_⟩
        · rw [hstaged, monthPgns, monthPgns, List.filter_cons_of_neg hnot]
        · rcases List.mem_cons.mp hmem with rfl | hmem
          · exact absurd haccepted hnot
          · exact hcomplete other hmem haccepted
      · have haccepted : acceptedRules game = true := by simpa using hrules
        cases hpgn : gamePgn game with
        | none =>
            rw [hpgn] at h
            cases h
        | some pgn =>
            rw [hpgn] at h
            simp only at h
            split_ifs at h with hbytes
            · cases Except.ok.inj h
            · obtain ⟨hstaged, hcomplete⟩ := ih h
              refine ⟨?_, fun other hmem haccepted' ↦ ?_⟩
              · rw [hstaged, monthPgns, monthPgns, List.filter_cons_of_pos haccepted,
                  List.filterMap_cons_some hpgn, List.append_assoc, List.singleton_append]
              · rcases List.mem_cons.mp hmem with rfl | hmem
                · rw [hpgn]
                  rfl
                · exact hcomplete other hmem haccepted'

/-- A month staged whole. -/
def StagedMonth (site : ChessComSite) (archive : Archive) (staged : List String) : Prop :=
  ∃ games, site.archive archive.url = .ok games ∧ Complete games ∧ staged = monthPgns games

theorem stagedMonth_of_some {limit total monthBytes : ℕ} {archive : Archive}
    {staged : List String}
    (h : stageMonth site limit total archive = .ok (some (staged, monthBytes))) :
    StagedMonth site archive staged := by
  obtain ⟨games, hgames, hguard⟩ := bind_eq_ok h
  obtain ⟨-, hstage⟩ := of_guard hguard
  obtain ⟨hstaged, hcomplete⟩ := stageGames_some hstage
  exact ⟨games, hgames, hcomplete, hstaged⟩

/-- The months staged by the loop are the first ones of its archives. -/
theorem exportMonths_staged {index total : ℕ} {archives : List Archive}
    {months : List (List String)} {lastMonth : Option Month} {staging : Staging}
    (h : exportMonths site scope limits index archives months total lastMonth = .ok staging) :
    ∃ run rest staged, archives = run ++ rest ∧ List.Forall₂ (StagedMonth site) run staged ∧
      staging.months = months ++ staged ∧ (staging.stopped = true ↔ rest ≠ []) ∧
        staging.lastMonth = (run.getLast?.map Archive.month).or lastMonth := by
  induction archives generalizing index months total lastMonth with
  | nil =>
      cases h
      exact ⟨[], [], [], rfl, .nil, (List.append_nil _).symm, by simp, rfl⟩
  | cons archive rest ih =>
      have hstop : ∀ {staging : Staging}, staging = ⟨months, lastMonth, true⟩ →
          ∃ run rest' staged, archive :: rest = run ++ rest' ∧
            List.Forall₂ (StagedMonth site) run staged ∧ staging.months = months ++ staged ∧
              (staging.stopped = true ↔ rest' ≠ []) ∧
                staging.lastMonth = (run.getLast?.map Archive.month).or lastMonth := by
        rintro _ rfl
        exact ⟨[], archive :: rest, [], rfl, .nil, (List.append_nil _).symm, by simp, rfl⟩
      rw [exportMonths] at h
      by_cases hlimit : scope = .resumable ∧ limits.archives ≤ index
      · rw [if_pos hlimit] at h
        exact hstop (Except.ok.inj h).symm
      rw [if_neg hlimit] at h
      by_cases hlate : site.late index = true
      · rw [if_pos hlate] at h
        split_ifs at h with hmonths
        exact hstop (Except.ok.inj h).symm
      rw [if_neg hlate] at h
      cases hstage : stageMonth site limits.pgnBytes total archive with
      | error error =>
          rw [hstage] at h
          cases h
      | ok result =>
          rw [hstage] at h
          cases result with
          | none =>
              simp only at h
              split_ifs at h with hmonths
              exact hstop (Except.ok.inj h).symm
          | some pair =>
              obtain ⟨staged, monthBytes⟩ := pair
              obtain ⟨run, rest', staged', rfl, hrun, hmonths', hstopped, hlast⟩ := ih h
              refine ⟨archive :: run, rest', staged :: staged', rfl,
                .cons (stagedMonth_of_some hstage) hrun, ?_, hstopped, ?_⟩
              · rw [hmonths', List.append_assoc, List.singleton_append]
              · rw [hlast]
                cases run with
                | nil => rfl
                | cons first later =>
                    rw [List.getLast?_cons_cons]
                    simp [List.getLast?_cons]

end

/-- The export published whole months: `run`, the first of those asked for. -/
structure WholeMonths (site : ChessComSite) (player : String) (firstMonth : Option Month)
    (run rest : List Archive) (staged : List (List String)) (download : ChessComDownload) :
    Prop where
  requested : Requested site player firstMonth (run ++ rest)
  nonempty : run ≠ []
  whole : List.Forall₂ (StagedMonth site) run staged
  games : download.games = staged.flatten
  floor : download.coverageFloorMs =
    if rest = [] then none else run.getLast?.map fun archive ↦ nextMonthFloor archive.month

theorem wholeMonths_of_ok {site : ChessComSite} {scope : ExportScope} {limits : ExportLimits}
    {player : String} {since : Option ℤ} {download : ChessComDownload}
    (h : downloadChessComGames site scope limits player since = .ok download) :
    ∃ firstMonth, firstArchiveMonth since = .ok firstMonth ∧
      (∃ run rest staged, WholeMonths site player firstMonth run rest staged download) ∧
        download.sinceMs = firstMonth.map fun month ↦ (month.firstInstant : ℤ) := by
  obtain ⟨firstMonth, hfirst, hrequest⟩ := bind_eq_ok h
  obtain ⟨archives, harchives, hexport⟩ := bind_eq_ok hrequest
  obtain ⟨staging, hstaging, hguard⟩ := bind_eq_ok hexport
  obtain ⟨hmonths, hok⟩ := of_guard hguard
  cases hok
  obtain ⟨run, rest, staged, rfl, hrun, hstaged, hstopped, hlast⟩ := exportMonths_staged hstaging
  rw [List.nil_append] at hstaged
  refine ⟨firstMonth, hfirst, ⟨run, rest, staged, requested_of_ok harchives, ?_, hrun, ?_, ?_⟩, rfl⟩
  · rintro rfl
    cases hrun
    exact hmonths hstaged
  · rw [hstaged]
  · simp only
    by_cases hrest : rest = []
    · have hnot : staging.stopped = false := by
        rw [← Bool.not_eq_true, hstopped]
        exact not_not.mpr hrest
      rw [hnot, if_pos hrest, if_neg Bool.false_ne_true]
    · rw [hstopped.mpr hrest, if_pos rfl, if_neg hrest, hlast, Option.or_none, Option.map_map]
      rfl

/-! ## Histories of exports -/

/-- One export: what the provider answers to it, its limits, and what the cursor is made of
besides. The start of the export is that of its request, or the one its receipt keeps. -/
structure Attempt where
  site : ChessComSite
  limits : ExportLimits
  fromReceipt : Bool
  providerIds : List String
  holds : Option (List CoverageHold)

def Attempt.cursor (attempt : Attempt) (startMs : String → Option ℤ) (since : Option ℤ)
    (download : ChessComDownload) : ℤ :=
  accountSyncCursor "chesscom" (if attempt.fromReceipt then download.sinceMs else since)
    (newestStart startMs download.games) attempt.providerIds attempt.holds
    download.coverageFloorMs

/-- Successful exports in a row, each from the cursor of the one before. -/
inductive Synced (player : String) (startMs : String → Option ℤ) (first : Option ℤ) :
    List (Attempt × ChessComDownload) → Option ℤ → Prop where
  | start : Synced player startMs first [] first
  | next {history : List (Attempt × ChessComDownload)} {since : Option ℤ} {attempt : Attempt}
      {download : ChessComDownload} :
      Synced player startMs first history since →
      downloadChessComGames attempt.site .resumable attempt.limits player since = .ok download →
      Synced player startMs first (history ++ [(attempt, download)])
        (some (attempt.cursor startMs since download))

/-- The export published all games of an indexed month. -/
def Exported (player : String) (month : Month) (entry : Attempt × ChessComDownload) : Prop :=
  ∃ archive games, entry.1.site.Lists player archive ∧ archive.month = month ∧
    entry.1.site.archive archive.url = .ok games ∧ Complete games ∧
      monthPgns games <:+: entry.2.games

/-- No game starts after the month whose archive has it. -/
def StartsInTime (player : String) (startMs : String → Option ℤ) (site : ChessComSite) : Prop :=
  ∀ archive games, site.Lists player archive → site.archive archive.url = .ok games →
    ∀ pgn ∈ monthPgns games, ∀ start ∈ startMs pgn, start < archive.month.next.firstInstant

/-- A later index lists new months only after the ones an earlier index has. -/
def Grows (player : String) (site later : ChessComSite) : Prop :=
  ∀ month, later.Indexed player month → site.Indexed player month ∨
    ∀ earlier, site.Indexed player earlier → earlier < month

section

variable {player : String} {startMs : String → Option ℤ} {site : ChessComSite}

theorem ChessComSite.Indexed.year {month : Month} (h : site.Indexed player month) :
    1970 ≤ month.year := by
  obtain ⟨archive, hlists, rfl⟩ := h
  exact hlists.year

theorem firstInstant_lt {a b : Month} (ha : 1970 ≤ a.year) (hb : 1970 ≤ b.year) (h : a < b) :
    a.firstInstant < b.firstInstant := by
  rw [← Calendar.monthOf_lt_iff hb, Calendar.monthOf_firstInstant ha]
  exact h

theorem year_next {month : Month} (h : 1970 ≤ month.year) : 1970 ≤ month.next.year := by
  rw [Month.next]
  split_ifs <;> simp only <;> omega

/-- The month of a cursor. -/
def cursorMonth (cursor : ℤ) : Month := Calendar.monthOf cursor.toNat

theorem cursorMonth_le_iff {cursor : ℤ} (hcursor : 0 ≤ cursor) {month : Month}
    (hmonth : 1970 ≤ month.year) :
    cursorMonth cursor ≤ month ↔ cursor < month.next.firstInstant := by
  rw [← not_lt, ← Month.next_le_iff, not_le, cursorMonth,
    Calendar.monthOf_lt_iff (year_next hmonth)]
  omega

theorem accountSyncCursor_chesscom (since newest : Option ℤ) (ids : List String)
    (holds : Option (List CoverageHold)) (floor : Option ℤ) :
    accountSyncCursor "chesscom" since newest ids holds floor =
      max (max (newest.getD (since.getD 0)) (since.getD 0)) (floor.getD i64Min) := by
  unfold accountSyncCursor
  exact if_pos (by decide)

theorem cursor_lt {since newest floor : Option ℤ} {ids : List String}
    {holds : Option (List CoverageHold)} {bound : ℤ} (hbound : 0 < bound)
    (hsince : ∀ t ∈ since, t < bound) (hnewest : ∀ t ∈ newest, t < bound)
    (hfloor : ∀ t ∈ floor, t < bound) :
    accountSyncCursor "chesscom" since newest ids holds floor < bound := by
  have hs : since.getD 0 < bound := by
    cases since with
    | none => exact hbound
    | some t => exact hsince t rfl
  rw [accountSyncCursor_chesscom, max_lt_iff, max_lt_iff]
  refine ⟨⟨?_, hs⟩, ?_⟩
  · cases newest with
    | none => exact hs
    | some t => exact hnewest t rfl
  · cases floor with
    | none => exact lt_trans (by decide) hbound
    | some t => exact hfloor t rfl

theorem le_cursor_floor {since newest : Option ℤ} {ids : List String}
    {holds : Option (List CoverageHold)} {floor : ℤ} :
    floor ≤ accountSyncCursor "chesscom" since newest ids holds (some floor) := by
  rw [accountSyncCursor_chesscom]
  exact le_max_right _ _

theorem le_cursor_since {since newest floor : Option ℤ} {ids : List String}
    {holds : Option (List CoverageHold)} :
    since.getD 0 ≤ accountSyncCursor "chesscom" since newest ids holds floor := by
  rw [accountSyncCursor_chesscom]
  exact le_max_of_le_left (le_max_right _ _)

theorem firstArchiveMonth_of_mem {since : Option ℤ} {firstMonth : Option Month} {t : ℤ}
    (h : firstArchiveMonth since = .ok firstMonth) (ht : t ∈ since) :
    0 ≤ t ∧ firstMonth = some (cursorMonth t) := by
  cases ht
  rw [firstArchiveMonth] at h
  split_ifs at h with hnegative hlarge
  cases h
  exact ⟨not_lt.mp hnegative, rfl⟩

theorem firstArchiveMonth_none {firstMonth : Option Month}
    (h : firstArchiveMonth none = .ok firstMonth) : firstMonth = none := by
  cases h
  rfl

section

variable {firstMonth : Option Month} {run rest : List Archive} {staged : List (List String)}
  {download : ChessComDownload}

theorem WholeMonths.le_last (h : WholeMonths site player firstMonth run rest staged download)
    {archive : Archive} (hmem : archive ∈ run) :
    archive.month ≤ (run.getLast h.nonempty).month := by
  have hrun := (List.pairwise_append.mp h.requested.ascending).1
  rw [← List.dropLast_append_getLast h.nonempty] at hmem hrun
  rcases List.mem_append.mp hmem with hinit | hlast
  · exact ((List.pairwise_append.mp hrun).2.2 _ hinit _ (List.mem_singleton_self _)).le
  · rw [List.mem_singleton.mp hlast]

theorem WholeMonths.last_lt (h : WholeMonths site player firstMonth run rest staged download)
    {archive : Archive} (hmem : archive ∈ rest) :
    (run.getLast h.nonempty).month < archive.month :=
  (List.pairwise_append.mp h.requested.ascending).2.2 _ (List.getLast_mem h.nonempty) _ hmem

theorem WholeMonths.lists (h : WholeMonths site player firstMonth run rest staged download)
    {archive : Archive} (hmem : archive ∈ run) : site.Lists player archive :=
  h.requested.listed archive (List.mem_append_left _ hmem)

theorem WholeMonths.first_le (h : WholeMonths site player firstMonth run rest staged download)
    {first : Month} (hfirst : first ∈ firstMonth) :
    first ≤ (run.getLast h.nonempty).month :=
  ((h.requested.indexed _).mp ⟨_, List.mem_append_left _ (List.getLast_mem h.nonempty), rfl⟩).2
    first hfirst

theorem WholeMonths.staged_of_mem
    (h : WholeMonths site player firstMonth run rest staged download) {archive : Archive}
    (hmem : archive ∈ run) :
    ∃ pgns ∈ staged, StagedMonth site archive pgns := by
  obtain ⟨i, hi, rfl⟩ := List.getElem_of_mem hmem
  have hi' : i < staged.length := h.whole.length_eq ▸ hi
  exact ⟨staged[i], List.getElem_mem hi', List.Forall₂.get h.whole hi hi'⟩

theorem WholeMonths.archive_of_mem
    (h : WholeMonths site player firstMonth run rest staged download) {pgns : List String}
    (hmem : pgns ∈ staged) :
    ∃ archive ∈ run, StagedMonth site archive pgns := by
  obtain ⟨i, hi, rfl⟩ := List.getElem_of_mem hmem
  have hi' : i < run.length := h.whole.length_eq ▸ hi
  exact ⟨run[i], List.getElem_mem hi', List.Forall₂.get h.whole hi' hi⟩

/-- No exported game starts after the last exported month. -/
theorem WholeMonths.newest_lt (h : WholeMonths site player firstMonth run rest staged download)
    (hstarts : StartsInTime player startMs site) {t : ℤ}
    (ht : t ∈ newestStart startMs download.games) :
    t < (run.getLast h.nonempty).month.next.firstInstant := by
  obtain ⟨pgn, hpgn, hstart⟩ := List.mem_filterMap.mp (List.max?_mem ht)
  rw [h.games] at hpgn
  obtain ⟨pgns, hpgns, hmem⟩ := List.mem_flatten.mp hpgn
  obtain ⟨archive, harchive, games, hgames, -, rfl⟩ := h.archive_of_mem hpgns
  have hbefore := hstarts archive games (h.lists harchive) hgames pgn hmem t hstart
  have hle := h.le_last harchive
  have hnext : archive.month.next ≤ (run.getLast h.nonempty).month.next := by
    rw [Month.le_iff_number, Month.number_next, Month.number_next]
    exact Nat.succ_le_succ hle
  rcases hnext.lt_or_eq with hlt | heq
  · have hlast := firstInstant_lt (year_next (h.lists harchive).year)
      (year_next (h.lists (List.getLast_mem h.nonempty)).year) hlt
    omega
  · rwa [heq] at hbefore

theorem WholeMonths.exported {attempt : Attempt}
    (h : WholeMonths attempt.site player firstMonth run rest staged download)
    {archive : Archive} (hmem : archive ∈ run) :
    Exported player archive.month (attempt, download) := by
  obtain ⟨pgns, hpgns, games, hgames, hcomplete, rfl⟩ := h.staged_of_mem hmem
  refine ⟨archive, games, h.lists hmem, rfl, hgames, hcomplete, ?_⟩
  obtain ⟨before, after, hsplit⟩ := List.append_of_mem hpgns
  rw [h.games, hsplit, List.flatten_append, List.flatten_cons]
  exact ⟨before.flatten, after.flatten, List.append_assoc _ _ _⟩

end

section

variable {attempt : Attempt} {since : Option ℤ} {firstMonth : Option Month}
  {run rest : List Archive} {staged : List (List String)} {download : ChessComDownload}

/-- The next cursor is in no later month than any that bounds the exported ones, and in no
later month than the first that was left. -/
theorem cursorMonth_le (hfirst : firstArchiveMonth since = .ok firstMonth)
    (h : WholeMonths attempt.site player firstMonth run rest staged download)
    (hreceipt : download.sinceMs = firstMonth.map fun month ↦ (month.firstInstant : ℤ))
    (hstarts : StartsInTime player startMs attempt.site) {month : Month}
    (hlast : (run.getLast h.nonempty).month ≤ month)
    (hrest : rest ≠ [] → (run.getLast h.nonempty).month < month) :
    cursorMonth (attempt.cursor startMs since download) ≤ month := by
  have hlistedLast := h.lists (List.getLast_mem h.nonempty)
  have hyear : 1970 ≤ month.year := by
    have hyearLast := hlistedLast.year
    rcases hlast.lt_or_eq with hlt | heq
    · rcases Month.lt_iff.mp hlt with hlt | ⟨heq, -⟩ <;> omega
    · rw [← heq]
      exact hyearLast
  have hsinceNonneg : 0 ≤ since.getD 0 := by
    cases since with
    | none => exact le_rfl
    | some t => exact (firstArchiveMonth_of_mem hfirst rfl).1
  have hmonth : ∀ first ∈ firstMonth, first ≤ month :=
    fun first hmem ↦ (h.first_le hmem).trans hlast
  have hcontext : ∀ t ∈ (if attempt.fromReceipt then download.sinceMs else since),
      0 ≤ t ∧ t < month.next.firstInstant := by
    intro t ht
    split_ifs at ht with hfrom
    · rw [hreceipt] at ht
      cases since with
      | none =>
          rw [firstArchiveMonth_none hfirst] at ht
          cases ht
      | some t' =>
          obtain ⟨-, rfl⟩ := firstArchiveMonth_of_mem hfirst rfl
          cases ht
          have hle : cursorMonth t' < month.next :=
            lt_of_le_of_lt (hmonth _ rfl) (Month.lt_next month)
          have hlt : ((cursorMonth t').firstInstant : ℤ) < month.next.firstInstant :=
            Int.ofNat_lt.mpr (firstInstant_lt (Calendar.year_monthOf _) (year_next hyear) hle)
          exact ⟨Int.natCast_nonneg _, hlt⟩
    · obtain ⟨hnonneg, rfl⟩ := firstArchiveMonth_of_mem hfirst ht
      exact ⟨hnonneg, (cursorMonth_le_iff hnonneg hyear).mp (hmonth _ rfl)⟩
  have hcontextNonneg : 0 ≤ (if attempt.fromReceipt then download.sinceMs else since).getD 0 := by
    cases hcase : if attempt.fromReceipt then download.sinceMs else since with
    | none => exact le_rfl
    | some t => exact (hcontext t (by rw [hcase]; rfl)).1
  have hnonneg : 0 ≤ attempt.cursor startMs since download :=
    hcontextNonneg.trans le_cursor_since
  rw [cursorMonth_le_iff hnonneg hyear]
  have hnextLast : (run.getLast h.nonempty).month.next ≤ month.next :=
    Month.next_le_iff.mpr (lt_of_le_of_lt hlast (Month.lt_next month))
  have hinstants : ∀ {a : Month}, 1970 ≤ a.year → a ≤ month.next →
      (a.firstInstant : ℤ) ≤ month.next.firstInstant := by
    intro a ha hle
    rcases hle.lt_or_eq with hlt | rfl
    · exact Int.ofNat_le.mpr (firstInstant_lt ha (year_next hyear) hlt).le
    · exact le_rfl
  refine cursor_lt ?_ (fun t ht ↦ (hcontext t ht).2) (fun t ht ↦ ?_) fun t ht ↦ ?_
  · have hpos := firstInstant_lt (a := month) hyear (year_next hyear) (Month.lt_next month)
    omega
  · exact (h.newest_lt hstarts ht).trans_le (hinstants (year_next hlistedLast.year) hnextLast)
  · rw [h.floor] at ht
    split_ifs at ht with hempty
    · cases ht
    rw [List.getLast?_eq_some_getLast h.nonempty] at ht
    cases ht
    have hlt : (run.getLast h.nonempty).month.next < month.next :=
      lt_of_le_of_lt (Month.next_le_iff.mpr (hrest hempty)) (Month.lt_next month)
    exact Int.ofNat_lt.mpr (firstInstant_lt (year_next hlistedLast.year) (year_next hyear) hlt)

/-- An export that stopped early moves the cursor. -/
theorem cursor_advances (hfirst : firstArchiveMonth since = .ok firstMonth)
    (h : WholeMonths attempt.site player firstMonth run rest staged download)
    (hstopped : download.coverageFloorMs ≠ none) :
    since.getD 0 < attempt.cursor startMs since download := by
  have hlistedLast := h.lists (List.getLast_mem h.nonempty)
  have hfloor : download.coverageFloorMs =
      some (nextMonthFloor (run.getLast h.nonempty).month) := by
    have hcase := h.floor
    split_ifs at hcase with hempty
    · exact absurd hcase hstopped
    · rw [hcase, List.getLast?_eq_some_getLast h.nonempty]
      rfl
  have hle : nextMonthFloor (run.getLast h.nonempty).month ≤
      attempt.cursor startMs since download := by
    rw [Attempt.cursor, hfloor]
    exact le_cursor_floor
  refine lt_of_lt_of_le ?_ hle
  cases since with
  | none =>
      have hpos := firstInstant_lt hlistedLast.year (year_next hlistedLast.year)
        (Month.lt_next _)
      rw [nextMonthFloor, Option.getD_none]
      omega
  | some t =>
      obtain ⟨hnonneg, rfl⟩ := firstArchiveMonth_of_mem hfirst rfl
      exact (cursorMonth_le_iff hnonneg hlistedLast.year).mp (h.first_le rfl)

end

/-- Where a history of exports stands: the month of its cursor is reached by the index, and all
indexed months before it were exported. -/
structure Covers (player : String) (first : Option ℤ) (history : List (Attempt × ChessComDownload))
    (site : ChessComSite) (cursor : ℤ) : Prop where
  reached : ∃ month, site.Indexed player month ∧ cursorMonth cursor ≤ month
  exported : ∀ month, site.Indexed player month → (∀ t ∈ first, cursorMonth t ≤ month) →
    month < cursorMonth cursor → ∃ entry ∈ history, Exported player month entry

theorem synced_nil {first since : Option ℤ} (h : Synced player startMs first [] since) :
    since = first := by
  generalize hnil : ([] : List (Attempt × ChessComDownload)) = history at h
  cases h with
  | start => rfl
  | next _ _ =>
      exact absurd hnil.symm (List.append_ne_nil_of_right_ne_nil _ (List.cons_ne_nil _ _))

theorem reached_of_wholeMonths {attempt : Attempt} {since : Option ℤ} {firstMonth : Option Month}
    {run rest : List Archive} {staged : List (List String)} {download : ChessComDownload}
    (hfirst : firstArchiveMonth since = .ok firstMonth)
    (h : WholeMonths attempt.site player firstMonth run rest staged download)
    (hreceipt : download.sinceMs = firstMonth.map fun month ↦ (month.firstInstant : ℤ))
    (hstarts : StartsInTime player startMs attempt.site) :
    ∃ month, attempt.site.Indexed player month ∧
      cursorMonth (attempt.cursor startMs since download) ≤ month := by
  cases hrest : rest with
  | nil =>
      have hlists := h.lists (List.getLast_mem h.nonempty)
      exact ⟨_, ⟨_, hlists, rfl⟩,
        cursorMonth_le hfirst h hreceipt hstarts le_rfl fun hne ↦ absurd hrest hne⟩
  | cons archive later =>
      have hmem : archive ∈ rest := by
        rw [hrest]
        exact List.mem_cons_self
      have hlists := h.requested.listed archive (List.mem_append_right _ hmem)
      exact ⟨_, ⟨_, hlists, rfl⟩, cursorMonth_le hfirst h hreceipt hstarts (h.last_lt hmem).le
        fun _ ↦ h.last_lt hmem⟩

/-- Over a history of exports no indexed month is skipped. -/
theorem Synced.covers {first since : Option ℤ} {history : List (Attempt × ChessComDownload)}
    (h : Synced player startMs first history since)
    (hstarts : ∀ entry ∈ history, StartsInTime player startMs entry.1.site)
    (hgrows : history.Pairwise fun entry later ↦ Grows player entry.1.site later.1.site) :
    ∀ entry ∈ history.getLast?, ∀ cursor ∈ since,
      Covers player first history entry.1.site cursor := by
  induction h with
  | start => exact fun entry hentry ↦ by cases hentry
  | @next history since attempt download hsynced hok ih =>
      intro entry hentry cursor hcursor
      rw [List.getLast?_concat] at hentry
      cases hentry
      cases hcursor
      obtain ⟨hgrows, -, hlater⟩ := List.pairwise_append.mp hgrows
      have ih := ih (fun entry hentry ↦ hstarts entry (List.mem_append_left _ hentry)) hgrows
      have hstart : StartsInTime player startMs attempt.site :=
        hstarts (attempt, download) (List.mem_append_right _ (List.mem_singleton_self _))
      obtain ⟨firstMonth, hfirst, ⟨run, rest, staged, hwhole⟩, hreceipt⟩ := wholeMonths_of_ok hok
      refine ⟨reached_of_wholeMonths hfirst hwhole hreceipt hstart,
        fun month hindexed hafter hbefore ↦ ?_⟩
      by_cases hrequested : ∀ first ∈ firstMonth, first ≤ month
      · obtain ⟨archive, hmem, rfl⟩ :=
          (hwhole.requested.indexed month).mpr ⟨hindexed, hrequested⟩
        rcases List.mem_append.mp hmem with hrun | hrest
        · exact ⟨_, List.mem_append_right _ (List.mem_singleton_self _), hwhole.exported hrun⟩
        · have hle := cursorMonth_le hfirst hwhole hreceipt hstart (hwhole.last_lt hrest).le
            fun _ ↦ hwhole.last_lt hrest
          exact absurd hbefore (not_lt.mpr hle)
      · push Not at hrequested
        obtain ⟨found, hfound, hlt⟩ := hrequested
        cases since with
        | none =>
            rw [firstArchiveMonth_none hfirst] at hfound
            cases hfound
        | some t =>
            obtain ⟨-, rfl⟩ := firstArchiveMonth_of_mem hfirst rfl
            cases hfound
            rcases List.eq_nil_or_concat history with rfl | ⟨earlier, last, rfl⟩
            · cases synced_nil hsynced
              exact absurd hlt (not_lt.mpr (hafter t rfl))
            · rw [List.concat_eq_append] at ih hlater ⊢
              have hcovers := ih last (by rw [List.getLast?_concat]; rfl) t rfl
              have hgrow := hlater last (List.mem_append_right _ (List.mem_singleton_self _))
                (attempt, download) (List.mem_singleton_self _)
              rcases hgrow month hindexed with hold | hnew
              · obtain ⟨entry, hentry, hexported⟩ := hcovers.exported month hold hafter hlt
                exact ⟨entry, List.mem_append_left _ hentry, hexported⟩
              · obtain ⟨reached, hreached, hle⟩ := hcovers.reached
                exact absurd ((hnew reached hreached).trans hlt) (not_lt.mpr hle)

end

/-- A resumable export publishes whole months, an export that stopped early moves the cursor,
and a history of exports skips no month. -/
theorem resumable_sync (player : String) (startMs : String → Option ℤ) :
    (∀ site limits since download,
      downloadChessComGames site .resumable limits player since = .ok download →
        ∃ firstMonth run rest staged, firstArchiveMonth since = .ok firstMonth ∧
          WholeMonths site player firstMonth run rest staged download) ∧
      (∀ (attempt : Attempt) since download,
        downloadChessComGames attempt.site .resumable attempt.limits player since = .ok download →
          download.coverageFloorMs ≠ none →
            since.getD 0 < attempt.cursor startMs since download) ∧
        ∀ first history cursor entry, Synced player startMs first history (some cursor) →
          entry ∈ history.getLast? →
            (∀ entry ∈ history, StartsInTime player startMs entry.1.site) →
              (history.Pairwise fun entry later ↦ Grows player entry.1.site later.1.site) →
                ∀ month, entry.1.site.Indexed player month →
                  (∀ t ∈ first, cursorMonth t ≤ month) → month < cursorMonth cursor →
                    ∃ entry ∈ history, Exported player month entry := by
  refine ⟨fun site limits since download hok ↦ ?_, fun attempt since download hok hstopped ↦ ?_,
    fun first history cursor entry hsynced hentry hstarts hgrows ↦ ?_⟩
  · obtain ⟨firstMonth, hfirst, ⟨run, rest, staged, hwhole⟩, -⟩ := wholeMonths_of_ok hok
    exact ⟨firstMonth, run, rest, staged, hfirst, hwhole⟩
  · obtain ⟨firstMonth, hfirst, ⟨run, rest, staged, hwhole⟩, -⟩ := wholeMonths_of_ok hok
    exact cursor_advances hfirst hwhole hstopped
  · exact (hsynced.covers hstarts hgrows entry hentry cursor rfl).exported

/-! ## A small instance

A player with one game in each of two months. -/

namespace TwoMonths

def januaryAddress : String := "https://api.chess.com/pub/player/en/games/2020/01"

def februaryAddress : String := "https://api.chess.com/pub/player/en/games/2020/02"

def url (month : String) : Url :=
  ⟨"https", some "api.chess.com", some 443, "", none, none, none,
    some ["pub", "player", "en", "games", "2020", month]⟩

def parseUrl (value : String) : Option Url :=
  if value = januaryAddress then some (url "01")
  else if value = februaryAddress then some (url "02")
  else none

def archive (url : Url) : Except Error (List ArchiveGame) :=
  .ok [⟨some (if url = TwoMonths.url "01" then "1. e4 e5" else "1. d4 d5"), some "chess"⟩]

def site : ChessComSite where
  parseUrl := parseUrl
  index := .ok [januaryAddress, februaryAddress]
  archive := archive
  late := fun _ ↦ false

def january : Month := ⟨2020, 1, by decide, by decide⟩

def february : Month := ⟨2020, 2, by decide, by decide⟩

/-- The games start on the last day of January and on the first of February, at noon. -/
def startMs (pgn : String) : Option ℤ :=
  if pgn = "1. e4 e5" then some 1580472000000 else some 1580558400000

def oneMonth : Attempt := ⟨site, ⟨1000, 1⟩, true, [], none⟩

def allMonths : Attempt := ⟨site, .default, true, [], none⟩

def afterJanuary : ChessComDownload := ⟨["1. e4 e5"], none, some 1580515200000⟩

def afterFebruary : ChessComDownload := ⟨["1. d4 d5"], some 1580515200000, none⟩

def archives : List Archive := [⟨url "01", january⟩, ⟨url "02", february⟩]

theorem validated :
    [januaryAddress, februaryAddress].mapM (validateArchiveUrl parseUrl "en") = .ok archives := by
  decide

theorem sorted : (archives.mergeSort fun a b ↦ a.month ≤ b.month) = archives :=
  List.mergeSort_of_pairwise (by decide)

theorem requested_oneMonth :
    requestedArchives site .resumable ⟨1000, 1⟩ "en" none = .ok archives := by
  have hguard : ¬(ExportScope.resumable = .complete ∧ 1 < [januaryAddress, februaryAddress].length) :=
    fun h ↦ by cases h.1
  simp only [requestedArchives, site, bind, Except.bind, if_neg hguard, validated, sorted]
  decide

theorem requested_allMonths :
    requestedArchives site .resumable .default "en" (some february) =
      .ok [⟨url "02", february⟩] := by
  have hguard : ¬(ExportScope.resumable = .complete ∧
      ExportLimits.default.archives < [januaryAddress, februaryAddress].length) :=
    fun h ↦ by cases h.1
  simp only [requestedArchives, site, bind, Except.bind, if_neg hguard, validated, sorted]
  decide

/-- Each attempt stops where it should. -/
theorem downloads :
    downloadChessComGames site .resumable ⟨1000, 1⟩ "en" none = .ok afterJanuary ∧
      downloadChessComGames site .resumable .default "en" (some 1580515200000) =
        .ok afterFebruary := by
  constructor
  · have hfirst : firstArchiveMonth none = .ok none := rfl
    simp only [downloadChessComGames, hfirst, bind, Except.bind, requested_oneMonth]
    decide +kernel
  · have hfirst : firstArchiveMonth (some 1580515200000) = .ok (some february) := by
      decide +kernel
    simp only [downloadChessComGames, hfirst, bind, Except.bind, requested_allMonths]
    decide +kernel

def history : List (Attempt × ChessComDownload) :=
  [(oneMonth, afterJanuary), (allMonths, afterFebruary)]

theorem cursor_oneMonth : oneMonth.cursor startMs none afterJanuary = 1580515200000 := by
  decide

theorem cursor_allMonths :
    allMonths.cursor startMs (some 1580515200000) afterFebruary = 1580558400000 := by
  decide

theorem synced_history : Synced "en" startMs none history (some 1580558400000) := by
  have hfirst : Synced "en" startMs none [(oneMonth, afterJanuary)] (some 1580515200000) := by
    rw [← cursor_oneMonth]
    exact .next .start downloads.1
  rw [← cursor_allMonths]
  exact .next hfirst downloads.2

theorem lists_cases {archive : Archive} (h : site.Lists "en" archive) :
    archive = ⟨url "01", january⟩ ∨ archive = ⟨url "02", february⟩ := by
  obtain ⟨index, hindex, value, hvalue, hvalid⟩ := h
  cases hindex
  have hpair : archive ∈ archives :=
    (mem_of_mapM validated archive).mpr ⟨value, hvalue, hvalid⟩
  simpa [archives] using hpair

theorem indexed_january : site.Indexed "en" january := by
  refine ⟨⟨url "01", january⟩, ⟨_, rfl, januaryAddress, List.mem_cons_self, ?_⟩, rfl⟩
  decide

/-- Both games start before the next month, and the last cursor lies in February. -/
theorem instants :
    (1580472000000 : ℤ) < january.next.firstInstant ∧
      (1580558400000 : ℤ) < february.next.firstInstant ∧ january < cursorMonth 1580558400000 := by
  decide +kernel

theorem startsInTime : StartsInTime "en" startMs site := by
  intro archive games hlists hgames pgn hpgn t ht
  rcases lists_cases hlists with rfl | rfl
  · cases hgames
    have hone : pgn = "1. e4 e5" := by
      have hgames : monthPgns [⟨some "1. e4 e5", some "chess"⟩] = ["1. e4 e5"] := by decide
      exact List.mem_singleton.mp (hgames ▸ hpgn)
    subst hone
    cases ht
    exact instants.1
  · cases hgames
    have hone : pgn = "1. d4 d5" := by
      have hgames : monthPgns [⟨some "1. d4 d5", some "chess"⟩] = ["1. d4 d5"] := by decide
      exact List.mem_singleton.mp (hgames ▸ hpgn)
    subst hone
    cases ht
    exact instants.2.1

theorem resumable_sync_history :
    (∃ firstMonth run rest staged,
      firstArchiveMonth (some 1580515200000) = .ok firstMonth ∧
        WholeMonths site "en" firstMonth run rest staged afterFebruary) ∧
      0 < oneMonth.cursor startMs none afterJanuary ∧
        ∃ entry ∈ history, Exported "en" january entry := by
  obtain ⟨hwhole, hadvance, hcovers⟩ := resumable_sync "en" startMs
  refine ⟨hwhole site .default _ _ downloads.2,
    hadvance oneMonth none _ downloads.1 (by decide), ?_⟩
  refine hcovers none history _ (allMonths, afterFebruary) synced_history rfl ?_ ?_ january
    indexed_january (fun t ht ↦ by cases ht) instants.2.2
  · intro entry hentry
    rcases List.mem_cons.mp hentry with rfl | hentry
    · exact startsInTime
    · rw [List.mem_singleton.mp hentry]
      exact startsInTime
  · refine List.pairwise_pair.mpr fun month hindexed ↦ .inl hindexed

/-- A history that starts from a given instant leaves the months before it out. -/
theorem january_left_out :
    Synced "en" startMs (some 1580515200000) [(allMonths, afterFebruary)] (some 1580558400000) ∧
      StartsInTime "en" startMs site ∧ site.Indexed "en" january ∧
        january < cursorMonth 1580558400000 ∧
          ¬∃ entry ∈ [(allMonths, afterFebruary)], Exported "en" january entry := by
  refine ⟨?_, startsInTime, indexed_january, instants.2.2, ?_⟩
  · rw [← cursor_allMonths]
    exact .next .start downloads.2
  · rintro ⟨entry, hentry, archive, games, hlists, hmonth, hgames, -, hinfix⟩
    cases List.mem_singleton.mp hentry
    rcases lists_cases hlists with rfl | rfl
    · cases hgames
      revert hinfix
      decide
    · revert hmonth
      decide

end TwoMonths

end EnCroissant
