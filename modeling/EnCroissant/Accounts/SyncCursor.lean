import EnCroissant.Library.Decimal
import EnCroissant.Accounts.AccountImporter
import EnCroissant.Accounts.Coverage

/-!
# Lichess syncs

A sync downloads an export and the coverage listing behind it, imports the games and
stores the cursor from which the next sync goes on.  A game that is listed but not
downloaded, or still going on, keeps the cursor below its start; over any sequence of
syncs no game is passed over.
-/

namespace EnCroissant

/-! ## The cursor -/

section

variable {since newest floor : Option ℤ} {ids : List String} {holds : List CoverageHold}

/-- What the holds leave of the newest start. -/
def heldBack (since : ℤ) (ids : List String) (holds : List CoverageHold) : List ℤ :=
  (holds.filter fun hold ↦ hold.ongoing || hold.id ∉ ids).map fun hold ↦
    max (saturatingSub hold.createdAtMs 1) since

theorem accountSyncCursor_lichess (holds : List CoverageHold) :
    accountSyncCursor "lichess" since newest ids (some holds) floor =
      max ((heldBack (since.getD 0) ids holds).min?.elim
        (max (newest.getD (since.getD 0)) (since.getD 0))
        (min (max (newest.getD (since.getD 0)) (since.getD 0)))) (floor.getD i64Min) := by
  rw [accountSyncCursor]
  exact if_neg (not_not_intro rfl)

theorem accountSyncCursor_unlisted :
    accountSyncCursor "lichess" since newest ids none floor =
      max (since.getD 0) (floor.getD i64Min) := by
  rw [accountSyncCursor]
  exact if_neg (not_not_intro rfl)

theorem le_of_mem_heldBack {since t : ℤ} (h : t ∈ heldBack since ids holds) : since ≤ t := by
  obtain ⟨hold, -, rfl⟩ := List.mem_map.mp h
  exact le_max_right _ _

theorem since_le_accountSyncCursor (holds : Option (List CoverageHold)) :
    since.getD 0 ≤ accountSyncCursor "lichess" since newest ids holds floor := by
  cases holds with
  | none =>
      rw [accountSyncCursor_unlisted]
      exact le_max_left _ _
  | some holds =>
      rw [accountSyncCursor_lichess]
      apply le_max_of_le_left
      cases hmin : (heldBack (since.getD 0) ids holds).min? with
      | none => exact le_max_right _ _
      | some t => exact le_min (le_max_right _ _) (le_of_mem_heldBack (List.min?_mem hmin))

theorem floor_le_accountSyncCursor (holds : Option (List CoverageHold)) :
    floor.getD i64Min ≤ accountSyncCursor "lichess" since newest ids holds floor := by
  cases holds with
  | none =>
      rw [accountSyncCursor_unlisted]
      exact le_max_right _ _
  | some holds =>
      rw [accountSyncCursor_lichess]
      exact le_max_right _ _

/-- A game that is going on or not downloaded stays above the cursor. -/
theorem accountSyncCursor_lt_hold {hold : CoverageHold} (hhold : hold ∈ holds)
    (hheld : hold.ongoing = true ∨ hold.id ∉ ids) (hsince : i64Min ≤ since.getD 0)
    (hbegan : since.getD 0 < hold.createdAtMs) :
    accountSyncCursor "lichess" since newest ids (some holds) none < hold.createdAtMs := by
  have hmem : max (saturatingSub hold.createdAtMs 1) (since.getD 0) ∈
      heldBack (since.getD 0) ids holds := by
    apply List.mem_map_of_mem
    rw [List.mem_filter, Bool.or_eq_true, decide_eq_true_iff]
    exact ⟨hhold, hheld⟩
  have hbelow : max (saturatingSub hold.createdAtMs 1) (since.getD 0) < hold.createdAtMs := by
    rw [saturatingSub]
    omega
  rw [accountSyncCursor_lichess, Option.getD_none]
  apply max_lt ?_ (hsince.trans_lt hbegan)
  cases hmin : (heldBack (since.getD 0) ids holds).min? with
  | none =>
      rw [List.min?_eq_none_iff.mp hmin] at hmem
      cases hmem
  | some t =>
      have ht := (List.min?_eq_some_iff.mp hmin).2 _ hmem
      exact (min_le_right _ _).trans_lt (ht.trans_lt hbelow)

/-- The cursor is not above the newest start, nor the cursor before it. -/
theorem accountSyncCursor_le {bound : ℤ} (hsince : since.getD 0 ≤ bound)
    (hnewest : ∀ t ∈ newest, t ≤ bound) (hbound : i64Min ≤ bound) :
    accountSyncCursor "lichess" since newest ids (some holds) none ≤ bound := by
  have hmax : max (newest.getD (since.getD 0)) (since.getD 0) ≤ bound := by
    apply max_le ?_ hsince
    cases newest with
    | none => exact hsince
    | some t => exact hnewest t rfl
  rw [accountSyncCursor_lichess, Option.getD_none]
  apply max_le ?_ hbound
  cases (heldBack (since.getD 0) ids holds).min? with
  | none => exact hmax
  | some t => exact (min_le_left _ _).trans hmax

end

/-! ## A sync -/

/-- What Lichess answers to one sync: the export, and the listing at some later time. -/
structure LichessSync (S : Shakmaty) where
  games : List (AccountGame S)
  contentLength : Option ℕ
  listing : List (List UInt8)
  listedAt : ℤ

/-- `account_sync_cursor_blocking`: the cursor that the last sync has stored. -/
def storedSyncCursor (adb : AccountDb) : Except Error (Option ℤ) :=
  match (adb.db.info.lookup "AccountSyncCursor").bind id with
  | none => .ok none
  | some value =>
      match Db.parseRevision value with
      | some cursor => .ok (some cursor)
      | none => .error (.invalidInput "invalid account sync cursor")

def lichessContext (identity : AccountIdentity) (since : Option ℤ) (holds : List CoverageHold) :
    AccountImportContext where
  identity := identity
  accountSyncCursor := fun newest ids ↦
    accountSyncCursor identity.provider since newest (ids.sort (· ≤ ·)) (some holds) none

section

variable {S : Shakmaty} (env : AccountEnv) (parse : CoverageReader) (identity : AccountIdentity)

def syncLichess (adb : AccountDb) (sync : LichessSync S) : Except Error AccountDb := do
  let since ← storedSyncCursor adb
  let holds ← downloadCoverageHolds parse sync.contentLength (sync.listing.map .ok)
  importAccount env (lichessContext identity since holds) adb sync.games

/-! ## What a sync stores -/

section

variable {env parse identity}
variable {adb adb' : AccountDb} {importer importer' : AccountImporter}

/-- The start of a game of an export. -/
def AccountGame.start (env : AccountEnv) (game : AccountGame S) : Option ℤ :=
  game.date.bind fun date ↦ game.time.bind fun time ↦ env.startMs date time

/-- What an import has noted besides: the newest start, and the ids of its games. -/
structure AccountImporter.Notes (env : AccountEnv) (importer : AccountImporter)
    (games : List (AccountGame S)) (importer' : AccountImporter) : Prop where
  context : importer'.context = importer.context
  newest : ∀ t ∈ importer'.newestStartMs,
    t ∈ importer.newestStartMs ∨ ∃ game ∈ games, t ∈ game.start env
  ids : ∀ id ∈ importer'.providerIds, id ∈ importer.providerIds ∨
    ∃ game ∈ games, env.providerGameId game.providerHeaders importer.context.identity = .ok (some id)

theorem store_notes {game : AccountGame S} {fingerprint : String} {gameId : ℤ}
    (h : importer.store adb game fingerprint = .ok (adb', importer', gameId)) :
    importer'.context = importer.context ∧ importer'.newestStartMs = importer.newestStartMs ∧
      importer'.providerIds = importer.providerIds := by
  rw [AccountImporter.store] at h
  obtain ⟨⟨db, id⟩, -, h⟩ := bind_eq_ok h
  obtain ⟨fingerprints, -, h⟩ := bind_eq_ok h
  cases h
  exact ⟨rfl, rfl, rfl⟩

theorem insertIdentified_notes {game : AccountGame S} {id fingerprint : String} {inserted : Bool}
    (h : importer.insertIdentified adb game id fingerprint = .ok (adb', importer', inserted)) :
    importer'.context = importer.context ∧ importer'.newestStartMs = importer.newestStartMs ∧
      importer'.providerIds = importer.providerIds := by
  rw [AccountImporter.insertIdentified] at h
  dsimp only at h
  split_ifs at h with hknown
  · cases h
    exact ⟨rfl, rfl, rfl⟩
  · cases hlegacy : importer.legacyGame adb fingerprint with
    | some gameId =>
        rw [hlegacy] at h
        obtain ⟨linked, -, h⟩ := bind_eq_ok h
        cases h
        exact ⟨rfl, rfl, rfl⟩
    | none =>
        rw [hlegacy] at h
        obtain ⟨⟨stored, storing, gameId⟩, hstore, h⟩ := bind_eq_ok h
        obtain ⟨linked, -, h⟩ := bind_eq_ok h
        cases h
        exact store_notes hstore

theorem insertUnidentified_notes {game : AccountGame S} {fingerprint : String} {inserted : Bool}
    (h : importer.insertUnidentified adb game fingerprint = .ok (adb', importer', inserted)) :
    importer'.context = importer.context ∧ importer'.newestStartMs = importer.newestStartMs ∧
      importer'.providerIds = importer.providerIds := by
  rw [AccountImporter.insertUnidentified] at h
  split_ifs at h with hknown
  · cases h
    exact ⟨rfl, rfl, rfl⟩
  · obtain ⟨⟨stored, storing, gameId⟩, hstore, h⟩ := bind_eq_ok h
    cases h
    exact store_notes hstore

theorem mem_max_or {a b : Option ℤ} {t : ℤ} (h : t ∈ max a b) : t ∈ a ∨ t ∈ b := by
  cases a with
  | none =>
      cases b with
      | none => cases h
      | some y => exact Or.inr h
  | some x =>
      cases b with
      | none => exact Or.inl h
      | some y =>
          obtain rfl : max x y = t := Option.some.inj h
          exact (max_choice x y).imp (congrArg some ·.symm) (congrArg some ·.symm)

theorem insert_notes {game : AccountGame S} {inserted : Bool}
    (h : importer.insert env adb game = .ok (adb', importer', inserted)) :
    importer.Notes env [game] importer' := by
  rw [AccountImporter.insert] at h
  obtain ⟨id, hid, h⟩ := bind_eq_ok h
  have hnewest : ∀ t ∈ max importer.newestStartMs (game.start env),
      t ∈ importer.newestStartMs ∨ ∃ game' ∈ [game], t ∈ game'.start env :=
    fun t ht ↦ (mem_max_or ht).imp_right fun hstart ↦ ⟨game, List.mem_singleton_self _, hstart⟩
  cases id with
  | none =>
      obtain ⟨hcontext, hnewest', hids⟩ := insertUnidentified_notes h
      refine ⟨hcontext, ?_, ?_⟩
      · rw [hnewest']
        exact hnewest
      · rw [hids]
        exact fun id hmem ↦ Or.inl hmem
  | some id =>
      obtain ⟨hcontext, hnewest', hids⟩ := insertIdentified_notes h
      refine ⟨hcontext, ?_, ?_⟩
      · rw [hnewest']
        exact hnewest
      · rw [hids]
        intro id' hmem
        rcases Finset.mem_union.mp hmem with hmem | hmem
        · rw [Finset.mem_singleton] at hmem
          exact Or.inr ⟨game, List.mem_singleton_self _, hmem ▸ hid⟩
        · exact Or.inl hmem

theorem insertAll_notes {games : List (AccountGame S)}
    (h : importer.insertAll env adb games = .ok (adb', importer')) :
    importer.Notes env games importer' := by
  induction games generalizing adb importer with
  | nil =>
      cases h
      exact ⟨rfl, fun t ht ↦ Or.inl ht, fun id hid ↦ Or.inl hid⟩
  | cons game games ih =>
      obtain ⟨⟨adb₁, importer₁, inserted⟩, hinsert, hrest⟩ := bind_eq_ok h
      have hgame := insert_notes hinsert
      have hgames := ih hrest
      refine ⟨hgames.context.trans hgame.context, fun t ht ↦ ?_, fun id hid ↦ ?_⟩
      · rcases hgames.newest t ht with hearlier | ⟨game', hmem, hstart⟩
        · exact (hgame.newest t hearlier).imp_right fun ⟨game', hmem, hstart⟩ ↦
            ⟨game', List.mem_cons.mpr (Or.inl (List.mem_singleton.mp hmem)), hstart⟩
        · exact Or.inr ⟨game', List.mem_cons_of_mem _ hmem, hstart⟩
      · rcases hgames.ids id hid with hearlier | ⟨game', hmem, hgameId⟩
        · exact (hgame.ids id hearlier).imp_right fun ⟨game', hmem, hgameId⟩ ↦
            ⟨game', List.mem_cons.mpr (Or.inl (List.mem_singleton.mp hmem)), hgameId⟩
        · rw [hgame.context] at hgameId
          exact Or.inr ⟨game', List.mem_cons_of_mem _ hmem, hgameId⟩

/-- A successful import stores the cursor of what it has noted. -/
theorem importAccount_eq_ok {context : AccountImportContext} {games : List (AccountGame S)}
    (h : importAccount env context adb games = .ok adb') :
    ∃ importer', (AccountImporter.new env adb context).Notes env games importer' ∧
      adb'.db.info.lookup "AccountSyncCursor" = some (some (toString
        (context.accountSyncCursor importer'.newestStartMs importer'.providerIds))) := by
  obtain ⟨⟨done, importer'⟩, hall, h⟩ := bind_eq_ok h
  cases h
  have hnotes := insertAll_notes hall
  refine ⟨importer', hnotes, ?_⟩
  rw [← show importer'.context = context from hnotes.context]
  exact AList.lookup_insert _

theorem parseRevision_toString {n : ℕ} (h : n ≤ Db.i64Max) :
    Db.parseRevision (toString (n : ℤ)) = some n := by
  have htext : (toString (n : ℤ)).toList = Decimal.digits n := String.toList_ofList
  have hnumeral : Sqlite.numeral (Decimal.digits n) = n := by
    have hvalue := Decimal.ofDigitChars_digits (n := n)
    rw [Nat.ofDigitChars_eq_foldl] at hvalue
    rw [Sqlite.numeral]
    simp only [Nat.mul_comm _ 10]
    exact hvalue
  have hdigits : (Decimal.digits n).all Char.isDigit = true :=
    List.all_eq_true.mpr Decimal.isDigit_digits
  rw [Db.parseRevision, htext]
  cases hfirst : Decimal.digits n with
  | nil => exact absurd hfirst Decimal.digits_ne_nil
  | cons c rest =>
      have hc : c.isDigit = true :=
        Decimal.isDigit_digits c (hfirst ▸ List.mem_cons_self ..)
      have hplus : c ≠ '+' := by
        rintro rfl
        exact absurd hc (by decide)
      have hminus : c ≠ '-' := by
        rintro rfl
        exact absurd hc (by decide)
      rw [hfirst] at hnumeral hdigits
      split
      rename_i negative unsigned heq
      split at heq
      · rename_i hsign
        exact absurd (List.cons.inj hsign).1 hplus
      · rename_i hsign
        exact absurd (List.cons.inj hsign).1 hminus
      · cases heq
        simp [hnumeral, hdigits, h]

theorem storedSyncCursor_of_lookup {cursor : ℤ} (hlow : 0 ≤ cursor) (hhigh : cursor ≤ Db.i64Max)
    (h : adb.db.info.lookup "AccountSyncCursor" = some (some (toString cursor))) :
    storedSyncCursor adb = .ok (some cursor) := by
  obtain ⟨n, rfl⟩ := Int.eq_ofNat_of_zero_le hlow
  rw [storedSyncCursor, h]
  simp only [Option.bind_some, id, parseRevision_toString (Int.ofNat_le.mp hhigh)]

theorem storedSyncCursor_range {since : Option ℤ} (h : storedSyncCursor adb = .ok since) :
    0 ≤ since.getD 0 ∧ since.getD 0 ≤ Db.i64Max := by
  rw [storedSyncCursor] at h
  split at h
  · cases h
    exact ⟨le_rfl, by decide⟩
  · rename_i value _
    cases hvalue : Db.parseRevision value with
    | none =>
        rw [hvalue] at h
        cases h
    | some n =>
        rw [hvalue] at h
        cases h
        rw [Db.parseRevision] at hvalue
        simp only [Option.ite_none_right_eq_some, Option.some.injEq] at hvalue
        obtain ⟨⟨-, -, hle, -⟩, rfl⟩ := hvalue
        rw [Option.getD_some]
        exact ⟨Int.natCast_nonneg _, Int.ofNat_le.mpr hle⟩

end

/-! ## Histories of syncs -/

/-- A game that was played to its end in one of the listed categories. -/
structure PlayedGame where
  id : String
  createdAtMs : ℤ

/-- The listing has every game that began since a time. -/
def LichessSync.Covers (sync : LichessSync S) (played : Set PlayedGame) (since : ℤ) : Prop :=
  ∀ game ∈ played, since < game.createdAtMs → game.createdAtMs ≤ sync.listedAt →
    ∃ listed, ListsGame parse sync.listing.flatten listed ∧ listed.listed = true ∧
      listed.id = game.id ∧ listed.createdAt = game.createdAtMs

/-- No game of the export starts after the listing. -/
def LichessSync.Timely (sync : LichessSync S) : Prop :=
  sync.listedAt ≤ Db.i64Max ∧ ∀ game ∈ sync.games, ∀ t ∈ game.start env, t ≤ sync.listedAt

/-- The export has a game of that id. -/
def LichessSync.Downloads (sync : LichessSync S) (id : String) : Prop :=
  ∃ game ∈ sync.games, env.providerGameId game.providerHeaders identity = .ok (some id)

/-- Syncs in a row, each from the cursor that the one before has stored.  A sync that fails
stores nothing. -/
inductive LichessSynced (played : Set PlayedGame) (first : AccountDb) :
    List (LichessSync S) → AccountDb → Prop
  | start : LichessSynced played first [] first
  | failed {history : List (LichessSync S)} {adb : AccountDb} (sync : LichessSync S)
      {error : Error} (before : LichessSynced played first history adb)
      (fails : syncLichess env parse identity adb sync = .error error) :
      LichessSynced played first history adb
  | synced {history : List (LichessSync S)} {adb adb' : AccountDb} {sync : LichessSync S}
      {since : Option ℤ} (before : LichessSynced played first history adb)
      (stored : storedSyncCursor adb = .ok since)
      (covers : sync.Covers parse played (since.getD 0)) (timely : sync.Timely env)
      (succeeds : syncLichess env parse identity adb sync = .ok adb') :
      LichessSynced played first (history ++ [sync]) adb'

section

variable {env parse identity}
variable {adb adb' : AccountDb} {played : Set PlayedGame}

theorem syncLichess_of_holds {sync : LichessSync S} {since : Option ℤ} {holds : List CoverageHold}
    (hstored : storedSyncCursor adb = .ok since)
    (hholds : downloadCoverageHolds parse sync.contentLength (sync.listing.map .ok) = .ok holds) :
    syncLichess env parse identity adb sync =
      importAccount env (lichessContext identity since holds) adb sync.games := by
  rw [syncLichess, hstored]
  change (downloadCoverageHolds parse sync.contentLength (sync.listing.map .ok) >>= _) = _
  rw [hholds]
  rfl

/-- After a sync a game that the cursor had not passed is downloaded or still above it. -/
theorem syncLichess_keeps {account : String} {sync : LichessSync S} {since : Option ℤ}
    (hstored : storedSyncCursor adb = .ok since) (hcovers : sync.Covers parse played (since.getD 0))
    (htimely : sync.Timely env)
    (h : syncLichess env parse ⟨"lichess", account⟩ adb sync = .ok adb') :
    ∃ cursor, storedSyncCursor adb' = .ok (some cursor) ∧
      ∀ game ∈ played, since.getD 0 < game.createdAtMs →
        sync.Downloads env ⟨"lichess", account⟩ game.id ∨ cursor < game.createdAtMs := by
  obtain ⟨since', hstored', h⟩ := bind_eq_ok h
  obtain rfl := Except.ok.inj (hstored.symm.trans hstored')
  obtain ⟨holds, hholds, h⟩ := bind_eq_ok h
  obtain ⟨importer, hnotes, hlookup⟩ := importAccount_eq_ok h
  obtain ⟨hlow, hhigh⟩ := storedSyncCursor_range hstored
  change adb'.db.info.lookup "AccountSyncCursor" = some (some (toString
    (accountSyncCursor "lichess" since importer.newestStartMs
      (importer.providerIds.sort (· ≤ ·)) (some holds) none))) at hlookup
  set cursor := accountSyncCursor "lichess" since importer.newestStartMs
    (importer.providerIds.sort (· ≤ ·)) (some holds) none
  have hnewest : ∀ t ∈ importer.newestStartMs, t ≤ sync.listedAt := by
    intro t ht
    rcases hnotes.newest t ht with hnone | ⟨game, hgame, hstart⟩
    · cases hnone
    · exact htimely.2 game hgame t hstart
  have hsince : since.getD 0 ≤ cursor := since_le_accountSyncCursor _
  have hmin : i64Min ≤ since.getD 0 := le_trans (by decide) hlow
  have hbound : cursor ≤ max sync.listedAt (since.getD 0) := by
    apply accountSyncCursor_le (le_max_right _ _)
    · exact fun t ht ↦ le_max_of_le_left (hnewest t ht)
    · exact hmin.trans (le_max_right _ _)
  refine ⟨cursor, ?_, fun game hgame hbegan ↦ ?_⟩
  · apply storedSyncCursor_of_lookup (hlow.trans hsince) ?_ hlookup
    exact hbound.trans (max_le htimely.1 hhigh)
  · by_cases hdownloaded : game.id ∈ importer.providerIds
    · rcases hnotes.ids game.id hdownloaded with hnone | hfound
      · exact absurd hnone (Finset.notMem_empty _)
      · exact Or.inl hfound
    · right
      by_cases hlate : game.createdAtMs ≤ sync.listedAt
      · obtain ⟨listed, hlists, hcategory, hid, hcreated⟩ := hcovers game hgame hbegan hlate
        have hhold := hold_mem_of_listsGame hholds hlists hcategory
        have hheld : listed.hold.id ∉ importer.providerIds.sort (· ≤ ·) := by
          rw [Finset.mem_sort, CoverageGame.hold, hid]
          exact hdownloaded
        rw [← hcreated] at hbegan ⊢
        exact accountSyncCursor_lt_hold hhold (Or.inr hheld) hmin hbegan
      · exact hbound.trans_lt (max_lt (not_le.mp hlate) hbegan)

theorem lichessSynced_keeps {account : String} {first : AccountDb} {start : Option ℤ}
    {history : List (LichessSync S)} (hstart : storedSyncCursor first = .ok start)
    (h : LichessSynced env parse ⟨"lichess", account⟩ played first history adb) :
    ∃ since, storedSyncCursor adb = .ok since ∧
      ∀ game ∈ played, start.getD 0 < game.createdAtMs →
        (∃ sync ∈ history, sync.Downloads env ⟨"lichess", account⟩ game.id) ∨
          since.getD 0 < game.createdAtMs := by
  induction h with
  | start => exact ⟨start, hstart, fun game _ hbegan ↦ Or.inr hbegan⟩
  | failed sync before fails ih => exact ih
  | synced before stored covers timely succeeds ih =>
      obtain ⟨since, hsince, hkept⟩ := ih
      obtain rfl := Except.ok.inj (stored.symm.trans hsince)
      obtain ⟨cursor, hcursor, hnext⟩ := syncLichess_keeps stored covers timely succeeds
      refine ⟨some cursor, hcursor, fun game hgame hbegan ↦ ?_⟩
      rcases hkept game hgame hbegan with ⟨sync, hsync, hdownloads⟩ | habove
      · exact Or.inl ⟨sync, List.mem_append_left _ hsync, hdownloads⟩
      · exact (hnext game hgame habove).imp_left fun hdownloads ↦
          ⟨_, List.mem_append_right _ (List.mem_singleton_self _), hdownloads⟩

end

end

/-- The holds are those of the lines of the listing; the cursor stays below every game that is
going on or not downloaded; and over any sequence of syncs a game that began after the first
cursor is downloaded by one of them or lies above the cursor. -/
theorem lichess_syncs_skip_no_game (S : Shakmaty) (env : AccountEnv) (parse : CoverageReader)
    (account : String) :
    (∀ contentLength (chunks : List (List UInt8)) holds,
      downloadCoverageHolds parse contentLength (chunks.map .ok) = .ok holds ↔
        ReceivesAll contentLength chunks.flatten ∧
          (Lines.split newline chunks.flatten).foldlM (coverageLineOf parse) [] = .ok holds) ∧
      (∀ since newest floor ids (holds : List CoverageHold),
        let cursor := accountSyncCursor "lichess" since newest ids (some holds) floor
        since.getD 0 ≤ cursor ∧ floor.getD i64Min ≤ cursor ∧
          (floor = none → i64Min ≤ since.getD 0 → ∀ hold ∈ holds,
            hold.ongoing = true ∨ hold.id ∉ ids → since.getD 0 < hold.createdAtMs →
              cursor < hold.createdAtMs)) ∧
      ∀ played first start (history : List (LichessSync S)) adb,
        storedSyncCursor first = .ok start →
        LichessSynced env parse ⟨"lichess", account⟩ played first history adb →
        ∃ since, storedSyncCursor adb = .ok since ∧
          ∀ game ∈ played, start.getD 0 < game.createdAtMs →
            (∃ sync ∈ history, sync.Downloads env ⟨"lichess", account⟩ game.id) ∨
              since.getD 0 < game.createdAtMs := by
  refine ⟨fun _ _ _ ↦ downloadCoverageHolds_eq_ok_iff, ?_, ?_⟩
  · intro since newest floor ids holds
    refine ⟨since_le_accountSyncCursor _, floor_le_accountSyncCursor _, ?_⟩
    rintro rfl hsince hold hhold hheld hbegan
    exact accountSyncCursor_lt_hold hhold hheld hsince hbegan
  · intro played first start history adb hstart h
    exact lichessSynced_keeps hstart h

namespace OneGameGoingOn

def line : List UInt8 :=
  Utf8.encode "\x7b\"id\":\"abcdefgh\",\"createdAt\":101\x7d\n".toList

def game : CoverageGame := ⟨"abcdefgh", true, "blitz", "started", 101⟩

def parse : CoverageReader := fun bytes ↦ if bytes = line then some game else none

def env : AccountEnv where
  sha256 := fun _ ↦ ""
  providerGameId := fun _ _ ↦ .ok none
  startMs := fun _ _ ↦ none

def empty : AccountDb := ⟨⟨∅, ⟨∅, none⟩, ⟨∅, none⟩, ⟨∅, none⟩, ⟨∅, none⟩⟩, ∅⟩

/-- Nothing is exported yet, and the listing arrives in two chunks. -/
def sync : LichessSync PawnEnding.library := ⟨[], none, [line.take 9, line.drop 9], 200⟩

def played : Set PlayedGame := {⟨"abcdefgh", 101⟩}

theorem holds_sync :
    downloadCoverageHolds parse none (sync.listing.map .ok) = .ok [⟨"abcdefgh", 101, true⟩] := by
  rw [downloadCoverageHolds_eq_ok_iff]
  refine ⟨nofun, ?_⟩
  decide +kernel

theorem covers_sync : sync.Covers parse played 0 := by
  rintro _ rfl - -
  refine ⟨game, ⟨line, ?_, ?_, if_pos rfl⟩, ?_, rfl, rfl⟩ <;> decide +kernel

theorem succeeds : ∃ adb, syncLichess env parse ⟨"lichess", "player"⟩ empty sync = .ok adb := by
  rw [syncLichess_of_holds (show storedSyncCursor empty = .ok none from rfl) holds_sync]
  exact ⟨_, rfl⟩

theorem synced : ∃ adb, LichessSynced env parse ⟨"lichess", "player"⟩ played empty [sync] adb := by
  obtain ⟨adb, hsucceeds⟩ := succeeds
  have hempty : storedSyncCursor empty = .ok none := rfl
  exact ⟨adb, .synced .start hempty covers_sync ⟨by decide, fun _ h ↦ nomatch h⟩ hsucceeds⟩

theorem cursor_below_game :
    ∃ adb since, LichessSynced env parse ⟨"lichess", "player"⟩ played empty [sync] adb ∧
      storedSyncCursor adb = .ok since ∧ since.getD 0 < 101 := by
  obtain ⟨adb, hsynced⟩ := synced
  obtain ⟨-, -, hhistory⟩ :=
    lichess_syncs_skip_no_game PawnEnding.library env parse "player"
  obtain ⟨since, hsince, hgames⟩ := hhistory played empty none [sync] adb rfl hsynced
  refine ⟨adb, since, hsynced, hsince, ?_⟩
  rcases hgames ⟨"abcdefgh", 101⟩ rfl (by decide) with ⟨done, hdone, game, hgame, -⟩ | habove
  · obtain rfl := List.mem_singleton.mp hdone
    cases hgame
  · exact habove

end OneGameGoingOn

end EnCroissant
