import EnCroissant.Library.Trace
import EnCroissant.Database.Bookkeeping

/-!
# Bookkeeping over runs of mutations

Every game refers to rows that exist, the unknown rows stay, the counts are the
sizes of the tables, and what no game refers to is removed.
-/

namespace EnCroissant

namespace Db

/-! ## What holds of a database -/

structure Refers (db : Db) (ids : GameIds) : Prop where
  white : ∃ row, db.players.find ids.whiteId = some row
  black : ∃ row, db.players.find ids.blackId = some row
  event : ∃ row, db.events.find ids.eventId = some row
  site : ∃ row, db.sites.find ids.siteId = some row

/-- Referential integrity. -/
def Integrity (db : Db) : Prop :=
  ∀ id row, db.games.find id = some row → db.Refers row.toGameIds

structure HasUnknown (db : Db) : Prop where
  player : ∃ row, db.players.find 0 = some row
  event : ∃ row, db.events.find 0 = some row
  site : ∃ row, db.sites.find 0 = some row

/-- The rows with id 0 are still there. -/
structure KeepsUnknown (before after : Db) : Prop where
  player : ∀ row, before.players.find 0 = some row → after.players.find 0 = some row
  event : ∀ row, before.events.find 0 = some row → after.events.find 0 = some row
  site : ∀ row, before.sites.find 0 = some row → after.sites.find 0 = some row

def infoCount (db : Db) (name : String) (value : ℕ) : Prop :=
  db.info.lookup name = some (some (toString value))

structure Counted (db : Db) : Prop where
  games : db.infoCount "GameCount" db.games.count
  players : db.infoCount "PlayerCount" db.players.count
  events : db.infoCount "EventCount" db.events.count
  sites : db.infoCount "SiteCount" db.sites.count

def IsUsed (db : Db) (uses : GameIds → Prop) : Prop :=
  ∃ id row, db.games.find id = some row ∧ uses row.toGameIds

/-- Only the rows with id 0 may be unreferenced. -/
structure NoOrphans (db : Db) : Prop where
  player : ∀ id row, db.players.find id = some row →
    id = 0 ∨ db.IsUsed fun ids ↦ ids.whiteId = id ∨ ids.blackId = id
  event : ∀ id row, db.events.find id = some row → id = 0 ∨ db.IsUsed fun ids ↦ ids.eventId = id
  site : ∀ id row, db.sites.find id = some row → id = 0 ∨ db.IsUsed fun ids ↦ ids.siteId = id

variable {db db' db'' : Db}

theorem KeepsUnknown.refl (db : Db) : db.KeepsUnknown db :=
  ⟨fun _ h ↦ h, fun _ h ↦ h, fun _ h ↦ h⟩

theorem KeepsUnknown.trans (h : db.KeepsUnknown db') (h' : db'.KeepsUnknown db'') :
    db.KeepsUnknown db'' :=
  ⟨fun row hrow ↦ h'.player row (h.player row hrow), fun row hrow ↦ h'.event row (h.event row hrow),
    fun row hrow ↦ h'.site row (h.site row hrow)⟩

theorem HasUnknown.of_keeps (h : db.HasUnknown) (hkeeps : db.KeepsUnknown db') : db'.HasUnknown :=
  ⟨h.player.imp hkeeps.player, h.event.imp hkeeps.event, h.site.imp hkeeps.site⟩

/-! ## Names -/

/-- The named tables only grow; the games stay. -/
structure Grows (before after : Db) : Prop where
  players : before.players.Keeps after.players
  events : before.events.Keeps after.events
  sites : before.sites.Keeps after.sites
  games : after.games = before.games

theorem Grows.refl (db : Db) : db.Grows db :=
  ⟨RowTable.Keeps.refl _, RowTable.Keeps.refl _, RowTable.Keeps.refl _, rfl⟩

theorem Grows.trans (h : db.Grows db') (h' : db'.Grows db'') : db.Grows db'' :=
  ⟨h.players.trans h'.players, h.events.trans h'.events, h.sites.trans h'.sites,
    h'.games.trans h.games⟩

theorem Grows.keepsUnknown (h : db.Grows db') : db.KeepsUnknown db' :=
  ⟨h.players 0, h.events 0, h.sites 0⟩

theorem Grows.refers (h : db.Grows db') {ids : GameIds} (hids : db.Refers ids) : db'.Refers ids :=
  ⟨hids.white.imp (h.players _), hids.black.imp (h.players _), hids.event.imp (h.events _),
    hids.site.imp (h.sites _)⟩

theorem Grows.integrity (h : db.Grows db') (hdb : db.Integrity) : db'.Integrity := by
  intro id row hfind
  rw [h.games] at hfind
  exact h.refers (hdb id row hfind)

theorem createNamed_ok {table table' : RowTable NamedRow} {name : String} {id : ℤ}
    (h : createNamed table name = .ok (table', id)) :
    table.Keeps table' ∧ ∃ row, table'.find id = some row := by
  unfold createNamed at h
  set inserted := if (table.first (isNamed name)).isSome then table else table.insert ⟨name, none⟩
    with hinserted
  have hkeeps : table.Keeps inserted := by
    rw [hinserted]
    split_ifs
    · exact RowTable.Keeps.refl _
    · exact RowTable.keeps_insert
  cases hfirst : inserted.first (isNamed name) with
  | none => simp only [hfirst, reduceCtorEq] at h
  | some found =>
      simp only [hfirst, Except.ok.injEq, Prod.mk.injEq] at h
      obtain ⟨rfl, rfl⟩ := h
      exact ⟨hkeeps, found.2, (RowTable.find_of_first hfirst).1⟩

theorem createPlayer_ok {name : String} {id : ℤ} (h : db.createPlayer name = .ok (db', id)) :
    db.Grows db' ∧ ∃ row, db'.players.find id = some row := by
  obtain ⟨⟨players, created⟩, hcreate, hreturn⟩ := bind_eq_ok h
  cases hreturn
  obtain ⟨hkeeps, hrow⟩ := createNamed_ok hcreate
  exact ⟨⟨hkeeps, RowTable.Keeps.refl _, RowTable.Keeps.refl _, rfl⟩, hrow⟩

theorem createEvent_ok {name : String} {id : ℤ} (h : db.createEvent name = .ok (db', id)) :
    db.Grows db' ∧ ∃ row, db'.events.find id = some row := by
  obtain ⟨⟨events, created⟩, hcreate, hreturn⟩ := bind_eq_ok h
  cases hreturn
  obtain ⟨hkeeps, hrow⟩ := createNamed_ok hcreate
  exact ⟨⟨RowTable.Keeps.refl _, hkeeps, RowTable.Keeps.refl _, rfl⟩, hrow⟩

theorem createSite_ok {name : String} {id : ℤ} (h : db.createSite name = .ok (db', id)) :
    db.Grows db' ∧ ∃ row, db'.sites.find id = some row := by
  obtain ⟨⟨sites, created⟩, hcreate, hreturn⟩ := bind_eq_ok h
  cases hreturn
  obtain ⟨hkeeps, hrow⟩ := createNamed_ok hcreate
  exact ⟨⟨RowTable.Keeps.refl _, RowTable.Keeps.refl _, hkeeps, rfl⟩, hrow⟩

theorem idOf_ok {create : Db → String → Except Error (Db × ℤ)} {table : Db → RowTable NamedRow}
    (hcreate : ∀ {db db' name id}, create db name = .ok (db', id) →
      db.Grows db' ∧ ∃ row, (table db').find id = some row)
    (hunknown : ∃ row, (table db).find 0 = some row) {name : Option String} {id : ℤ}
    (h : idOf create db name = .ok (db', id)) :
    db.Grows db' ∧ ∃ row, (table db').find id = some row := by
  cases name with
  | none =>
      cases h
      exact ⟨Grows.refl _, hunknown⟩
  | some name => exact hcreate h

theorem createIds_ok {whiteName blackName eventName siteName : Option String} {ids : GameIds}
    (hdb : db.HasUnknown)
    (h : db.createIds whiteName blackName eventName siteName = .ok (db', ids)) :
    db.Grows db' ∧ db'.Refers ids := by
  obtain ⟨⟨db₁, whiteId⟩, hwhite, h⟩ := bind_eq_ok h
  obtain ⟨⟨db₂, blackId⟩, hblack, h⟩ := bind_eq_ok h
  obtain ⟨⟨db₃, eventId⟩, hevent, h⟩ := bind_eq_ok h
  obtain ⟨⟨db₄, siteId⟩, hsite, h⟩ := bind_eq_ok h
  cases h
  obtain ⟨hgrows₁, white, hwhite⟩ := idOf_ok createPlayer_ok hdb.player hwhite
  have hdb₁ := hdb.of_keeps hgrows₁.keepsUnknown
  obtain ⟨hgrows₂, black, hblack⟩ := idOf_ok createPlayer_ok hdb₁.player hblack
  have hdb₂ := hdb₁.of_keeps hgrows₂.keepsUnknown
  obtain ⟨hgrows₃, event, hevent⟩ := idOf_ok createEvent_ok hdb₂.event hevent
  have hdb₃ := hdb₂.of_keeps hgrows₃.keepsUnknown
  obtain ⟨hgrows₄, site, hsite⟩ := idOf_ok createSite_ok hdb₃.site hsite
  have hgrows := hgrows₃.trans hgrows₄
  refine ⟨hgrows₁.trans (hgrows₂.trans hgrows), ?_, ?_, ?_, ?_⟩
  · exact ⟨white, (hgrows₂.trans hgrows).players _ _ hwhite⟩
  · exact ⟨black, hgrows.players _ _ hblack⟩
  · exact ⟨event, hgrows₄.events _ _ hevent⟩
  · exact ⟨site, hsite⟩

/-! ## Counts and orphans -/

theorem infoCount_updateInfoCount (db : Db) (name : String) (value : ℕ) :
    (db.updateInfoCount name value).infoCount name value :=
  AList.lookup_insert _

theorem infoCount_updateInfoCount_of_ne {name name' : String} {value value' : ℕ}
    (hne : name ≠ name') (h : db.infoCount name value) :
    (db.updateInfoCount name' value').infoCount name value :=
  (AList.lookup_insert_ne hne).trans h

theorem counted_updateDatabaseCounts (db : Db) : db.updateDatabaseCounts.Counted where
  games := by
    apply infoCount_updateInfoCount_of_ne (by decide)
    apply infoCount_updateInfoCount_of_ne (by decide)
    apply infoCount_updateInfoCount_of_ne (by decide)
    exact infoCount_updateInfoCount _ _ _
  players := by
    apply infoCount_updateInfoCount_of_ne (by decide)
    apply infoCount_updateInfoCount_of_ne (by decide)
    exact infoCount_updateInfoCount _ _ _
  events := by
    apply infoCount_updateInfoCount_of_ne (by decide)
    exact infoCount_updateInfoCount _ _ _
  sites := infoCount_updateInfoCount _ _ _

theorem isUsed_iff_mem_column {f : GameRow → ℤ} {uses : GameIds → Prop} {id : ℤ}
    (hf : ∀ row : GameRow, f row = id ↔ uses row.toGameIds) :
    id ∈ db.games.column f ↔ db.IsUsed uses := by
  rw [RowTable.mem_column]
  simp only [hf]
  rfl

theorem isUsed_player_iff {id : ℤ} :
    id ∈ db.games.column (·.whiteId) ++ db.games.column (·.blackId) ↔
      db.IsUsed fun ids ↦ ids.whiteId = id ∨ ids.blackId = id := by
  rw [List.mem_append, RowTable.mem_column, RowTable.mem_column]
  constructor
  · rintro (⟨gameId, row, hfind, hid⟩ | ⟨gameId, row, hfind, hid⟩)
    · exact ⟨gameId, row, hfind, .inl hid⟩
    · exact ⟨gameId, row, hfind, .inr hid⟩
  · rintro ⟨gameId, row, hfind, hid | hid⟩
    · exact .inl ⟨gameId, row, hfind, hid⟩
    · exact .inr ⟨gameId, row, hfind, hid⟩

theorem find_deleteWhere_orphans {table : RowTable NamedRow} {used : List ℤ} {id : ℤ}
    {row : NamedRow} :
    (table.deleteWhere fun id _ ↦ decide (id ≠ 0 ∧ id ∉ used)).find id = some row ↔
      table.find id = some row ∧ (id = 0 ∨ id ∈ used) := by
  rw [RowTable.find_deleteWhere, decide_eq_false_iff_not, ← or_iff_not_and_not]

theorem grows_updateDatabaseCounts (db : Db) : db.Grows db.updateDatabaseCounts :=
  ⟨RowTable.Keeps.refl _, RowTable.Keeps.refl _, RowTable.Keeps.refl _, rfl⟩

/-- What the removal of orphans and the update of the counts leave. -/
structure Maintained (before after : Db) : Prop where
  games : after.games = before.games
  integrity : before.Integrity → after.Integrity
  unknown : before.KeepsUnknown after
  counted : after.Counted
  noOrphans : after.NoOrphans

theorem integrity_deleteOrphanedData (h : db.Integrity) : db.deleteOrphanedData.Integrity := by
  intro gameId row hfind
  have hrefers := h gameId row hfind
  have hwhite : row.whiteId ∈ db.games.column (·.whiteId) :=
    RowTable.mem_column.mpr ⟨gameId, row, hfind, rfl⟩
  have hblack : row.blackId ∈ db.games.column (·.blackId) :=
    RowTable.mem_column.mpr ⟨gameId, row, hfind, rfl⟩
  have hevent : row.eventId ∈ db.games.column (·.eventId) :=
    RowTable.mem_column.mpr ⟨gameId, row, hfind, rfl⟩
  have hsite : row.siteId ∈ db.games.column (·.siteId) :=
    RowTable.mem_column.mpr ⟨gameId, row, hfind, rfl⟩
  constructor
  · obtain ⟨player, hplayer⟩ := hrefers.white
    exact ⟨player, find_deleteWhere_orphans.mpr
      ⟨hplayer, .inr (List.mem_append_left _ hwhite)⟩⟩
  · obtain ⟨player, hplayer⟩ := hrefers.black
    exact ⟨player, find_deleteWhere_orphans.mpr
      ⟨hplayer, .inr (List.mem_append_right _ hblack)⟩⟩
  · obtain ⟨event, hfound⟩ := hrefers.event
    exact ⟨event, find_deleteWhere_orphans.mpr ⟨hfound, .inr hevent⟩⟩
  · obtain ⟨site, hfound⟩ := hrefers.site
    exact ⟨site, find_deleteWhere_orphans.mpr ⟨hfound, .inr hsite⟩⟩

theorem noOrphans_deleteOrphanedData (db : Db) : db.deleteOrphanedData.NoOrphans where
  player _ _ h := (find_deleteWhere_orphans.mp h).2.imp_right isUsed_player_iff.mp
  event _ _ h := (find_deleteWhere_orphans.mp h).2.imp_right
    (isUsed_iff_mem_column fun _ ↦ Iff.rfl).mp
  site _ _ h := (find_deleteWhere_orphans.mp h).2.imp_right
    (isUsed_iff_mem_column fun _ ↦ Iff.rfl).mp

theorem maintained (db : Db) : db.Maintained db.removeOrphansAndUpdateCounts where
  games := rfl
  integrity h := (grows_updateDatabaseCounts _).integrity (integrity_deleteOrphanedData h)
  unknown :=
    { player := fun _ h ↦ find_deleteWhere_orphans.mpr ⟨h, .inl rfl⟩
      event := fun _ h ↦ find_deleteWhere_orphans.mpr ⟨h, .inl rfl⟩
      site := fun _ h ↦ find_deleteWhere_orphans.mpr ⟨h, .inl rfl⟩ }
  counted := counted_updateDatabaseCounts _
  noOrphans :=
    { player := (noOrphans_deleteOrphanedData db).player
      event := (noOrphans_deleteOrphanedData db).event
      site := (noOrphans_deleteOrphanedData db).site }

/-! ## The games after each mutation -/

/-- One game of each class of duplicates is left, the one with the least id. -/
structure OneOfEach (before after : Db) : Prop where
  kept : ∀ id row, after.games.find id = some row → before.games.find id = some row
  least : ∀ id row, before.games.find id = some row →
    ∃ least row', after.games.find least = some row' ∧ row'.duplicateKey = row.duplicateKey ∧
      (∀ id'' row'', before.games.find id'' = some row'' →
        row''.duplicateKey = row.duplicateKey → least ≤ id'') ∧
      ∀ id'' row'', after.games.find id'' = some row'' →
        row''.duplicateKey = row.duplicateKey → id'' = least

/-- A game with the source player's place taken by the target player. -/
def renamed (source target : ℤ) (row : GameRow) : GameRow :=
  { row with
    whiteId := if row.whiteId = source then target else row.whiteId
    blackId := if row.blackId = source then target else row.blackId }

structure Merged (before : Db) (source target : ℤ) (after : Db) : Prop where
  games : ∀ id, after.games.find id = (before.games.find id).map (renamed source target)
  noSelfPlay : ∀ id row, before.games.find id = some row →
    (renamed source target row).whiteId = (renamed source target row).blackId →
      row.whiteId = row.blackId
  left : ∀ id row, after.games.find id = some row → row.whiteId ≠ source ∧ row.blackId ≠ source

theorem integrity_of_games {games : RowTable GameRow} (hdb : db.Integrity)
    (hgames : ∀ id row, games.find id = some row → db.games.find id = some row) :
    Integrity { db with games := games } := by
  intro id row hfind
  have hrefers := hdb id row (hgames id row hfind)
  exact ⟨hrefers.white, hrefers.black, hrefers.event, hrefers.site⟩

theorem oneOfEach_deleteDuplicates {games : RowTable GameRow}
    (hgames : games = db.games.deleteDuplicates GameRow.duplicateKey) (hdb' : db'.games = games) :
    OneOfEach db db' := by
  subst hgames
  constructor
  · intro id row hfind
    rw [hdb'] at hfind
    exact (RowTable.find_deleteDuplicates.mp hfind).1
  · intro id row hfind
    obtain ⟨least, row', hleast, hkey, hmin⟩ :=
      RowTable.exists_least GameRow.duplicateKey hfind
    refine ⟨least, row', ?_, hkey, hmin, fun id'' row'' hfind'' hkey'' ↦ ?_⟩
    · rw [hdb']
      exact RowTable.find_deleteDuplicates.mpr
        ⟨hleast, fun id'' row'' hfind'' hkey'' ↦ hmin id'' row'' hfind'' (hkey''.trans hkey)⟩
    · rw [hdb'] at hfind''
      obtain ⟨hbefore, hmin''⟩ := RowTable.find_deleteDuplicates.mp hfind''
      exact le_antisymm (hmin'' least row' hleast (hkey.trans hkey''.symm))
        (hmin id'' row'' hbefore hkey'')

/-! ## Merging two players -/

section

variable {source target : ℤ}

theorem find_movePlayer {id : ℤ} {row : GameRow} :
    (db.movePlayer source target).games.find id = some row ↔
      ∃ row', db.games.find id = some row' ∧ renamed source target row' = row := by
  rw [movePlayer, RowTable.find_updateWhere]
  simp only [RowTable.find_updateWhere, decide_eq_true_eq]
  constructor
  · rintro ⟨_, ⟨row', hfind, rfl⟩, rfl⟩
    refine ⟨row', hfind, ?_⟩
    rw [renamed]
    split_ifs <;> simp_all
  · rintro ⟨row', hfind, rfl⟩
    refine ⟨_, ⟨row', hfind, rfl⟩, ?_⟩
    rw [renamed]
    split_ifs <;> simp_all

theorem notFaced (h : ¬0 < db.facedEachOther source target) {id : ℤ} {row : GameRow}
    (hfind : db.games.find id = some row) :
    ¬(row.whiteId = source ∧ row.blackId = target) ∧
      ¬(row.whiteId = target ∧ row.blackId = source) := by
  rw [facedEachOther, RowTable.countWhere_pos] at h
  constructor
  · intro hfaced
    exact h ⟨id, row, hfind, Bool.or_eq_true_iff.mpr (.inl (decide_eq_true hfaced))⟩
  · intro hfaced
    exact h ⟨id, row, hfind, Bool.or_eq_true_iff.mpr (.inr (decide_eq_true hfaced))⟩

theorem renamed_noSelfPlay {row : GameRow}
    (hwhite : ¬(row.whiteId = source ∧ row.blackId = target))
    (hblack : ¬(row.whiteId = target ∧ row.blackId = source))
    (h : (renamed source target row).whiteId = (renamed source target row).blackId) :
    row.whiteId = row.blackId := by
  simp only [renamed] at h
  split_ifs at h with hw hb hb
  · exact hw.trans hb.symm
  · exact absurd ⟨hw, h.symm⟩ hwhite
  · exact absurd ⟨h, hb⟩ hblack
  · exact h

theorem renamed_left (hne : source ≠ target) (row : GameRow) :
    (renamed source target row).whiteId ≠ source ∧
      (renamed source target row).blackId ≠ source := by
  simp only [renamed]
  constructor
  · split_ifs with hw
    · exact hne.symm
    · exact hw
  · split_ifs with hb
    · exact hne.symm
    · exact hb

theorem find_renamed (hne : source ≠ target) {table : RowTable NamedRow} {id : ℤ}
    (hid : ∃ row, table.find id = some row) (htarget : ∃ row, table.find target = some row) :
    ∃ row, (table.deleteWhere fun id _ ↦ decide (id = source)).find
      (if id = source then target else id) = some row := by
  split_ifs with h
  · obtain ⟨row, hrow⟩ := htarget
    exact ⟨row, RowTable.find_deleteWhere.mpr ⟨hrow, decide_eq_false hne.symm⟩⟩
  · obtain ⟨row, hrow⟩ := hid
    exact ⟨row, RowTable.find_deleteWhere.mpr ⟨hrow, decide_eq_false h⟩⟩

/-- What a merge that succeeds has checked. -/
structure MayMerge (db : Db) (source target : ℤ) : Prop where
  ne : source ≠ target
  source_ne_zero : source ≠ 0
  target_exists : ∃ row, db.players.find target = some row
  not_faced : ¬0 < db.facedEachOther source target

theorem mergePlayers_ok (h : db.mergePlayers source target = .ok db') :
    db.MayMerge source target ∧
      db' = removeOrphansAndUpdateCounts
        { db.movePlayer source target with
          players := db.players.deleteWhere fun id _ ↦ decide (id = source) } := by
  unfold mergePlayers at h
  obtain ⟨hne, h⟩ := of_guard h
  obtain ⟨hzero, h⟩ := of_guard h
  obtain ⟨-, h⟩ := of_guard h
  obtain ⟨htarget, h⟩ := of_guard h
  obtain ⟨hfaced, h⟩ := of_guard h
  obtain ⟨-, h⟩ := of_guard h
  rw [Option.isNone_iff_eq_none] at htarget
  refine ⟨⟨hne, fun hsource ↦ hzero (.inl hsource), ?_, hfaced⟩, (Except.ok.inj h).symm⟩
  exact Option.ne_none_iff_exists'.mp htarget

theorem integrity_merge (hmerge : db.MayMerge source target) (hdb : db.Integrity) :
    Integrity { db.movePlayer source target with
      players := db.players.deleteWhere fun id _ ↦ decide (id = source) } := by
  intro id row hfind
  obtain ⟨row', hbefore, rfl⟩ := find_movePlayer.mp hfind
  have hrefers := hdb id row' hbefore
  constructor
  · exact find_renamed hmerge.ne hrefers.white hmerge.target_exists
  · exact find_renamed hmerge.ne hrefers.black hmerge.target_exists
  · exact hrefers.event
  · exact hrefers.site

theorem merged (hmerge : db.MayMerge source target)
    (hgames : db'.games = (db.movePlayer source target).games) :
    db.Merged source target db' := by
  constructor
  · intro id
    rw [hgames]
    ext row
    rw [find_movePlayer, Option.map_eq_some_iff]
  · intro id row hfind
    obtain ⟨hwhite, hblack⟩ := notFaced hmerge.not_faced hfind
    exact renamed_noSelfPlay hwhite hblack
  · intro id row hfind
    rw [hgames] at hfind
    obtain ⟨row', -, rfl⟩ := find_movePlayer.mp hfind
    exact renamed_left hmerge.ne row'

end

end Db

/-! ## Mutations -/

namespace DatabaseMutation

variable {S : Shakmaty} {rowStamp : ℤ → GameRow → String} {db db' : Db}

/-- What a successful mutation does to the games. -/
def Effect (rowStamp : ℤ → GameRow → String) (before after : Db) : DatabaseMutation S → Prop
  | insertDbGame pgn =>
      ∃ game id ids, pgn = .ok game ∧ before.games.find id = none ∧
        ∀ id', after.games.find id' =
          if id' = id then some (game.row ids) else before.games.find id'
  | writeDbGame gameId pgn expectedStamp =>
      ∃ game ids existing, pgn = .ok game ∧ before.games.find gameId = some existing ∧
        rowStamp gameId existing = expectedStamp ∧
        ∀ id', after.games.find id' =
          if id' = gameId then some { game.row ids with time := game.time.or existing.time }
          else before.games.find id'
  | deleteDbGame gameId => ∀ id row,
      after.games.find id = some row ↔ before.games.find id = some row ∧ id ≠ gameId
  | deleteDuplicatedGames => before.OneOfEach after
  | deleteEmptyGames => ∀ id row,
      after.games.find id = some row ↔ before.games.find id = some row ∧ row.plyCount ≠ some 0
  | mergePlayers player1 player2 => before.Merged player1 player2 after

/-- What a successful mutation keeps and does. -/
structure Booked (rowStamp : ℤ → GameRow → String) (m : DatabaseMutation S)
    (before after : Db) : Prop where
  integrity : before.Integrity → after.Integrity
  unknown : before.KeepsUnknown after
  counted : after.Counted
  noOrphans : m.isInsert = false → after.NoOrphans
  effect : m.Effect rowStamp before after

theorem booked_of_games {m : DatabaseMutation S} {games : RowTable GameRow}
    (hgames : ∀ id row, games.find id = some row → db.games.find id = some row)
    (heffect : ∀ after : Db, after.games = games → m.Effect rowStamp db after) :
    m.Booked rowStamp db (Db.removeOrphansAndUpdateCounts { db with games := games }) := by
  have hmaintained := Db.maintained { db with games := games }
  refine ⟨fun hdb ↦ ?_, ?_, hmaintained.counted, fun _ ↦ hmaintained.noOrphans, ?_⟩
  · exact hmaintained.integrity (Db.integrity_of_games hdb hgames)
  · exact ⟨hmaintained.unknown.player, hmaintained.unknown.event, hmaintained.unknown.site⟩
  · exact heffect _ hmaintained.games

theorem booked_deleteDbGame (db : Db) (gameId : ℤ) :
    (deleteDbGame gameId : DatabaseMutation S).Booked rowStamp db (db.deleteDbGame gameId) := by
  apply booked_of_games
  · intro id row hfind
    exact (RowTable.find_deleteWhere.mp hfind).1
  · intro after hgames id row
    rw [hgames, RowTable.find_deleteWhere, decide_eq_false_iff_not]

theorem booked_deleteEmptyGames (db : Db) :
    (deleteEmptyGames : DatabaseMutation S).Booked rowStamp db db.deleteEmptyGames := by
  apply booked_of_games
  · intro id row hfind
    exact (RowTable.find_deleteWhere.mp hfind).1
  · intro after hgames id row
    rw [hgames, RowTable.find_deleteWhere, decide_eq_false_iff_not]

theorem booked_deleteDuplicatedGames (db : Db) :
    (deleteDuplicatedGames : DatabaseMutation S).Booked rowStamp db db.deleteDuplicatedGames := by
  apply booked_of_games
  · intro id row hfind
    exact (RowTable.find_deleteDuplicates.mp hfind).1
  · intro after hgames
    exact Db.oneOfEach_deleteDuplicates rfl hgames

theorem booked_mergePlayers {source target : ℤ} (h : db.mergePlayers source target = .ok db') :
    (mergePlayers source target : DatabaseMutation S).Booked rowStamp db db' := by
  obtain ⟨hmerge, rfl⟩ := Db.mergePlayers_ok h
  have hmaintained := Db.maintained
    { db.movePlayer source target with
      players := db.players.deleteWhere fun id _ ↦ decide (id = source) }
  refine ⟨fun hdb ↦ ?_, ?_, hmaintained.counted, fun _ ↦ hmaintained.noOrphans, ?_⟩
  · exact hmaintained.integrity (Db.integrity_merge hmerge hdb)
  · refine ⟨fun row hrow ↦ ?_, hmaintained.unknown.event, hmaintained.unknown.site⟩
    apply hmaintained.unknown.player
    exact RowTable.find_deleteWhere.mpr ⟨hrow, decide_eq_false hmerge.source_ne_zero.symm⟩
  · exact Db.merged hmerge hmaintained.games

/-! ## Inserting and rewriting -/

theorem find_insert (games : RowTable GameRow) (row : GameRow) (id : ℤ) :
    (games.insert row).find id = if id = games.nextId then some row else games.find id := by
  split_ifs with h
  · subst h
    exact RowTable.find_insert_nextId
  · exact RowTable.find_insert_of_ne h

theorem integrity_insert {row : GameRow} (hdb : db.Integrity) (hrow : db.Refers row.toGameIds) :
    Db.Integrity { db with games := db.games.insert row } := by
  intro id row' hfind
  have hrefers : db.Refers row'.toGameIds := by
    rcases RowTable.find_of_insert hfind with ⟨-, rfl⟩ | hbefore
    · exact hrow
    · exact hdb id row' hbefore
  exact ⟨hrefers.white, hrefers.black, hrefers.event, hrefers.site⟩

theorem createGame_ok {row : GameRow} {id : ℤ} (h : db.createGame row = .ok (db', id)) :
    db' = { db with games := db.games.insert row } := by
  unfold Db.createGame at h
  split_ifs at h
  cases h
  rfl

theorem booked_insertDbGame {game : ParsedGame S} {reply : ℤ × String} (hunknown : db.HasUnknown)
    (h : db.insertDbGame rowStamp game = .ok (db', reply)) :
    (insertDbGame (.ok game)).Booked rowStamp db db' := by
  obtain ⟨⟨inserted, id⟩, hinsert, h⟩ := bind_eq_ok h
  obtain ⟨⟨named, ids⟩, hids, hcreate⟩ := bind_eq_ok hinsert
  obtain ⟨hgrows, hrefers⟩ := Db.createIds_ok hunknown hids
  obtain rfl := createGame_ok hcreate
  dsimp only at h
  split at h
  case h_2 => cases h
  cases h
  constructor
  · intro hdb
    exact (Db.grows_updateDatabaseCounts _).integrity
      (integrity_insert (hgrows.integrity hdb) hrefers)
  · exact ⟨hgrows.keepsUnknown.player, hgrows.keepsUnknown.event, hgrows.keepsUnknown.site⟩
  · exact Db.counted_updateDatabaseCounts _
  · intro hinsert
    cases hinsert
  · refine ⟨game, named.games.nextId, ids, rfl, ?_, fun id' ↦ ?_⟩
    · rw [← hgrows.games]
      exact RowTable.find_nextId
    · rw [← hgrows.games]
      exact find_insert _ _ _

/-- What a rewrite that succeeds has read and stores. -/
theorem writeParsedDbGame_ok {gameId : ℤ} {game : ParsedGame S} {expectedStamp stamp : String}
    (h : db.writeParsedDbGame rowStamp gameId game expectedStamp = .ok (db', stamp)) :
    ∃ existing named ids, db.games.find gameId = some existing ∧
      rowStamp gameId existing = expectedStamp ∧
      db.createIds game.whiteName game.blackName game.eventName game.siteName =
        .ok (named, ids) ∧
      db' = Db.removeOrphansAndUpdateCounts
        { named with
          games := named.games.updateWhere (fun id _ ↦ decide (id = gameId))
            fun _ ↦ { game.row ids with time := game.time.or existing.time } } := by
  unfold Db.writeParsedDbGame at h
  cases hfind : db.games.find gameId with
  | none => simp only [hfind, reduceCtorEq] at h
  | some existing =>
      simp only [hfind] at h
      obtain ⟨hstamp, h⟩ := of_guard h
      obtain ⟨⟨named, ids⟩, hids, h⟩ := bind_eq_ok h
      refine ⟨existing, named, ids, rfl, not_not.mp hstamp, hids, ?_⟩
      dsimp only at h
      split at h
      case isTrue => cases h
      split at h
      case isTrue => cases h
      split at h
      case h_2 => cases h
      cases h
      rfl

theorem booked_writeDbGame {gameId : ℤ} {game : ParsedGame S} {expectedStamp stamp : String}
    (hunknown : db.HasUnknown)
    (h : db.writeParsedDbGame rowStamp gameId game expectedStamp = .ok (db', stamp)) :
    (writeDbGame gameId (.ok game) expectedStamp).Booked rowStamp db db' := by
  obtain ⟨existing, named, ids, hexisting, hstamp, hids, rfl⟩ := writeParsedDbGame_ok h
  obtain ⟨hgrows, hrefers⟩ := Db.createIds_ok hunknown hids
  set row : GameRow := { game.row ids with time := game.time.or existing.time }
  have hmaintained := Db.maintained
    { named with games := named.games.updateWhere (fun id _ ↦ decide (id = gameId)) fun _ ↦ row }
  refine ⟨fun hdb ↦ hmaintained.integrity fun id row' hfind ↦ ?_, ?_, hmaintained.counted,
    fun _ ↦ hmaintained.noOrphans, game, ids, existing, rfl, hexisting, hstamp, fun id ↦ ?_⟩
  · obtain ⟨before, hbefore, rfl⟩ := RowTable.find_updateWhere.mp hfind
    have hkept := hgrows.integrity hdb id before hbefore
    have hrow : named.Refers (if decide (id = gameId) then row else before).toGameIds := by
      split_ifs
      · exact hrefers
      · exact hkept
    exact ⟨hrow.white, hrow.black, hrow.event, hrow.site⟩
  · have hkeeps := hgrows.keepsUnknown
    exact hkeeps.trans
      ⟨hmaintained.unknown.player, hmaintained.unknown.event, hmaintained.unknown.site⟩
  · rw [hmaintained.games, ← hgrows.games]
    exact RowTable.find_updateWhere_id (hgrows.games ▸ hexisting) row id

/-! ## One mutation -/

theorem exists_unknown {table : RowTable NamedRow} {p : ℤ → NamedRow → Bool}
    (hp : ∀ id row, p id row → id = 0) (h : 0 < table.countWhere p) :
    ∃ row, table.find 0 = some row := by
  obtain ⟨id, row, hfind, hrow⟩ := RowTable.countWhere_pos.mp h
  obtain rfl := hp id row hrow
  exact ⟨row, hfind⟩

theorem hasUnknown_of_validated (h : db.validateSentinelRecords = .ok ()) : db.HasUnknown := by
  have hunknown : ∀ id row, Db.isUnknownRow id row → id = 0 :=
    fun _ _ hrow ↦ (of_decide_eq_true hrow).1
  have hplayer : ∀ id row, (Db.isUnknownRow id row && row.elo.isNone) → id = 0 :=
    fun id row hrow ↦ hunknown id row (Bool.and_eq_true_iff.mp hrow).1
  obtain ⟨hcount, -⟩ := of_guard h
  have hplayers : db.players.countWhere _ ≤ 1 := RowTable.countWhere_le_one hplayer
  have hevents : db.events.countWhere _ ≤ 1 := RowTable.countWhere_le_one hunknown
  have hsites : db.sites.countWhere _ ≤ 1 := RowTable.countWhere_le_one hunknown
  constructor
  · exact exists_unknown hplayer (by omega)
  · exact exists_unknown hunknown (by omega)
  · exact exists_unknown hunknown (by omega)

theorem booked_operation {m : DatabaseMutation S} {reply : MutationReply}
    (hunknown : db.HasUnknown) (h : m.operation rowStamp db = .ok (db', reply)) :
    m.Booked rowStamp db db' := by
  cases m with
  | insertDbGame pgn =>
      obtain ⟨game, rfl, hgame⟩ := bind_eq_ok h
      obtain ⟨⟨inserted, id, stamp⟩, hinsert, hreturn⟩ := bind_eq_ok hgame
      cases hreturn
      exact booked_insertDbGame hunknown hinsert
  | writeDbGame gameId pgn expectedStamp =>
      obtain ⟨game, rfl, hgame⟩ := bind_eq_ok h
      obtain ⟨⟨written, stamp⟩, hwrite, hreturn⟩ := bind_eq_ok hgame
      cases hreturn
      exact booked_writeDbGame hunknown hwrite
  | deleteDbGame gameId =>
      cases h
      exact booked_deleteDbGame db gameId
  | deleteDuplicatedGames =>
      cases h
      exact booked_deleteDuplicatedGames db
  | deleteEmptyGames =>
      cases h
      exact booked_deleteEmptyGames db
  | mergePlayers player1 player2 =>
      obtain ⟨merged, hmerge, h⟩ := bind_eq_ok h
      cases h
      exact booked_mergePlayers hmerge

/-- The data revision is none of the counts. -/
theorem Booked.updateRevision {m : DatabaseMutation S} (h : m.Booked rowStamp db db')
    (revision : ℕ) :
    m.Booked rowStamp db (db'.updateInfoCount "DataRevision" revision) := by
  refine ⟨fun hdb ↦ ?_, ?_, ?_, fun hinsert ↦ ?_, ?_⟩
  · have hintegrity := h.integrity hdb
    intro id row hfind
    have hrefers := hintegrity id row hfind
    exact ⟨hrefers.white, hrefers.black, hrefers.event, hrefers.site⟩
  · exact ⟨h.unknown.player, h.unknown.event, h.unknown.site⟩
  · constructor
    · exact Db.infoCount_updateInfoCount_of_ne (by decide) h.counted.games
    · exact Db.infoCount_updateInfoCount_of_ne (by decide) h.counted.players
    · exact Db.infoCount_updateInfoCount_of_ne (by decide) h.counted.events
    · exact Db.infoCount_updateInfoCount_of_ne (by decide) h.counted.sites
  · have horphans := h.noOrphans hinsert
    exact ⟨horphans.player, horphans.event, horphans.site⟩
  · have heffect := h.effect
    cases m with
    | mergePlayers player1 player2 => exact ⟨heffect.games, heffect.noSelfPlay, heffect.left⟩
    | deleteDuplicatedGames => exact ⟨heffect.kept, heffect.least⟩
    | _ => exact heffect

/-- One mutation either succeeds with its books kept, or leaves the database as it was. -/
theorem mutate_cases (rowStamp : ℤ → GameRow → String) (db : Db) (m : DatabaseMutation S) :
    (∃ reply, (m.mutate rowStamp db).2 = .ok reply ∧
      m.Booked rowStamp db (m.mutate rowStamp db).1) ∨
    ∃ error, (m.mutate rowStamp db).2 = .error error ∧ (m.mutate rowStamp db).1 = db := by
  rw [mutate]
  cases m.prepare with
  | error error => exact .inr ⟨error, rfl, rfl⟩
  | ok checked =>
      rw [Db.withValidatedMutation, Db.transaction]
      dsimp only
      split
      case h_2 error _ => exact .inr ⟨error, rfl, rfl⟩
      case h_1 after reply h =>
        refine .inl ⟨reply, rfl, ?_⟩
        obtain ⟨current, -, h⟩ := bind_eq_ok h
        obtain ⟨⟨changed, reply'⟩, hchanged, h⟩ := bind_eq_ok h
        obtain ⟨⟨⟩, hvalidated, hoperation⟩ := bind_eq_ok hchanged
        dsimp only at h
        split at h
        case isTrue => cases h
        cases h
        exact (booked_operation (hasUnknown_of_validated hvalidated) hoperation).updateRevision _

/-! ## Runs -/

def Succeeds (rowStamp : ℤ → GameRow → String) (db : Db) (m : DatabaseMutation S) : Prop :=
  ∃ reply, (m.mutate rowStamp db).2 = .ok reply

def run (rowStamp : ℤ → GameRow → String) (start : Db) (ms : ℕ → DatabaseMutation S) : ℕ → Db :=
  Trace.state (fun db m ↦ (m.mutate rowStamp db).1) start ms

theorem mutate_keeps (m : DatabaseMutation S) (hdb : db.Integrity ∧ db'.KeepsUnknown db) :
    (m.mutate rowStamp db).1.Integrity ∧ db'.KeepsUnknown (m.mutate rowStamp db).1 := by
  rcases mutate_cases rowStamp db m with ⟨reply, -, hbooked⟩ | ⟨error, -, hsame⟩
  · exact ⟨hbooked.integrity hdb.1, hdb.2.trans hbooked.unknown⟩
  · rwa [hsame]

theorem counted_of_succeeds {m : DatabaseMutation S} (h : m.Succeeds rowStamp db) :
    (m.mutate rowStamp db).1.Counted := by
  obtain ⟨reply, hreply⟩ := h
  rcases mutate_cases rowStamp db m with ⟨-, -, hbooked⟩ | ⟨error, herror, -⟩
  · exact hbooked.counted
  · cases hreply.symm.trans herror

theorem run_counted {start : Db} {ms : ℕ → DatabaseMutation S} {k : ℕ}
    (hk : (ms k).Succeeds rowStamp (run rowStamp start ms k)) :
    ∀ n, k < n → (run rowStamp start ms n).Counted := by
  intro n hn
  induction n, hn using Nat.le_induction with
  | base => exact counted_of_succeeds hk
  | succ n hn ih =>
      rcases mutate_cases rowStamp (run rowStamp start ms n) (ms n) with
        ⟨reply, -, hbooked⟩ | ⟨error, -, hsame⟩
      · exact hbooked.counted
      · exact Eq.subst hsame.symm ih

/-- Over any run of mutations every game refers to rows that exist and the rows with
id 0 stay; a mutation that fails changes nothing; one that succeeds does what it says
to the games, from then on the counts are the sizes of the tables, and unless it is
an insert no row but the unknown ones is unreferenced. -/
theorem bookkeeping_survives (rowStamp : ℤ → GameRow → String) (start : Db)
    (hstart : start.Integrity) (ms : ℕ → DatabaseMutation S) (n : ℕ) :
    let before := run rowStamp start ms n
    let after := run rowStamp start ms (n + 1)
    before.Integrity ∧ start.KeepsUnknown before ∧
      ((∃ k < n, (ms k).Succeeds rowStamp (run rowStamp start ms k)) → before.Counted) ∧
      ((ms n).Succeeds rowStamp before →
        after.Counted ∧ ((ms n).isInsert = false → after.NoOrphans) ∧
          (ms n).Effect rowStamp before after) ∧
      (¬(ms n).Succeeds rowStamp before → after = before) := by
  intro before after
  have hkept : before.Integrity ∧ start.KeepsUnknown before :=
    Trace.state_invariant (P := fun db ↦ db.Integrity ∧ start.KeepsUnknown db)
      ⟨hstart, Db.KeepsUnknown.refl _⟩ (fun m hdb ↦ mutate_keeps m hdb) n
  refine ⟨hkept.1, hkept.2, fun ⟨k, hk, hsucceeds⟩ ↦ run_counted hsucceeds n hk, ?_, ?_⟩
  · rintro ⟨reply, hreply⟩
    rcases mutate_cases rowStamp before (ms n) with ⟨-, -, hbooked⟩ | ⟨error, herror, -⟩
    · exact ⟨hbooked.counted, hbooked.noOrphans, hbooked.effect⟩
    · cases hreply.symm.trans herror
  · intro hfails
    rcases mutate_cases rowStamp before (ms n) with ⟨reply, hreply, -⟩ | ⟨error, -, hsame⟩
    · exact absurd ⟨reply, hreply⟩ hfails
    · exact hsame

/-! ## A database of one game twice -/

def unknownRows : RowTable NamedRow := ⟨AList.singleton 0 ⟨"Unknown", none⟩, some 0⟩

def playedGame : GameRow where
  eventId := 0
  siteId := 0
  whiteId := 1
  blackId := 2
  date := none
  time := none
  round := none
  whiteElo := none
  blackElo := none
  result := some "*"
  timeControl := none
  eco := none
  orientation := none
  whiteMaterial := 39
  blackMaterial := 39
  plyCount := some 0
  fen := none
  moves := []
  pawnHome := 0

def twiceStored : Db where
  info := ∅
  players := ((RowTable.mk (AList.singleton 0 ⟨"Unknown", none⟩) none).insert
    ⟨"White", none⟩).insert ⟨"Black", none⟩
  events := unknownRows
  sites := unknownRows
  games := ((RowTable.mk ∅ (some 0)).insert playedGame).insert playedGame

theorem twiceStored_integrity : twiceStored.Integrity := by
  intro id row hfind
  have hrow : row = playedGame := by
    rcases RowTable.find_of_insert hfind with ⟨-, h⟩ | hfind
    · exact h
    · rcases RowTable.find_of_insert hfind with ⟨-, h⟩ | hfind
      · exact h
      · cases hfind
  subst hrow
  exact ⟨⟨⟨"White", none⟩, rfl⟩, ⟨⟨"Black", none⟩, rfl⟩, ⟨⟨"Unknown", none⟩, rfl⟩,
    ⟨⟨"Unknown", none⟩, rfl⟩⟩

/-- The first of the two games is the one left, and the counts say so. -/
theorem bookkeeping_survives_twiceStored :
    let after := run (S := PawnEnding.library) (fun _ _ ↦ "") twiceStored
      (fun _ ↦ deleteDuplicatedGames) 1
    after.Counted ∧ after.NoOrphans ∧ twiceStored.OneOfEach after ∧ after.games.count = 1 := by
  intro after
  have hsucceeds : (deleteDuplicatedGames : DatabaseMutation PawnEnding.library).Succeeds
      (fun _ _ ↦ "") twiceStored := ⟨.done, rfl⟩
  obtain ⟨-, -, -, hafter, -⟩ := bookkeeping_survives (S := PawnEnding.library) (fun _ _ ↦ "")
    twiceStored twiceStored_integrity (fun _ ↦ deleteDuplicatedGames) 0
  obtain ⟨hcounted, horphans, heffect⟩ := hafter hsucceeds
  exact ⟨hcounted, horphans rfl, heffect, rfl⟩

end DatabaseMutation

end EnCroissant
