import EnCroissant.Database.BookkeepingRuns

/-!
# Rewriting a game against inserting it

Both find or create the rows of the names and store nineteen columns.  With the
references resolved to names the stored rows agree, but for the time that a game
without one keeps.
-/

namespace EnCroissant

structure GameNames where
  whiteName : Option String
  blackName : Option String
  eventName : Option String
  siteName : Option String
  deriving DecidableEq

/-- The columns of a game with its references resolved. -/
structure ResolvedRow extends GameNames, GameTags where
  whiteMaterial : ℕ
  blackMaterial : ℕ
  plyCount : Option Int32
  fen : Option String
  moves : List UInt8
  pawnHome : BitVec 16
  deriving DecidableEq

/-- No two rows have one name, as the schema asks. -/
def NamesUnique (table : RowTable NamedRow) : Prop :=
  ∀ id id' row row' name, table.find id = some row → table.find id' = some row' →
    row.name = some name → row'.name = some name → id = id'

/-- The row of an id has the name. -/
def Named (table : RowTable NamedRow) (id : ℤ) (name : String) : Prop :=
  ∃ row, table.find id = some row ∧ row.name = some name

section Names

variable {table table' : RowTable NamedRow} {id : ℤ} {name : String}

theorem Named.of_keeps (h : Named table id name) (hkeeps : table.Keeps table') :
    Named table' id name := by
  obtain ⟨row, hrow, hname⟩ := h
  exact ⟨row, hkeeps id row hrow, hname⟩

theorem Named.of_used {used : List ℤ} (h : Named table id name) (hused : id ∈ used) :
    Named (table.deleteWhere fun id _ ↦ decide (id ≠ 0 ∧ id ∉ used)) id name := by
  obtain ⟨row, hrow, hname⟩ := h
  exact ⟨row, Db.find_deleteWhere_orphans.mpr ⟨hrow, .inr hused⟩, hname⟩

/-- Where a name has a row, that row is found and nothing is inserted. -/
theorem createNamed_of_named (hunique : NamesUnique table) (h : Named table id name) :
    createNamed table name = .ok (table, id) := by
  obtain ⟨row, hrow, hname⟩ := h
  obtain ⟨⟨found, row'⟩, hfirst⟩ := RowTable.exists_first (p := isNamed name) hrow
    (decide_eq_true hname)
  obtain ⟨hfind, hnamed⟩ := RowTable.find_of_first hfirst
  obtain rfl := hunique found id row' row name hfind hrow (of_decide_eq_true hnamed) hname
  unfold createNamed
  rw [hfirst, Option.isSome_some, if_pos rfl]
  simp only [hfirst]

theorem namesUnique_insert (hunique : NamesUnique table)
    (hnew : ∀ id row, table.find id = some row → row.name ≠ some name) (elo : Option Int32) :
    NamesUnique (table.insert ⟨some name, elo⟩) := by
  intro id id' row row' shared hrow hrow' hname hname'
  rcases RowTable.find_of_insert hrow with ⟨rfl, rfl⟩ | hold
  · rcases RowTable.find_of_insert hrow' with ⟨rfl, rfl⟩ | hold'
    · rfl
    · cases hname
      exact absurd hname' (hnew id' row' hold')
  · rcases RowTable.find_of_insert hrow' with ⟨rfl, rfl⟩ | hold'
    · cases hname'
      exact absurd hname (hnew id row hold)
    · exact hunique id id' row row' shared hold hold' hname hname'

/-- A name always gets a row, and names stay unique. -/
theorem createNamed_spec (hunique : NamesUnique table) (name : String) :
    ∃ table' id, createNamed table name = .ok (table', id) ∧ table.Keeps table' ∧
      NamesUnique table' ∧ Named table' id name := by
  cases hfirst : table.first (isNamed name) with
  | some found =>
      obtain ⟨hfind, hnamed⟩ := RowTable.find_of_first hfirst
      have hname : Named table found.1 name := ⟨found.2, hfind, of_decide_eq_true hnamed⟩
      exact ⟨table, found.1, createNamed_of_named hunique hname, RowTable.Keeps.refl _, hunique,
        hname⟩
  | none =>
      have hnew : ∀ id row, table.find id = some row → row.name ≠ some name := by
        intro id row hrow hname
        obtain ⟨found, hfound⟩ := RowTable.exists_first (p := isNamed name) hrow
          (decide_eq_true hname)
        rw [hfirst] at hfound
        cases hfound
      have hunique' := namesUnique_insert hunique hnew none
      have hname : Named (table.insert ⟨some name, none⟩) table.nextId name :=
        ⟨_, RowTable.find_insert_nextId, rfl⟩
      have hcreated := createNamed_of_named hunique' hname
      refine ⟨_, table.nextId, ?_, RowTable.keeps_insert, hunique', hname⟩
      unfold createNamed at hcreated ⊢
      obtain ⟨row, hrow, hrow'⟩ := hname
      obtain ⟨found, hfound⟩ := RowTable.exists_first (p := isNamed name) hrow
        (decide_eq_true hrow')
      rw [hfound, Option.isSome_some, if_pos rfl] at hcreated
      rw [hfirst, Option.isSome_none, if_neg Bool.false_ne_true]
      exact hcreated

end Names

namespace Db

/-- Names are unique and the ids 0 stand for the unknown name. -/
structure WellNamed (db : Db) : Prop where
  players : NamesUnique db.players
  events : NamesUnique db.events
  sites : NamesUnique db.sites
  player : Named db.players 0 "Unknown"
  event : Named db.events 0 "Unknown"
  site : Named db.sites 0 "Unknown"

/-- The rows that ids refer to have the names, and `Unknown` where there is none. -/
structure Names (db : Db) (ids : GameIds) (whiteName blackName eventName siteName : Option String) :
    Prop where
  white : Named db.players ids.whiteId (whiteName.getD "Unknown")
  black : Named db.players ids.blackId (blackName.getD "Unknown")
  event : Named db.events ids.eventId (eventName.getD "Unknown")
  site : Named db.sites ids.siteId (siteName.getD "Unknown")

def nameOf (table : RowTable NamedRow) (id : ℤ) : Option String :=
  (table.find id).bind NamedRow.name

def namesOf (db : Db) (ids : GameIds) : GameNames where
  whiteName := nameOf db.players ids.whiteId
  blackName := nameOf db.players ids.blackId
  eventName := nameOf db.events ids.eventId
  siteName := nameOf db.sites ids.siteId

def resolve (db : Db) (row : GameRow) : ResolvedRow where
  toGameNames := db.namesOf row.toGameIds
  toGameTags := row.toGameTags
  whiteMaterial := row.whiteMaterial
  blackMaterial := row.blackMaterial
  plyCount := row.plyCount
  fen := row.fen
  moves := row.moves
  pawnHome := row.pawnHome

variable {db db' : Db}

theorem named_of_countWhere {table : RowTable NamedRow} {p : ℤ → NamedRow → Bool}
    (hp : ∀ id row, p id row → isUnknownRow id row = true) (h : 0 < table.countWhere p) :
    Named table 0 "Unknown" := by
  obtain ⟨id, row, hfind, hrow⟩ := RowTable.countWhere_pos.mp h
  obtain ⟨rfl, hname⟩ := of_decide_eq_true (hp id row hrow)
  exact ⟨row, hfind, hname⟩

/-- What the check of the sentinel records tells. -/
theorem wellNamed_of_validated (hplayers : NamesUnique db.players)
    (hevents : NamesUnique db.events) (hsites : NamesUnique db.sites)
    (h : db.validateSentinelRecords = .ok ()) :
    db.WellNamed := by
  have hid : ∀ id row, isUnknownRow id row → id = 0 := fun _ _ hrow ↦ (of_decide_eq_true hrow).1
  have hplayer : ∀ id row, (isUnknownRow id row && row.elo.isNone) → isUnknownRow id row = true :=
    fun _ _ hrow ↦ (Bool.and_eq_true_iff.mp hrow).1
  obtain ⟨hcount, -⟩ := of_guard h
  have hone : db.players.countWhere _ ≤ 1 :=
    RowTable.countWhere_le_one fun id row hrow ↦ hid id row (hplayer id row hrow)
  have hone' : db.events.countWhere _ ≤ 1 := RowTable.countWhere_le_one hid
  have hone'' : db.sites.countWhere _ ≤ 1 := RowTable.countWhere_le_one hid
  refine ⟨hplayers, hevents, hsites, ?_, ?_, ?_⟩
  · exact named_of_countWhere hplayer (by omega)
  · exact named_of_countWhere (fun _ _ hrow ↦ hrow) (by omega)
  · exact named_of_countWhere (fun _ _ hrow ↦ hrow) (by omega)

theorem createPlayer_spec (hdb : db.WellNamed) (name : String) :
    ∃ db' id, db.createPlayer name = .ok (db', id) ∧ db.Grows db' ∧ db'.WellNamed ∧
      Named db'.players id name := by
  obtain ⟨players, id, hcreate, hkeeps, hunique, hnamed⟩ := createNamed_spec hdb.players name
  refine ⟨{ db with players := players }, id, ?_, ?_, ?_, hnamed⟩
  · rw [createPlayer, hcreate]
    rfl
  · exact ⟨hkeeps, RowTable.Keeps.refl _, RowTable.Keeps.refl _, rfl⟩
  · exact ⟨hunique, hdb.events, hdb.sites, hdb.player.of_keeps hkeeps, hdb.event, hdb.site⟩

theorem createEvent_spec (hdb : db.WellNamed) (name : String) :
    ∃ db' id, db.createEvent name = .ok (db', id) ∧ db.Grows db' ∧ db'.WellNamed ∧
      Named db'.events id name := by
  obtain ⟨events, id, hcreate, hkeeps, hunique, hnamed⟩ := createNamed_spec hdb.events name
  refine ⟨{ db with events := events }, id, ?_, ?_, ?_, hnamed⟩
  · rw [createEvent, hcreate]
    rfl
  · exact ⟨RowTable.Keeps.refl _, hkeeps, RowTable.Keeps.refl _, rfl⟩
  · exact ⟨hdb.players, hunique, hdb.sites, hdb.player, hdb.event.of_keeps hkeeps, hdb.site⟩

theorem createSite_spec (hdb : db.WellNamed) (name : String) :
    ∃ db' id, db.createSite name = .ok (db', id) ∧ db.Grows db' ∧ db'.WellNamed ∧
      Named db'.sites id name := by
  obtain ⟨sites, id, hcreate, hkeeps, hunique, hnamed⟩ := createNamed_spec hdb.sites name
  refine ⟨{ db with sites := sites }, id, ?_, ?_, ?_, hnamed⟩
  · rw [createSite, hcreate]
    rfl
  · exact ⟨RowTable.Keeps.refl _, RowTable.Keeps.refl _, hkeeps, rfl⟩
  · exact ⟨hdb.players, hdb.events, hunique, hdb.player, hdb.event, hdb.site.of_keeps hkeeps⟩

theorem idOf_spec {create : Db → String → Except Error (Db × ℤ)} {table : Db → RowTable NamedRow}
    (hcreate : ∀ name, ∃ db' id, create db name = .ok (db', id) ∧ db.Grows db' ∧
      db'.WellNamed ∧ Named (table db') id name)
    (hdb : db.WellNamed) (hunknown : Named (table db) 0 "Unknown") (name : Option String) :
    ∃ db' id, idOf create db name = .ok (db', id) ∧ db.Grows db' ∧ db'.WellNamed ∧
      Named (table db') id (name.getD "Unknown") := by
  cases name with
  | none => exact ⟨db, 0, rfl, Grows.refl _, hdb, hunknown⟩
  | some name => exact hcreate name

theorem ok_bind {α β : Type} (a : α) (f : α → Except Error β) : (Except.ok a >>= f) = f a := rfl

theorem createIds_spec (hdb : db.WellNamed) (whiteName blackName eventName siteName : Option String) :
    ∃ db' ids, db.createIds whiteName blackName eventName siteName = .ok (db', ids) ∧
      db.Grows db' ∧ db'.WellNamed ∧ db'.Names ids whiteName blackName eventName siteName := by
  obtain ⟨db₁, whiteId, hwhite, hgrows₁, hdb₁, hnamed₁⟩ :=
    idOf_spec (createPlayer_spec hdb) hdb hdb.player whiteName
  obtain ⟨db₂, blackId, hblack, hgrows₂, hdb₂, hnamed₂⟩ :=
    idOf_spec (createPlayer_spec hdb₁) hdb₁ hdb₁.player blackName
  obtain ⟨db₃, eventId, hevent, hgrows₃, hdb₃, hnamed₃⟩ :=
    idOf_spec (createEvent_spec hdb₂) hdb₂ hdb₂.event eventName
  obtain ⟨db₄, siteId, hsite, hgrows₄, hdb₄, hnamed₄⟩ :=
    idOf_spec (createSite_spec hdb₃) hdb₃ hdb₃.site siteName
  have hgrows := hgrows₃.trans hgrows₄
  refine ⟨db₄, ⟨eventId, siteId, whiteId, blackId⟩, ?_,
    hgrows₁.trans (hgrows₂.trans hgrows), hdb₄, ?_, ?_, ?_, hnamed₄⟩
  · rw [createIds, hwhite, ok_bind]
    dsimp only
    rw [hblack, ok_bind]
    dsimp only
    rw [hevent, ok_bind]
    dsimp only
    rw [hsite, ok_bind]
    rfl
  · exact hnamed₁.of_keeps (hgrows₂.trans hgrows).players
  · exact hnamed₂.of_keeps hgrows.players
  · exact hnamed₃.of_keeps hgrows₄.events

/-- Leaving the reserved name out changes nothing: it has the id 0 anyway. -/
theorem idOf_databasePlayerName (hdb : db.WellNamed) (name : Option String) :
    idOf createPlayer db (databasePlayerName name) = idOf createPlayer db name := by
  cases name with
  | none => rfl
  | some name =>
      by_cases hname : name = "Unknown"
      · subst hname
        have hcreated : db.createPlayer "Unknown" = .ok (db, 0) := by
          rw [createPlayer, createNamed_of_named hdb.players hdb.player]
          rfl
        rw [databasePlayerName, Option.filter_some, if_neg (by simp)]
        exact hcreated.symm
      · rw [databasePlayerName, Option.filter_some, if_pos (decide_eq_true hname)]

theorem createIds_databasePlayerName (hdb : db.WellNamed)
    (whiteName blackName eventName siteName : Option String) :
    db.createIds (databasePlayerName whiteName) (databasePlayerName blackName) eventName siteName =
      db.createIds whiteName blackName eventName siteName := by
  obtain ⟨db₁, whiteId, hwhite, -, hdb₁, -⟩ :=
    idOf_spec (createPlayer_spec hdb) hdb hdb.player whiteName
  rw [createIds, createIds, idOf_databasePlayerName hdb, hwhite, ok_bind, ok_bind]
  dsimp only
  rw [idOf_databasePlayerName hdb₁]

/-! ## The two ways of storing a game -/

theorem nameOf_eq {table : RowTable NamedRow} {id : ℤ} {name : String}
    (h : Named table id name) :
    nameOf table id = some name := by
  obtain ⟨row, hrow, hname⟩ := h
  rw [nameOf, hrow, Option.bind_some, hname]

theorem Names.namesOf_eq {ids : GameIds} {whiteName blackName eventName siteName : Option String}
    (h : db.Names ids whiteName blackName eventName siteName) :
    db.namesOf ids =
      { whiteName := some (whiteName.getD "Unknown")
        blackName := some (blackName.getD "Unknown")
        eventName := some (eventName.getD "Unknown")
        siteName := some (siteName.getD "Unknown") } := by
  rw [namesOf, nameOf_eq h.white, nameOf_eq h.black, nameOf_eq h.event, nameOf_eq h.site]

/-- A stored game keeps its names when the orphans go. -/
theorem Names.of_maintained {gameId : ℤ} {row : GameRow}
    {whiteName blackName eventName siteName : Option String}
    (h : db.Names row.toGameIds whiteName blackName eventName siteName)
    (hrow : db.games.find gameId = some row) :
    (removeOrphansAndUpdateCounts db).Names row.toGameIds whiteName blackName eventName
      siteName := by
  have hcolumn : ∀ f : GameRow → ℤ, f row ∈ db.games.column f := fun f ↦
    RowTable.mem_column.mpr ⟨gameId, row, hrow, rfl⟩
  constructor
  · exact h.white.of_used (List.mem_append_left _ (hcolumn (·.whiteId)))
  · exact h.black.of_used (List.mem_append_right _ (hcolumn (·.blackId)))
  · exact h.event.of_used (hcolumn (·.eventId))
  · exact h.site.of_used (hcolumn (·.siteId))

variable {S : Shakmaty}

theorem insertToDb_eq (hdb : db.WellNamed) {named : Db} {ids : GameIds} {game : ParsedGame S}
    (hids : db.createIds game.whiteName game.blackName game.eventName game.siteName =
      .ok (named, ids)) :
    db.insertToDb game =
      if (game.row ids).checks then
        .ok ({ named with games := named.games.insert (game.row ids) }, named.games.nextId)
      else .error .diesel := by
  rw [insertToDb, createIds_databasePlayerName hdb, hids, ok_bind]
  rfl

theorem countWhere_id {games : RowTable GameRow} {gameId : ℤ} {row : GameRow}
    (hfind : games.find gameId = some row) :
    games.countWhere (fun id _ ↦ decide (id = gameId)) = 1 := by
  have hle : games.countWhere (fun id _ ↦ decide (id = gameId)) ≤ 1 :=
    RowTable.countWhere_le_one fun id _ hid ↦ of_decide_eq_true hid
  have hpos : 0 < games.countWhere (fun id _ ↦ decide (id = gameId)) :=
    RowTable.countWhere_pos.mpr ⟨gameId, row, hfind, decide_eq_true rfl⟩
  omega

theorem writeParsedDbGame_eq (rowStamp : ℤ → GameRow → String) {named : Db} {ids : GameIds}
    {game : ParsedGame S} {gameId : ℤ} {existing : GameRow}
    (hfind : db.games.find gameId = some existing) (hgrows : db.Grows named)
    (hids : db.createIds game.whiteName game.blackName game.eventName game.siteName =
      .ok (named, ids)) :
    db.writeParsedDbGame rowStamp gameId game (rowStamp gameId existing) =
      if (game.row ids).checks then
        let row := game.updateColumns ids (game.time.or existing.time)
        .ok (removeOrphansAndUpdateCounts
          { named with
            games := named.games.updateWhere (fun id _ ↦ decide (id = gameId)) fun _ ↦ row },
          rowStamp gameId row)
      else .error .diesel := by
  have hfind' : named.games.find gameId = some existing := by rw [hgrows.games, hfind]
  have hchecks : (game.updateColumns ids (game.time.or existing.time)).checks =
      (game.row ids).checks := rfl
  unfold writeParsedDbGame
  simp only [hfind, ne_eq, not_true, if_false, hids, ok_bind, hchecks]
  cases hrow : (game.row ids).checks with
  | false => rfl
  | true =>
      have hone := countWhere_id hfind'
      have hstored := RowTable.find_updateWhere_id hfind'
        (game.updateColumns ids (game.time.or existing.time)) gameId
      rw [if_pos rfl] at hstored
      have hgames := (maintained { named with
        games := named.games.updateWhere (fun id _ ↦ decide (id = gameId))
          fun _ ↦ game.updateColumns ids (game.time.or existing.time) }).games
      simp only [Bool.not_true, Bool.false_eq_true, if_false, hone, not_true, hgames, hstored,
        if_true]
      rfl

/-- The rewritten row is the inserted one with its references resolved, but for the time that a
game without one keeps. -/
structure StoresAlike (game : ParsedGame S) (existing : GameRow) (written : Db)
    (stored : GameRow) (inserted : Db) (row : GameRow) : Prop where
  columns : written.resolve stored =
    { inserted.resolve row with time := game.time.or existing.time }
  time : row.time = game.time
  names : written.namesOf stored.toGameIds =
    { whiteName := some (game.whiteName.getD "Unknown")
      blackName := some (game.blackName.getD "Unknown")
      eventName := some (game.eventName.getD "Unknown")
      siteName := some (game.siteName.getD "Unknown") }
  reservedWhite : game.whiteName = some "Unknown" → stored.whiteId = 0 ∧ row.whiteId = 0
  reservedBlack : game.blackName = some "Unknown" → stored.blackId = 0 ∧ row.blackId = 0
  plyCount : stored.plyCount = some (Int32.ofNat (iterMainlineMoveBytes game.moves).length)
  whiteMaterial : stored.whiteMaterial =
    (game.materialCount.minimumMaterial (S.board game.position)).white
  blackMaterial : stored.blackMaterial =
    (game.materialCount.minimumMaterial (S.board game.position)).black
  pawnHome : stored.pawnHome = getPawnHome (S.board game.position)

/-- Rewriting a game fails where inserting it does, and stores the same columns where it does
not. -/
theorem writeParsedDbGame_storesAlike (rowStamp : ℤ → GameRow → String) (game : ParsedGame S)
    {gameId : ℤ} {existing : GameRow} (hplayers : NamesUnique db.players)
    (hevents : NamesUnique db.events) (hsites : NamesUnique db.sites)
    (hvalidated : db.validateSentinelRecords = .ok ())
    (hfind : db.games.find gameId = some existing) :
    (db.insertToDb game = .error .diesel ∧
      db.writeParsedDbGame rowStamp gameId game (rowStamp gameId existing) = .error .diesel) ∨
    ∃ inserted id row written stored,
      db.insertToDb game = .ok (inserted, id) ∧ inserted.games.find id = some row ∧
      db.writeParsedDbGame rowStamp gameId game (rowStamp gameId existing) =
        .ok (written, rowStamp gameId stored) ∧
      written.games.find gameId = some stored ∧
      StoresAlike game existing written stored inserted row := by
  have hdb := wellNamed_of_validated hplayers hevents hsites hvalidated
  obtain ⟨named, ids, hids, hgrows, hnamed, hnames⟩ :=
    createIds_spec hdb game.whiteName game.blackName game.eventName game.siteName
  have hinsert := insertToDb_eq hdb hids
  have hwrite := writeParsedDbGame_eq rowStamp hfind hgrows hids
  cases hchecks : (game.row ids).checks with
  | false =>
      rw [hchecks, if_neg Bool.false_ne_true] at hinsert hwrite
      exact .inl ⟨hinsert, hwrite⟩
  | true =>
      rw [hchecks, if_pos rfl] at hinsert hwrite
      have hfind' : named.games.find gameId = some existing := by rw [hgrows.games, hfind]
      set row := game.updateColumns ids (game.time.or existing.time) with hrow
      set updated : Db := { named with
        games := named.games.updateWhere (fun id _ ↦ decide (id = gameId)) fun _ ↦ row }
      have hstored : updated.games.find gameId = some row := by
        rw [RowTable.find_updateWhere_id hfind', if_pos rfl]
      have hstored' : (removeOrphansAndUpdateCounts updated).games.find gameId = some row := by
        rw [(maintained updated).games, hstored]
      have hwritten : (removeOrphansAndUpdateCounts updated).Names row.toGameIds game.whiteName
          game.blackName game.eventName game.siteName :=
        Names.of_maintained ⟨hnames.white, hnames.black, hnames.event, hnames.site⟩ hstored
      refine .inr ⟨_, _, game.row ids, _, row, hinsert, RowTable.find_insert_nextId, hwrite,
        hstored', ?_⟩
      have hreserved : ∀ id name, Named named.players id (name.getD "Unknown") →
          name = some "Unknown" → id = 0 := by
        rintro id _ ⟨found, hfound, hname⟩ rfl
        obtain ⟨unknown, hunknown, hname'⟩ := hnamed.player
        exact hnamed.players _ _ _ _ _ hfound hunknown hname hname'
      constructor
      · rw [resolve, resolve, hwritten.namesOf_eq]
        change _ = ResolvedRow.mk (named.namesOf ids) _ _ _ _ _ _ _
        rw [hnames.namesOf_eq]
        rfl
      · rfl
      · exact hwritten.namesOf_eq
      · intro hname
        exact ⟨hreserved _ _ hnames.white hname, hreserved _ _ hnames.white hname⟩
      · intro hname
        exact ⟨hreserved _ _ hnames.black hname, hreserved _ _ hnames.black hname⟩
      all_goals rfl

end Db

namespace DatabaseMutation

theorem find_singleton {row found : NamedRow} {sequence : Option ℤ} {id : ℤ}
    (hfind : RowTable.find ⟨AList.singleton 0 row, sequence⟩ id = some found) :
    id = 0 ∧ found = row := by
  by_cases hid : id = 0
  · subst hid
    exact ⟨rfl, (Option.some.inj hfind).symm⟩
  · have hnone : (AList.singleton 0 row : AList fun _ : ℤ ↦ NamedRow).lookup id = none := by
      rw [AList.lookup_eq_none, AList.mem_keys, AList.keys_singleton, List.mem_singleton]
      exact hid
    rw [RowTable.find, hnone] at hfind
    cases hfind

theorem namesUnique_singleton (row : NamedRow) (sequence : Option ℤ) :
    NamesUnique ⟨AList.singleton 0 row, sequence⟩ := by
  intro id id' found found' name hfind hfind' _ _
  rw [(find_singleton hfind).1, (find_singleton hfind').1]

/-- A game of the reserved player name. -/
def unknownGame : ParsedGame PawnEnding.library where
  toTempGame := TempGame.default PawnEnding.library
  date := none
  time := none
  round := none
  whiteElo := none
  blackElo := none
  result := some "1-0"
  timeControl := none
  eco := none
  orientation := none
  eventName := none
  siteName := none
  whiteName := some "Unknown"
  blackName := some "White"

theorem writeParsedDbGame_storesAlike_twiceStored :
    ∃ (inserted : Db) (row : GameRow) (written : Db) (stored : GameRow),
      twiceStored.writeParsedDbGame (fun _ _ ↦ "") 1 unknownGame "" = .ok (written, "") ∧
      written.games.find 1 = some stored ∧ stored.whiteId = 0 ∧
      written.resolve stored = { inserted.resolve row with time := none } := by
  have hplayers : NamesUnique twiceStored.players := by
    refine namesUnique_insert (namesUnique_insert (namesUnique_singleton _ _) ?_ none) ?_ none
    · intro id row hfind
      obtain ⟨-, rfl⟩ := find_singleton hfind
      decide
    · intro id row hfind
      rcases RowTable.find_of_insert hfind with ⟨-, rfl⟩ | hfind
      · decide
      · obtain ⟨-, rfl⟩ := find_singleton hfind
        decide
  rcases Db.writeParsedDbGame_storesAlike (fun _ _ ↦ "") unknownGame hplayers
    (namesUnique_singleton _ _) (namesUnique_singleton _ _) rfl
    (rfl : twiceStored.games.find 1 = some playedGame) with
    ⟨herror, -⟩ | ⟨inserted, id, row, written, stored, -, -, hwrite, hstored, halike⟩
  · cases herror
  · exact ⟨inserted, row, written, stored, hwrite, hstored, (halike.reservedWhite rfl).1,
      halike.columns⟩

end DatabaseMutation

end EnCroissant
