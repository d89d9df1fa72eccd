import EnCroissant.Library.ClaimedPool
import EnCroissant.Database.Rewriting
import EnCroissant.Accounts.AccountImporter

/-!
# Imports in any order

The fingerprints an importer remembers are those of the stored games.  With the
games of a fingerprint as rows and the provider ids as the names that claim them,
an import is a run over a pool of claimed rows, whose end does not depend on the
order.
-/

namespace EnCroissant

/-! ## Stored fingerprints -/

def Db.storedFingerprint (db : Db) (env : AccountEnv) (identity : AccountIdentity) (gameId : ℤ) :
    Option String :=
  ((db.games.find gameId).bind db.storedFields).map (env.semanticFingerprint identity)

/-- What the schema and its constraints say of a database with imported games. -/
structure AccountDb.Valid (adb : AccountDb) : Prop where
  wellNamed : adb.db.WellNamed
  integrity : adb.db.Integrity
  ids : ∀ gameId row, adb.db.games.find gameId = some row → -1 < gameId
  games : ∀ key gameId, adb.providerGames.lookup key = some gameId →
    ∃ row, adb.db.games.find gameId = some row
  unique : ∀ key key' gameId, adb.providerGames.lookup key = some gameId →
    adb.providerGames.lookup key' = some gameId → key = key'

/-- The importer remembers the fingerprints of the stored games. -/
def AccountImporter.InSync (importer : AccountImporter) (env : AccountEnv) (db : Db) : Prop :=
  ∀ gameId, importer.fingerprints.lookup gameId =
    db.storedFingerprint env importer.context.identity gameId

section

variable {env : AccountEnv} {identity : AccountIdentity} {db db' : Db} {adb : AccountDb}
  {S : Shakmaty}

theorem Db.Integrity.storedFields (h : db.Integrity) {gameId : ℤ} {row : GameRow}
    (hfind : db.games.find gameId = some row) : ∃ fields, db.storedFields row = some fields := by
  obtain ⟨white, hwhite⟩ := (h gameId row hfind).white
  obtain ⟨black, hblack⟩ := (h gameId row hfind).black
  rw [Db.storedFields, hwhite, hblack]
  exact ⟨_, rfl⟩

/-- Rows of players that are there stay as they are, and so do the fields read from them. -/
theorem storedFields_of_keeps (hplayers : db.players.Keeps db'.players) {row : GameRow}
    {fields : FingerprintFields} (h : db.storedFields row = some fields) :
    db'.storedFields row = some fields := by
  obtain ⟨white, hwhite, h⟩ := Option.bind_eq_some_iff.mp h
  obtain ⟨black, hblack, h⟩ := Option.bind_eq_some_iff.mp h
  rw [Db.storedFields, hplayers _ _ hwhite, hplayers _ _ hblack]
  exact h

theorem inSync_new (hadb : adb.Valid) (context : AccountImportContext) :
    (AccountImporter.new env adb context).InSync env adb.db := by
  intro gameId
  rw [AccountImporter.new, AList.lookup_filterMapValues, Db.storedFingerprint]
  cases hfind : adb.db.games.find gameId with
  | none =>
      rw [RowTable.find] at hfind
      rw [hfind]
      rfl
  | some row =>
      have hid := hadb.ids gameId row hfind
      rw [RowTable.find] at hfind
      rw [hfind, Option.bind_some, Option.bind_some, if_pos hid]

/-! ## Storing a game -/

/-- A name is read back from the row that was found or made for it. -/
theorem storedName {table : RowTable NamedRow} (hunique : NamesUnique table)
    (hunknown : Named table 0 "Unknown") {name : Option String} {id : ℤ}
    (h : Named table id ((databasePlayerName name).getD "Unknown")) :
    ∃ row, table.find id = some row ∧
      (if id ≠ 0 then row.name else none) = databasePlayerName name := by
  obtain ⟨row, hrow, hname⟩ := h
  obtain ⟨unknown, hfind, hreserved⟩ := hunknown
  refine ⟨row, hrow, ?_⟩
  cases hdatabase : databasePlayerName name with
  | none =>
      rw [hdatabase, Option.getD_none] at hname
      rw [if_neg (not_not.mpr (hunique id 0 row unknown "Unknown" hrow hfind hname hreserved))]
  | some given =>
      have hgiven : given ≠ "Unknown" :=
        of_decide_eq_true (Option.filter_eq_some_iff.mp hdatabase).2
      rw [hdatabase, Option.getD_some] at hname
      rw [if_pos, hname]
      rintro rfl
      rw [hfind] at hrow
      obtain rfl := Option.some.inj hrow
      rw [hname] at hreserved
      exact hgiven (Option.some.inj hreserved)

/-- What storing a game does to the database. -/
structure Db.Stores (db : Db) (game : AccountGame S) (db' : Db) : Prop where
  wellNamed : db'.WellNamed
  integrity : db'.Integrity
  players : db.players.Keeps db'.players
  games : ∃ row, db'.games = db.games.insert row ∧
    db'.storedFields row = some game.fingerprintFields

theorem insertToDb_stores (hdb : db.WellNamed) (hintegrity : db.Integrity) {game : AccountGame S}
    (hwhite : databasePlayerName game.whiteName = game.whiteName)
    (hblack : databasePlayerName game.blackName = game.blackName)
    (hchecks : ∀ ids, (game.row ids).checks = true) :
    ∃ db', db.insertToDb game.toParsedGame = .ok (db', db.games.nextId) ∧ db.Stores game db' := by
  obtain ⟨named, ids, hids, hgrows, hnamed, hnames⟩ :=
    Db.createIds_spec hdb game.whiteName game.blackName game.eventName game.siteName
  have hinsert := Db.insertToDb_eq hdb hids
  rw [if_pos (hchecks ids), hgrows.games] at hinsert
  have hunknown : db.HasUnknown :=
    ⟨hdb.player.imp fun _ h ↦ h.1, hdb.event.imp fun _ h ↦ h.1, hdb.site.imp fun _ h ↦ h.1⟩
  have hrefers : named.Refers ids := (Db.createIds_ok hunknown hids).2
  have hwhiteName := hnames.white
  have hblackName := hnames.black
  rw [← hwhite] at hwhiteName
  rw [← hblack] at hblackName
  obtain ⟨white, hwhiteRow, hwhiteField⟩ := storedName hnamed.players hnamed.player hwhiteName
  obtain ⟨black, hblackRow, hblackField⟩ := storedName hnamed.players hnamed.player hblackName
  refine ⟨_, hinsert, ?_, ?_, hgrows.players, game.row ids, rfl, ?_⟩
  · exact ⟨hnamed.players, hnamed.events, hnamed.sites, hnamed.player, hnamed.event, hnamed.site⟩
  · rw [← hgrows.games]
    exact DatabaseMutation.integrity_insert (hgrows.integrity hintegrity) hrefers
  · have hwhiteId : (game.row ids).whiteId = ids.whiteId := rfl
    have hblackId : (game.row ids).blackId = ids.blackId := rfl
    rw [Db.storedFields, hwhiteId, hblackId, hwhiteRow, hblackRow, Option.bind_eq_bind,
      Option.bind_some, Option.bind_some, hwhiteField, hblackField, hwhite, hblack]
    rfl

/-- The fingerprints after a game was stored: its own is new, the others stay. -/
theorem Db.Stores.storedFingerprint {game : AccountGame S} (h : db.Stores game db')
    (hdb : db.Integrity) (gameId : ℤ) :
    db'.storedFingerprint env identity gameId =
      if gameId = db.games.nextId then
        some (env.semanticFingerprint identity game.fingerprintFields)
      else db.storedFingerprint env identity gameId := by
  obtain ⟨row, hgames, hfields⟩ := h.games
  rw [Db.storedFingerprint, hgames]
  split_ifs with hid
  · rw [hid, RowTable.find_insert_nextId, Option.bind_some, hfields]
    rfl
  · rw [RowTable.find_insert_of_ne hid, Db.storedFingerprint]
    cases hfind : db.games.find gameId with
    | none => rfl
    | some old =>
        obtain ⟨fields, hold⟩ := hdb.storedFields hfind
        rw [Option.bind_some, Option.bind_some, hold, storedFields_of_keeps h.players hold]

theorem storedFingerprint_nextId : db.storedFingerprint env identity db.games.nextId = none := by
  rw [Db.storedFingerprint, RowTable.find_nextId]
  rfl

theorem exists_row_of_storedFingerprint {gameId : ℤ} {fingerprint : String}
    (h : db.storedFingerprint env identity gameId = some fingerprint) :
    ∃ row, db.games.find gameId = some row := by
  obtain ⟨fields, hfields, -⟩ := Option.map_eq_some_iff.mp h
  obtain ⟨row, hrow, -⟩ := Option.bind_eq_some_iff.mp hfields
  exact ⟨row, hrow⟩

/-- A game whose names and columns the importer accepts. -/
def AccountGame.Importable (game : AccountGame S) : Prop := ∀ ids, (game.row ids).checks = true

theorem databasePlayerName_idem (name : Option String) :
    databasePlayerName (databasePlayerName name) = databasePlayerName name := by
  rw [databasePlayerName, databasePlayerName, Option.filter_filter]
  simp

theorem remember_ok {fingerprints : AList fun _ : ℤ ↦ String} {gameId : ℤ}
    (h : fingerprints.lookup gameId = none) (fingerprint : String) :
    ∃ fingerprints', remember fingerprints gameId fingerprint = .ok fingerprints' ∧
      ∀ id, fingerprints'.lookup id =
        if id = gameId then some fingerprint else fingerprints.lookup id := by
  refine ⟨fingerprints.insert gameId fingerprint, ?_, fun id ↦ ?_⟩
  · rw [remember, h, if_neg (by decide)]
  · split_ifs with hid
    · rw [hid]
      exact AList.lookup_insert _
    · exact AList.lookup_insert_ne hid

/-- A database with a game more. -/
structure AccountDb.Stores (env : AccountEnv) (identity : AccountIdentity) (adb : AccountDb)
    (game : AccountGame S) (adb' : AccountDb) : Prop where
  valid : adb'.Valid
  providerGames : adb'.providerGames = adb.providerGames
  count : adb'.db.games.count = adb.db.games.count + 1
  fingerprints : ∀ gameId, adb'.db.storedFingerprint env identity gameId =
    if gameId = adb.db.games.nextId then
      some (env.semanticFingerprint identity game.fingerprintFields)
    else adb.db.storedFingerprint env identity gameId

theorem store_spec (hadb : adb.Valid) {importer : AccountImporter}
    (hsync : importer.InSync env adb.db) {game : AccountGame S} (hgame : game.Importable)
    (hwhite : databasePlayerName game.whiteName = game.whiteName)
    (hblack : databasePlayerName game.blackName = game.blackName) :
    ∃ adb' importer', importer.store adb game
        (env.semanticFingerprint importer.context.identity game.fingerprintFields) =
          .ok (adb', importer', adb.db.games.nextId) ∧
      adb.Stores env importer.context.identity game adb' ∧ importer'.InSync env adb'.db ∧
      importer'.context = importer.context := by
  obtain ⟨db', hinsert, hstores⟩ :=
    insertToDb_stores hadb.wellNamed hadb.integrity hwhite hblack hgame
  have hfingerprints := @Db.Stores.storedFingerprint env importer.context.identity _ _ _ _ hstores
    hadb.integrity
  obtain ⟨row, hgames, hfields⟩ := hstores.games
  have hfresh : importer.fingerprints.lookup adb.db.games.nextId = none :=
    (hsync _).trans storedFingerprint_nextId
  have hnonneg : -1 < adb.db.games.nextId := RowTable.lt_nextId_of_forall (by decide) hadb.ids
  obtain ⟨fingerprints, hremember, hlookup⟩ := remember_ok hfresh
    (env.semanticFingerprint importer.context.identity game.fingerprintFields)
  refine ⟨{ adb with db := db' }, { importer with fingerprints := fingerprints }, ?_,
    ⟨⟨?_, ?_, ?_, ?_, ?_⟩, rfl, ?_, hfingerprints⟩, ?_, rfl⟩
  · rw [AccountImporter.store, hinsert, Db.ok_bind]
    dsimp only
    rw [hremember]
    rfl
  · exact hstores.wellNamed
  · exact hstores.integrity
  · intro gameId found hfind
    dsimp only at hfind
    rw [hgames] at hfind
    rcases RowTable.find_of_insert hfind with ⟨rfl, -⟩ | hold
    · exact hnonneg
    · exact hadb.ids gameId found hold
  · intro key gameId hlink
    obtain ⟨found, hfound⟩ := hadb.games key gameId hlink
    refine ⟨found, ?_⟩
    dsimp only
    rw [hgames]
    exact RowTable.find_insert_of_find hfound
  · exact hadb.unique
  · dsimp only
    rw [hgames, RowTable.count_insert]
  · intro gameId
    dsimp only
    rw [hfingerprints, hlookup, hsync]

/-! ## Attaching a provider id -/

/-- A provider id is attached to the game. -/
def AccountDb.Linked (adb : AccountDb) (gameId : ℤ) : Prop :=
  ∃ key, adb.providerGames.lookup key = some gameId

theorem linked_iff_any {gameId : ℤ} :
    (adb.providerGames.entries.any fun link ↦ decide (link.2 = gameId)) = true ↔
      adb.Linked gameId := by
  rw [List.any_eq_true]
  constructor
  · rintro ⟨⟨key, value⟩, hmem, hvalue⟩
    obtain rfl := of_decide_eq_true hvalue
    exact ⟨key, AList.mem_lookup_iff.mpr hmem⟩
  · rintro ⟨key, hkey⟩
    exact ⟨⟨key, gameId⟩, AList.mem_lookup_iff.mp hkey, decide_eq_true rfl⟩

theorem insertProviderGame_spec (hadb : adb.Valid) {provider id : String} {gameId : ℤ}
    {row : GameRow} (hrow : adb.db.games.find gameId = some row)
    (hkey : adb.providerGames.lookup (provider, id) = none) (hgame : ¬adb.Linked gameId) :
    ∃ adb', insertProviderGame adb provider id gameId = .ok adb' ∧ adb'.Valid ∧
      adb'.db = adb.db ∧ ∀ key, adb'.providerGames.lookup key =
        if key = (provider, id) then some gameId else adb.providerGames.lookup key := by
  have hfree : ¬((adb.providerGames.lookup (provider, id)).isSome ∨
      ∃ entry ∈ adb.providerGames.entries, entry.2 = gameId) := by
    rintro (hsome | ⟨⟨key, value⟩, hmem, rfl⟩)
    · rw [hkey] at hsome
      cases hsome
    · exact hgame ⟨key, AList.mem_lookup_iff.mpr hmem⟩
  have hlookup : ∀ key, (adb.providerGames.insert (provider, id) gameId).lookup key =
      if key = (provider, id) then some gameId else adb.providerGames.lookup key := by
    intro key
    split_ifs with h
    · rw [h]
      exact AList.lookup_insert _
    · exact AList.lookup_insert_ne h
  refine ⟨_, if_neg hfree, ⟨hadb.wellNamed, hadb.integrity, hadb.ids, ?_, ?_⟩, rfl, hlookup⟩
  · intro key found hfound
    rw [hlookup] at hfound
    split_ifs at hfound
    · obtain rfl := Option.some.inj hfound
      exact ⟨row, hrow⟩
    · exact hadb.games key found hfound
  · intro key key' found hfound hfound'
    rw [hlookup] at hfound hfound'
    split_ifs at hfound with h <;> split_ifs at hfound' with h'
    · rw [h, h']
    · obtain rfl := Option.some.inj hfound
      exact absurd ⟨key', hfound'⟩ hgame
    · obtain rfl := Option.some.inj hfound'
      exact absurd ⟨key, hfound⟩ hgame
    · exact hadb.unique key key' found hfound hfound'

theorem legacyGame_eq_some {importer : AccountImporter} (hsync : importer.InSync env adb.db)
    {fingerprint : String} {gameId : ℤ}
    (h : importer.legacyGame adb fingerprint = some gameId) :
    adb.db.storedFingerprint env importer.context.identity gameId = some fingerprint ∧
      ¬adb.Linked gameId := by
  have hmem := (List.min?_eq_some_iff.mp h).1
  obtain ⟨⟨found, value⟩, hentry, rfl⟩ := List.mem_map.mp hmem
  obtain ⟨hstored, htest⟩ := List.mem_filter.mp hentry
  rw [Bool.and_eq_true, Bool.not_eq_true', decide_eq_true_iff] at htest
  obtain ⟨rfl, hfree⟩ := htest
  refine ⟨?_, fun hlinked ↦ ?_⟩
  · rw [← hsync]
    exact AList.mem_lookup_iff.mpr hstored
  · rw [linked_iff_any.mpr hlinked] at hfree
    cases hfree

theorem legacyGame_eq_none {importer : AccountImporter} (hsync : importer.InSync env adb.db)
    {fingerprint : String} (h : importer.legacyGame adb fingerprint = none) {gameId : ℤ}
    (hfingerprint : adb.db.storedFingerprint env importer.context.identity gameId =
      some fingerprint) : adb.Linked gameId := by
  by_contra hfree
  rw [← hsync] at hfingerprint
  have hany : (adb.providerGames.entries.any fun link ↦ decide (link.2 = gameId)) = false :=
    Bool.eq_false_iff.mpr fun hany ↦ hfree (linked_iff_any.mp hany)
  have hmem : gameId ∈ (importer.fingerprints.entries.filter fun entry ↦
      decide (entry.2 = fingerprint) &&
        !adb.providerGames.entries.any fun link ↦ link.2 = entry.1).map Sigma.fst := by
    refine List.mem_map.mpr ⟨⟨gameId, fingerprint⟩, List.mem_filter.mpr
      ⟨AList.mem_lookup_iff.mp hfingerprint, ?_⟩, rfl⟩
    dsimp only
    rw [hany, decide_eq_true rfl]
    rfl
  rw [List.min?_eq_none_iff.mp h] at hmem
  cases hmem

theorem hasFingerprint_iff {importer : AccountImporter} (hsync : importer.InSync env adb.db)
    {fingerprint : String} :
    importer.hasFingerprint fingerprint = true ↔ ∃ gameId,
      adb.db.storedFingerprint env importer.context.identity gameId = some fingerprint := by
  rw [AccountImporter.hasFingerprint, List.any_eq_true]
  constructor
  · rintro ⟨⟨gameId, value⟩, hmem, hvalue⟩
    obtain rfl := of_decide_eq_true hvalue
    refine ⟨gameId, ?_⟩
    rw [← hsync]
    exact AList.mem_lookup_iff.mpr hmem
  · rintro ⟨gameId, hgame⟩
    rw [← hsync] at hgame
    exact ⟨⟨gameId, fingerprint⟩, AList.mem_lookup_iff.mp hgame, decide_eq_true rfl⟩

/-! ## The pool of a database -/

namespace AccountDb

/-- The stored games of a fingerprint. -/
def gamesOf (env : AccountEnv) (identity : AccountIdentity) (adb : AccountDb)
    (fingerprint : String) : Finset ℤ :=
  adb.db.games.idsWhere fun _ row ↦ decide
    ((adb.db.storedFields row).map (env.semanticFingerprint identity) = some fingerprint)

open Classical in
noncomputable def pool (env : AccountEnv) (identity : AccountIdentity) (adb : AccountDb) :
    ClaimedPool String String where
  rows fingerprint := (adb.gamesOf env identity fingerprint).card
  claimed fingerprint := ((adb.gamesOf env identity fingerprint).filter adb.Linked).card
  names := {id | ∃ gameId, adb.providerGames.lookup (identity.provider, id) = some gameId}

end AccountDb

variable {adb' : AccountDb} {digest : String} {gameId : ℤ}

theorem mem_gamesOf :
    gameId ∈ adb.gamesOf env identity digest ↔
      adb.db.storedFingerprint env identity gameId = some digest := by
  rw [AccountDb.gamesOf, RowTable.mem_idsWhere, Db.storedFingerprint]
  cases adb.db.games.find gameId with
  | none => simp
  | some row => simp

theorem gamesOf_congr (hdb : adb'.db = adb.db) :
    adb'.gamesOf env identity digest = adb.gamesOf env identity digest := by
  rw [AccountDb.gamesOf, AccountDb.gamesOf, hdb]

theorem linked_congr (h : adb'.providerGames = adb.providerGames) :
    adb'.Linked gameId ↔ adb.Linked gameId := by
  rw [AccountDb.Linked, AccountDb.Linked, h]

theorem AccountDb.Valid.not_linked_nextId (hadb : adb.Valid) : ¬adb.Linked adb.db.games.nextId := by
  rintro ⟨key, hkey⟩
  obtain ⟨row, hrow⟩ := hadb.games key _ hkey
  rw [RowTable.find_nextId] at hrow
  cases hrow

open Classical in
theorem pool_claimed_eq (c : String) :
    (adb.pool env identity).claimed c = ((adb.gamesOf env identity c).filter adb.Linked).card := rfl

theorem pool_claimed_le (c : String) :
    (adb.pool env identity).claimed c ≤ (adb.pool env identity).rows c := by
  classical
  rw [pool_claimed_eq]
  exact Finset.card_filter_le _ _

theorem nextId_notMem_gamesOf (c : String) :
    adb.db.games.nextId ∉ adb.gamesOf env identity c := by
  rw [mem_gamesOf, storedFingerprint_nextId]
  exact nofun

section

variable {game : AccountGame S} (h : adb.Stores env identity game adb')

include h

theorem AccountDb.Stores.gamesOf (c : String) :
    adb'.gamesOf env identity c =
      if c = env.semanticFingerprint identity game.fingerprintFields then
        insert adb.db.games.nextId (adb.gamesOf env identity c)
      else adb.gamesOf env identity c := by
  ext found
  rw [mem_gamesOf, h.fingerprints]
  by_cases hc : c = env.semanticFingerprint identity game.fingerprintFields
  · rw [if_pos hc, Finset.mem_insert, mem_gamesOf]
    by_cases hid : found = adb.db.games.nextId
    · simp [hid, hc]
    · simp [hid]
  · rw [if_neg hc, mem_gamesOf]
    by_cases hid : found = adb.db.games.nextId
    · rw [if_pos hid, hid, storedFingerprint_nextId]
      simp [Ne.symm hc]
    · rw [if_neg hid]

theorem AccountDb.Stores.pool_rows :
    (adb'.pool env identity).rows = Function.update (adb.pool env identity).rows
      (env.semanticFingerprint identity game.fingerprintFields)
      ((adb.pool env identity).rows
        (env.semanticFingerprint identity game.fingerprintFields) + 1) := by
  funext c
  rw [Function.update_apply]
  change (adb'.gamesOf env identity c).card = _
  rw [h.gamesOf]
  split_ifs with hc
  · rw [Finset.card_insert_of_notMem (nextId_notMem_gamesOf c), hc]
    rfl
  · rfl

theorem AccountDb.Stores.pool_claimed (hadb : adb.Valid) :
    (adb'.pool env identity).claimed = (adb.pool env identity).claimed := by
  classical
  funext c
  have hfilter : (adb'.gamesOf env identity c).filter adb'.Linked =
      (adb.gamesOf env identity c).filter adb.Linked := by
    ext found
    rw [Finset.mem_filter, Finset.mem_filter, linked_congr h.providerGames, h.gamesOf]
    split_ifs
    · rw [Finset.mem_insert]
      constructor
      · rintro ⟨rfl | hmem, hlinked⟩
        · exact absurd hlinked hadb.not_linked_nextId
        · exact ⟨hmem, hlinked⟩
      · exact fun ⟨hmem, hlinked⟩ ↦ ⟨.inr hmem, hlinked⟩
    · rfl
  rw [pool_claimed_eq, pool_claimed_eq, hfilter]

theorem AccountDb.Stores.pool_names :
    (adb'.pool env identity).names = (adb.pool env identity).names := by
  ext id
  change (∃ gameId, adb'.providerGames.lookup _ = some gameId) ↔ _
  rw [h.providerGames]
  rfl

end

/-- A database with a provider id more. -/
structure AccountDb.Links (adb : AccountDb) (provider id : String) (gameId : ℤ)
    (adb' : AccountDb) : Prop where
  valid : adb'.Valid
  db : adb'.db = adb.db
  lookup : ∀ key, adb'.providerGames.lookup key =
    if key = (provider, id) then some gameId else adb.providerGames.lookup key

section

variable {id : String} (h : adb.Links identity.provider id gameId adb')
  (hnew : adb.providerGames.lookup (identity.provider, id) = none)

include h

theorem AccountDb.Links.pool_rows :
    (adb'.pool env identity).rows = (adb.pool env identity).rows := by
  funext c
  change (adb'.gamesOf env identity c).card = (adb.gamesOf env identity c).card
  rw [gamesOf_congr h.db]

theorem AccountDb.Links.pool_names :
    (adb'.pool env identity).names = insert id (adb.pool env identity).names := by
  ext name
  change (∃ gameId, adb'.providerGames.lookup _ = some gameId) ↔
    name = id ∨ ∃ gameId, adb.providerGames.lookup _ = some gameId
  rw [h.lookup]
  by_cases hname : name = id
  · rw [if_pos (by rw [hname])]
    simp [hname]
  · rw [if_neg fun hkey ↦ hname (Prod.mk.inj hkey).2]
    simp [hname]

include hnew

theorem AccountDb.Links.linked_iff {found : ℤ} :
    adb'.Linked found ↔ found = gameId ∨ adb.Linked found := by
  constructor
  · rintro ⟨key, hkey⟩
    rw [h.lookup] at hkey
    split_ifs at hkey
    · exact .inl (Option.some.inj hkey).symm
    · exact .inr ⟨key, hkey⟩
  · rintro (rfl | ⟨key, hkey⟩)
    · exact ⟨_, (h.lookup _).trans (if_pos rfl)⟩
    · refine ⟨key, (h.lookup key).trans ?_⟩
      rw [if_neg, hkey]
      rintro rfl
      rw [hnew] at hkey
      cases hkey

theorem AccountDb.Links.pool_claimed {c : String} (hmem : gameId ∈ adb.gamesOf env identity c)
    (hfree : ¬adb.Linked gameId) :
    (adb'.pool env identity).claimed = Function.update (adb.pool env identity).claimed c
      ((adb.pool env identity).claimed c + 1) := by
  classical
  funext c'
  rw [Function.update_apply, pool_claimed_eq, pool_claimed_eq, pool_claimed_eq, gamesOf_congr h.db]
  split_ifs with hc
  · subst hc
    have hinsert : (adb.gamesOf env identity c').filter adb'.Linked =
        insert gameId ((adb.gamesOf env identity c').filter adb.Linked) := by
      ext found
      rw [Finset.mem_filter, Finset.mem_insert, Finset.mem_filter, h.linked_iff hnew]
      constructor
      · rintro ⟨hfound, rfl | hlinked⟩
        · exact .inl rfl
        · exact .inr ⟨hfound, hlinked⟩
      · rintro (rfl | ⟨hfound, hlinked⟩)
        · exact ⟨hmem, .inl rfl⟩
        · exact ⟨hfound, .inr hlinked⟩
    rw [hinsert, Finset.card_insert_of_notMem fun hold ↦ hfree (Finset.mem_filter.mp hold).2]
  · have hsame : (adb.gamesOf env identity c').filter adb'.Linked =
        (adb.gamesOf env identity c').filter adb.Linked := by
      ext found
      rw [Finset.mem_filter, Finset.mem_filter, h.linked_iff hnew]
      refine and_congr_right fun hfound ↦ ⟨?_, .inr⟩
      rintro (rfl | hlinked)
      · rw [mem_gamesOf] at hfound hmem
        rw [hfound] at hmem
        exact absurd (Option.some.inj hmem) hc
      · exact hlinked
    rw [hsame]

end

/-! ## Importing a game -/

def AccountGame.fingerprint (env : AccountEnv) (identity : AccountIdentity)
    (game : AccountGame S) : String :=
  env.semanticFingerprint identity game.reserveNames.fingerprintFields

/-- The id of the game is attached, or the game has none and its fingerprint is stored. -/
def AccountDb.Knows (env : AccountEnv) (identity : AccountIdentity) (adb : AccountDb)
    (game : AccountGame S) : Option String → Prop
  | some id => ∃ gameId, adb.providerGames.lookup (identity.provider, id) = some gameId
  | none => ∃ gameId,
      adb.db.storedFingerprint env identity gameId = some (game.fingerprint env identity)

/-- Fingerprints and attached ids stay. -/
structure AccountDb.Continues (env : AccountEnv) (identity : AccountIdentity)
    (adb adb' : AccountDb) : Prop where
  fingerprints : ∀ gameId fingerprint,
    adb.db.storedFingerprint env identity gameId = some fingerprint →
      adb'.db.storedFingerprint env identity gameId = some fingerprint
  links : ∀ key gameId, adb.providerGames.lookup key = some gameId →
    adb'.providerGames.lookup key = some gameId

theorem AccountDb.Continues.refl (adb : AccountDb) : adb.Continues env identity adb :=
  ⟨fun _ _ h ↦ h, fun _ _ h ↦ h⟩

theorem AccountDb.Continues.trans {adb'' : AccountDb} (h : adb.Continues env identity adb')
    (h' : adb'.Continues env identity adb'') : adb.Continues env identity adb'' :=
  ⟨fun id fp hfp ↦ h'.fingerprints id fp (h.fingerprints id fp hfp),
    fun key id hid ↦ h'.links key id (h.links key id hid)⟩

theorem AccountDb.Stores.continues {game : AccountGame S} (h : adb.Stores env identity game adb') :
    adb.Continues env identity adb' where
  fingerprints found fp hfp := by
    rw [h.fingerprints, if_neg, hfp]
    rintro rfl
    rw [storedFingerprint_nextId] at hfp
    cases hfp
  links key found hkey := by rw [h.providerGames, hkey]

theorem AccountDb.Links.continues {id : String} (h : adb.Links identity.provider id gameId adb')
    (hnew : adb.providerGames.lookup (identity.provider, id) = none) :
    adb.Continues env identity adb' where
  fingerprints found fp hfp := by rw [h.db, hfp]
  links key found hkey := by
    rw [h.lookup, if_neg, hkey]
    rintro rfl
    rw [hnew] at hkey
    cases hkey

/-- What importing a game does: one step of the pool, and nothing for a game that is known. -/
structure AccountImporter.Inserts (env : AccountEnv) (importer : AccountImporter)
    (adb : AccountDb) (game : AccountGame S) (id : Option String) (adb' : AccountDb)
    (importer' : AccountImporter) (inserted : Bool) : Prop where
  valid : adb'.Valid
  inSync : importer'.InSync env adb'.db
  context : importer'.context = importer.context
  pool : adb'.pool env importer.context.identity = (adb.pool env importer.context.identity).add
    (game.fingerprint env importer.context.identity, id)
  continues : adb.Continues env importer.context.identity adb'
  unknown : inserted = true → ¬adb.Knows env importer.context.identity game id
  stored : inserted = true → adb'.db.games.count = adb.db.games.count + 1 ∧
    adb'.db.storedFingerprint env importer.context.identity adb.db.games.nextId =
      some (game.fingerprint env importer.context.identity)
  games : inserted = false → adb'.db.games = adb.db.games

theorem insertUnidentified_spec (hadb : adb.Valid) {importer : AccountImporter}
    (hsync : importer.InSync env adb.db) {game : AccountGame S} (hgame : game.Importable) :
    ∃ adb' importer' inserted, importer.insertUnidentified adb game.reserveNames
        (game.fingerprint env importer.context.identity) = .ok (adb', importer', inserted) ∧
      importer.Inserts env adb game none adb' importer' inserted := by
  have hgame' : game.reserveNames.Importable := hgame
  by_cases hknown : ∃ gameId, adb.db.storedFingerprint env importer.context.identity gameId =
      some (game.fingerprint env importer.context.identity)
  · refine ⟨adb, importer, false, ?_, hadb, hsync, rfl, ?_, .refl adb,
      fun h ↦ absurd h Bool.false_ne_true, fun h ↦ absurd h Bool.false_ne_true, fun _ ↦ rfl⟩
    · rw [AccountImporter.insertUnidentified, if_pos ((hasFingerprint_iff hsync).mpr hknown)]
      rfl
    · obtain ⟨gameId, hgameId⟩ := hknown
      have hpos : 1 ≤ (adb.pool env importer.context.identity).rows
          (game.fingerprint env importer.context.identity) :=
        Finset.card_pos.mpr ⟨gameId, mem_gamesOf.mpr hgameId⟩
      rw [ClaimedPool.add, max_eq_left hpos, Function.update_eq_self]
  · obtain ⟨adb', importer', hstore, hstores, hsync', hcontext⟩ :=
      store_spec hadb hsync hgame' (databasePlayerName_idem _) (databasePlayerName_idem _)
    refine ⟨adb', importer', true, ?_, hstores.valid, hsync', hcontext, ?_, hstores.continues,
      fun _ ↦ hknown, fun _ ↦ ⟨hstores.count, ?_⟩, fun h ↦ absurd h.symm Bool.false_ne_true⟩
    · rw [AccountImporter.insertUnidentified,
        if_neg fun hhas ↦ hknown ((hasFingerprint_iff hsync).mp hhas)]
      rw [AccountGame.fingerprint, hstore]
      rfl
    · have hzero : (adb.pool env importer.context.identity).rows
          (game.fingerprint env importer.context.identity) = 0 :=
        Finset.card_eq_zero.mpr (Finset.eq_empty_of_forall_notMem fun gameId hmem ↦
          hknown ⟨gameId, mem_gamesOf.mp hmem⟩)
      have hrows := hstores.pool_rows
      rw [← AccountGame.fingerprint, hzero] at hrows
      ext1
      · rw [hrows, ClaimedPool.add, hzero]
        rfl
      · exact hstores.pool_claimed hadb
      · exact hstores.pool_names
    · rw [hstores.fingerprints, if_pos rfl]
      rfl

theorem links_insertProviderGame (hadb : adb.Valid) {id : String}
    (hkey : adb.providerGames.lookup (identity.provider, id) = none)
    (hmem : gameId ∈ adb.gamesOf env identity digest) (hfree : ¬adb.Linked gameId) :
    ∃ adb', insertProviderGame adb identity.provider id gameId = .ok adb' ∧
      adb.Links identity.provider id gameId adb' := by
  obtain ⟨row, hrow⟩ := exists_row_of_storedFingerprint (mem_gamesOf.mp hmem)
  obtain ⟨adb', hinsert, hvalid, hdb, hlookup⟩ := insertProviderGame_spec hadb hrow hkey hfree
  exact ⟨adb', hinsert, hvalid, hdb, hlookup⟩

theorem insertIdentified_spec (hadb : adb.Valid) {importer : AccountImporter}
    (hsync : importer.InSync env adb.db) {game : AccountGame S} (hgame : game.Importable)
    (id : String) :
    ∃ adb' importer' inserted, importer.insertIdentified adb game.reserveNames id
        (game.fingerprint env importer.context.identity) = .ok (adb', importer', inserted) ∧
      importer.Inserts env adb game (some id) adb' importer' inserted := by
  have hgame' : game.reserveNames.Importable := hgame
  set identity := importer.context.identity with hidentity
  rw [AccountImporter.insertIdentified]
  cases hkey : adb.providerGames.lookup (identity.provider, id) with
  | some gameId =>
      have hname : id ∈ (adb.pool env identity).names := ⟨gameId, hkey⟩
      refine ⟨adb, importer, false, ?_, hadb, hsync, rfl, ?_, .refl adb,
        fun h ↦ absurd h Bool.false_ne_true, fun h ↦ absurd h Bool.false_ne_true, fun _ ↦ rfl⟩
      · rfl
      · rw [ClaimedPool.add, if_pos hname]
  | none =>
      have hname : id ∉ (adb.pool env identity).names := by
        rintro ⟨gameId, hgameId⟩
        rw [hkey] at hgameId
        cases hgameId
      have hunknown : ¬adb.Knows env identity game (some id) := fun hknown ↦ hname hknown
      rw [if_neg (by decide)]
      cases hlegacy : importer.legacyGame adb (game.fingerprint env identity) with
      | some gameId =>
          obtain ⟨hfingerprint, hfree⟩ := legacyGame_eq_some hsync hlegacy
          obtain ⟨adb', hinsert, hlinks⟩ :=
            links_insertProviderGame hadb hkey (mem_gamesOf.mpr hfingerprint) hfree
          have hclaimed := hlinks.pool_claimed hkey (mem_gamesOf.mpr hfingerprint) hfree
          refine ⟨adb', importer, false, ?_, hlinks.valid, ?_, rfl, ?_, hlinks.continues hkey,
            fun h ↦ absurd h Bool.false_ne_true, fun h ↦ absurd h Bool.false_ne_true,
            fun _ ↦ by rw [hlinks.db]⟩
          · dsimp only
            rw [hinsert]
            rfl
          · rw [hlinks.db]
            exact hsync
          · have hle := @pool_claimed_le env identity adb' (game.fingerprint env identity)
            rw [hlinks.pool_rows, hclaimed, Function.update_self] at hle
            rw [ClaimedPool.add, if_neg hname, max_eq_left hle, Function.update_eq_self]
            ext1
            · exact hlinks.pool_rows
            · exact hclaimed
            · exact hlinks.pool_names
      | none =>
          have hall : (adb.pool env identity).claimed (game.fingerprint env identity) =
              (adb.pool env identity).rows (game.fingerprint env identity) := by
            classical
            rw [pool_claimed_eq, Finset.filter_true_of_mem fun gameId hmem ↦
              legacyGame_eq_none hsync hlegacy (mem_gamesOf.mp hmem)]
            rfl
          obtain ⟨adb₁, importer', hstore, hstores, hsync', hcontext⟩ :=
            store_spec hadb hsync hgame' (databasePlayerName_idem _) (databasePlayerName_idem _)
          have hkey₁ : adb₁.providerGames.lookup (identity.provider, id) = none := by
            rw [hstores.providerGames, hkey]
          have hnew : adb₁.db.storedFingerprint env identity adb.db.games.nextId =
              some (game.fingerprint env identity) := by
            rw [hstores.fingerprints, if_pos rfl]
            rfl
          have hfree : ¬adb₁.Linked adb.db.games.nextId := fun hlinked ↦
            hadb.not_linked_nextId ((linked_congr hstores.providerGames).mp hlinked)
          obtain ⟨adb', hinsert, hlinks⟩ :=
            links_insertProviderGame hstores.valid hkey₁ (mem_gamesOf.mpr hnew) hfree
          have hclaimed := hlinks.pool_claimed hkey₁ (mem_gamesOf.mpr hnew) hfree
          have hrows := hstores.pool_rows
          rw [← hidentity, ← AccountGame.fingerprint] at hrows
          rw [hstores.pool_claimed hadb] at hclaimed
          refine ⟨adb', importer', true, ?_, hlinks.valid, ?_, hcontext, ?_,
            hstores.continues.trans (hlinks.continues hkey₁), fun _ ↦ hunknown,
            fun _ ↦ ⟨?_, ?_⟩, fun h ↦ absurd h.symm Bool.false_ne_true⟩
          · dsimp only
            rw [AccountGame.fingerprint, hstore, Db.ok_bind]
            dsimp only
            rw [hinsert]
            rfl
          · rw [hlinks.db]
            exact hsync'
          · rw [ClaimedPool.add, if_neg hname, hall, max_eq_right (Nat.le_succ _)]
            ext1
            · rw [hlinks.pool_rows, hrows]
            · rw [hclaimed, hall]
            · rw [hlinks.pool_names, hstores.pool_names]
          · rw [hlinks.db, hstores.count]
          · rw [hlinks.db, hnew]

theorem insert_spec (hadb : adb.Valid) {importer : AccountImporter}
    (hsync : importer.InSync env adb.db) {game : AccountGame S} (hgame : game.Importable)
    {id : Option String}
    (hid : env.providerGameId game.providerHeaders importer.context.identity = .ok id) :
    ∃ adb' importer' inserted, importer.insert env adb game = .ok (adb', importer', inserted) ∧
      importer.Inserts env adb game id adb' importer' inserted := by
  have hid' : env.providerGameId game.reserveNames.providerHeaders importer.context.identity =
      .ok id := hid
  have hvariant : ∀ (newest : Option ℤ) (ids : Finset String), AccountImporter.InSync
      { importer with newestStartMs := newest, providerIds := ids } env adb.db :=
    fun _ _ ↦ hsync
  have hsame : ∀ {newest : Option ℤ} {ids : Finset String} {adb' : AccountDb}
      {importer' : AccountImporter} {inserted : Bool},
      AccountImporter.Inserts env { importer with newestStartMs := newest, providerIds := ids }
        adb game id adb' importer' inserted →
      importer.Inserts env adb game id adb' importer' inserted :=
    fun h ↦ ⟨h.valid, h.inSync, h.context, h.pool, h.continues, h.unknown, h.stored, h.games⟩
  rw [AccountImporter.insert]
  dsimp only
  rw [hid', Db.ok_bind]
  generalize max importer.newestStartMs (game.reserveNames.date.bind fun date ↦
    game.reserveNames.time.bind fun time ↦ env.startMs date time) = newest
  cases id with
  | none =>
      obtain ⟨adb', importer', inserted, hinsert, hspec⟩ :=
        insertUnidentified_spec hadb (hvariant newest importer.providerIds) hgame
      exact ⟨adb', importer', inserted, hinsert, hsame hspec⟩
  | some id =>
      obtain ⟨adb', importer', inserted, hinsert, hspec⟩ :=
        insertIdentified_spec hadb (hvariant newest ({id} ∪ importer.providerIds)) hgame id
      exact ⟨adb', importer', inserted, hinsert, hsame hspec⟩

/-! ## Runs -/

/-- The provider id of a game, where it can be read. -/
def AccountGame.providerId (env : AccountEnv) (identity : AccountIdentity)
    (game : AccountGame S) : Option String :=
  match env.providerGameId game.providerHeaders identity with
  | .ok id => id
  | .error _ => none

/-- A game whose columns pass the checks of the table and whose provider id can be read. -/
def AccountGame.Accepted (env : AccountEnv) (identity : AccountIdentity)
    (game : AccountGame S) : Prop :=
  game.Importable ∧ ∃ id, env.providerGameId game.providerHeaders identity = .ok id

def AccountGame.item (env : AccountEnv) (identity : AccountIdentity) (game : AccountGame S) :
    String × Option String :=
  (game.fingerprint env identity, game.providerId env identity)

theorem AccountGame.Accepted.providerGameId {game : AccountGame S}
    (h : game.Accepted env identity) :
    env.providerGameId game.providerHeaders identity = .ok (game.providerId env identity) := by
  obtain ⟨-, id, hid⟩ := h
  rw [AccountGame.providerId, hid]

/-- A database after a list of games. -/
structure AccountDb.Imports (env : AccountEnv) (identity : AccountIdentity) (adb : AccountDb)
    (games : List (AccountGame S)) (adb' : AccountDb) : Prop where
  valid : adb'.Valid
  pool : adb'.pool env identity =
    (games.map (AccountGame.item env identity)).foldl ClaimedPool.add (adb.pool env identity)
  continues : adb.Continues env identity adb'

theorem insertAll_spec (hadb : adb.Valid) {importer : AccountImporter}
    (hsync : importer.InSync env adb.db) {games : List (AccountGame S)}
    (hgames : ∀ game ∈ games, game.Accepted env importer.context.identity) :
    ∃ adb' importer', importer.insertAll env adb games = .ok (adb', importer') ∧
      adb.Imports env importer.context.identity games adb' ∧ importer'.InSync env adb'.db ∧
      importer'.context = importer.context := by
  induction games generalizing adb importer with
  | nil => exact ⟨adb, importer, rfl, ⟨hadb, rfl, .refl adb⟩, hsync, rfl⟩
  | cons game games ih =>
      have hgame := hgames game List.mem_cons_self
      obtain ⟨adb₁, importer₁, inserted, hinsert, hspec⟩ :=
        insert_spec hadb hsync hgame.1 hgame.providerGameId
      have hrest : ∀ g ∈ games, g.Accepted env importer₁.context.identity := by
        rw [hspec.context]
        exact fun g hg ↦ hgames g (List.mem_cons_of_mem game hg)
      obtain ⟨adb', importer', hall, himports, hsync', hcontext⟩ := ih hspec.valid hspec.inSync hrest
      rw [hspec.context] at himports hcontext
      refine ⟨adb', importer', ?_, ⟨himports.valid, ?_, hspec.continues.trans himports.continues⟩,
        hsync', hcontext⟩
      · rw [AccountImporter.insertAll, hinsert, Db.ok_bind]
        exact hall
      · rw [himports.pool, hspec.pool]
        rfl

theorem AccountDb.Imports.finish {games : List (AccountGame S)}
    (h : adb.Imports env identity games adb') (importer : AccountImporter) :
    adb.Imports env identity games (importer.finish adb') := by
  refine ⟨?_, h.pool, h.continues.fingerprints, h.continues.links⟩
  have hnamed := h.valid.wellNamed
  refine ⟨⟨hnamed.players, hnamed.events, hnamed.sites, hnamed.player, hnamed.event,
    hnamed.site⟩, ?_, h.valid.ids, h.valid.games, h.valid.unique⟩
  intro gameId row hfind
  have hrefers := h.valid.integrity gameId row hfind
  exact ⟨hrefers.white, hrefers.black, hrefers.event, hrefers.site⟩

theorem importAccount_spec (hadb : adb.Valid) (context : AccountImportContext)
    {games : List (AccountGame S)}
    (hgames : ∀ game ∈ games, game.Accepted env context.identity) :
    ∃ adb', importAccount env context adb games = .ok adb' ∧
      adb.Imports env context.identity games adb' := by
  obtain ⟨adb', importer', hall, himports, -, -⟩ :=
    insertAll_spec hadb (inSync_new hadb context) hgames
  refine ⟨importer'.finish adb', ?_, himports.finish importer'⟩
  rw [importAccount, hall]
  rfl

theorem importRuns_spec (hadb : adb.Valid) {runs : List (AccountRun S)}
    (hruns : ∀ game ∈ runs.flatMap AccountRun.games, game.Accepted env identity) :
    ∃ adb', importRuns env identity adb runs = .ok adb' ∧
      adb.Imports env identity (runs.flatMap AccountRun.games) adb' := by
  induction runs generalizing adb with
  | nil => exact ⟨adb, rfl, hadb, rfl, .refl adb⟩
  | cons run runs ih =>
      rw [List.flatMap_cons] at hruns
      obtain ⟨adb₁, himport, hfirst⟩ := importAccount_spec hadb ⟨identity, run.accountSyncCursor⟩
        fun game hgame ↦ hruns game (List.mem_append_left _ hgame)
      obtain ⟨adb', hall, hrest⟩ := ih hfirst.valid fun game hgame ↦
        hruns game (List.mem_append_right _ hgame)
      refine ⟨adb', ?_, hrest.valid, ?_, hfirst.continues.trans hrest.continues⟩
      · rw [importRuns, himport, Db.ok_bind]
        exact hall
      · rw [hrest.pool, hfirst.pool, List.flatMap_cons, List.map_append, List.foldl_append]

/-! ## The number of games -/

theorem AccountDb.Valid.storedFingerprint (hadb : adb.Valid) {row : GameRow}
    (hfind : adb.db.games.find gameId = some row) :
    ∃ c, adb.db.storedFingerprint env identity gameId = some c := by
  obtain ⟨fields, hfields⟩ := hadb.integrity.storedFields hfind
  refine ⟨env.semanticFingerprint identity fields, ?_⟩
  rw [Db.storedFingerprint, hfind, Option.bind_some, hfields, Option.map_some]

/-- Every game counts for its fingerprint. -/
theorem AccountDb.Valid.count_eq_sum (hadb : adb.Valid) {digests : Finset String}
    (hdigests : ∀ gameId c, adb.db.storedFingerprint env identity gameId = some c → c ∈ digests) :
    adb.db.games.count = ∑ c ∈ digests, (adb.pool env identity).rows c := by
  have hcount : adb.db.games.count = (adb.db.games.idsWhere fun _ _ ↦ true).card := by
    rw [← RowTable.countWhere_eq_card, RowTable.countWhere, List.filter_eq_self.mpr fun _ _ ↦ rfl]
    rfl
  have hfound : ∀ gameId ∈ adb.db.games.idsWhere fun _ _ ↦ true,
      ∃ c, adb.db.storedFingerprint env identity gameId = some c := by
    intro gameId hmem
    obtain ⟨row, hrow, -⟩ := RowTable.mem_idsWhere.mp hmem
    exact hadb.storedFingerprint hrow
  have hmaps : Set.MapsTo
      (fun gameId ↦ (adb.db.storedFingerprint env identity gameId).getD "")
      (adb.db.games.idsWhere fun _ _ ↦ true : Finset ℤ) (digests : Set String) := by
    intro gameId hmem
    obtain ⟨c, hc⟩ := hfound gameId hmem
    have hgetD : (adb.db.storedFingerprint env identity gameId).getD "" = c := by
      rw [hc, Option.getD_some]
    change (adb.db.storedFingerprint env identity gameId).getD "" ∈ digests
    rw [hgetD]
    exact hdigests gameId c hc
  rw [hcount, Finset.card_eq_sum_card_fiberwise hmaps]
  refine Finset.sum_congr rfl fun c _ ↦ ?_
  change _ = (adb.gamesOf env identity c).card
  refine congrArg Finset.card ?_
  ext gameId
  rw [Finset.mem_filter, mem_gamesOf]
  constructor
  · rintro ⟨hmem, hc⟩
    obtain ⟨c', hc'⟩ := hfound gameId hmem
    rw [hc', Option.getD_some] at hc
    rw [hc', hc]
  · intro hc
    obtain ⟨row, hrow⟩ := exists_row_of_storedFingerprint hc
    exact ⟨RowTable.mem_idsWhere.mpr ⟨row, hrow, rfl⟩, by rw [hc, Option.getD_some]⟩

theorem count_eq_of_pool (hadb : adb.Valid) (hadb' : adb'.Valid)
    (hpool : adb.pool env identity = adb'.pool env identity) :
    adb.db.games.count = adb'.db.games.count := by
  have hrange : ∀ adb : AccountDb, ∃ digests : Finset String, ∀ gameId c,
      adb.db.storedFingerprint env identity gameId = some c → c ∈ digests := by
    intro adb
    refine ⟨(adb.db.games.idsWhere fun _ _ ↦ true).image fun gameId ↦
      (adb.db.storedFingerprint env identity gameId).getD "", fun gameId c hc ↦ ?_⟩
    obtain ⟨row, hrow⟩ := exists_row_of_storedFingerprint hc
    exact Finset.mem_image.mpr
      ⟨gameId, RowTable.mem_idsWhere.mpr ⟨row, hrow, rfl⟩, by rw [hc, Option.getD_some]⟩
  obtain ⟨digests, hdigests⟩ := hrange adb
  obtain ⟨digests', hdigests'⟩ := hrange adb'
  rw [hadb.count_eq_sum fun gameId c hc ↦ Finset.mem_union_left digests' (hdigests gameId c hc),
    hadb'.count_eq_sum fun gameId c hc ↦ Finset.mem_union_right digests (hdigests' gameId c hc),
    hpool]

/-! ## Imports in any order -/

/-- One game of one run, with the runs and the games before it. -/
structure ImportPlace (runs before : List (AccountRun S)) (run : AccountRun S)
    (done : List (AccountGame S)) (game : AccountGame S) : Prop where
  runs : ∃ after, runs = before ++ run :: after
  games : ∃ rest, run.games = done ++ game :: rest

/-- A game that is known when its turn comes is not stored, and the fingerprint of one that
is stored is the one that later imports compute from its row. -/
def KeepsApart (env : AccountEnv) (identity : AccountIdentity) (first last : AccountDb)
    (before : List (AccountRun S)) (run : AccountRun S) (done : List (AccountGame S))
    (game : AccountGame S) : Prop :=
  ∃ middle adb importer adb' importer' inserted,
    importRuns env identity first before = .ok middle ∧
    (AccountImporter.new env middle ⟨identity, run.accountSyncCursor⟩).insertAll env middle done =
      .ok (adb, importer) ∧
    importer.insert env adb game = .ok (adb', importer', inserted) ∧
    (adb.Knows env identity game (game.providerId env identity) →
      inserted = false ∧ adb'.db.games = adb.db.games) ∧
    (inserted = true → adb'.db.games.count = adb.db.games.count + 1 ∧
      ∀ context : AccountImportContext, context.identity = identity →
        (AccountImporter.new env last context).fingerprints.lookup adb.db.games.nextId =
          some (game.fingerprint env identity))

theorem insertAll_append {importer importer' : AccountImporter} {games games' : List (AccountGame S)}
    (h : importer.insertAll env adb games = .ok (adb', importer')) :
    importer.insertAll env adb (games ++ games') = importer'.insertAll env adb' games' := by
  induction games generalizing adb importer with
  | nil =>
      obtain ⟨rfl, rfl⟩ := Prod.mk.inj (Except.ok.inj h)
      rfl
  | cons game games ih =>
      rw [AccountImporter.insertAll] at h
      obtain ⟨⟨adb₁, importer₁, inserted⟩, hinsert, hrest⟩ := bind_eq_ok h
      rw [List.cons_append, AccountImporter.insertAll, hinsert, Db.ok_bind]
      exact ih hrest

theorem importRuns_append {runs runs' : List (AccountRun S)}
    (h : importRuns env identity adb runs = .ok adb') :
    importRuns env identity adb (runs ++ runs') = importRuns env identity adb' runs' := by
  induction runs generalizing adb with
  | nil =>
      obtain rfl := Except.ok.inj h
      rfl
  | cons run runs ih =>
      rw [importRuns] at h
      obtain ⟨adb₁, himport, hrest⟩ := bind_eq_ok h
      rw [List.cons_append, importRuns, himport, Db.ok_bind]
      exact ih hrest

theorem keepsApart_of_place (hadb : adb.Valid) {runs before : List (AccountRun S)}
    {run : AccountRun S} {done : List (AccountGame S)} {game : AccountGame S}
    (hruns : ∀ game ∈ runs.flatMap AccountRun.games, game.Accepted env identity)
    (hplace : ImportPlace runs before run done game)
    (himport : importRuns env identity adb runs = .ok adb') :
    KeepsApart env identity adb adb' before run done game := by
  obtain ⟨⟨after, rfl⟩, rest, hgames⟩ := hplace
  rw [List.flatMap_append, List.flatMap_cons, hgames] at hruns
  have hdone : ∀ g ∈ done, g.Accepted env identity := fun g hg ↦ hruns g (by simp [hg])
  have hgame : game.Accepted env identity := hruns game (by simp)
  have hrest : ∀ g ∈ rest, g.Accepted env identity := fun g hg ↦ hruns g (by simp [hg])
  set context : AccountImportContext := ⟨identity, run.accountSyncCursor⟩
  obtain ⟨middle, hmiddle, hbefore⟩ := importRuns_spec hadb fun g hg ↦
    hruns g (List.mem_append_left _ hg)
  obtain ⟨adb₁, importer₁, hall₁, himports₁, hsync₁, hcontext₁⟩ :=
    insertAll_spec hbefore.valid (inSync_new hbefore.valid context) hdone
  have hidentity : importer₁.context.identity = identity := congrArg _ hcontext₁
  have hid : env.providerGameId game.providerHeaders importer₁.context.identity =
      .ok (game.providerId env identity) := by
    rw [hidentity]
    exact hgame.providerGameId
  obtain ⟨adb₂, importer₂, inserted, hinsert, hspec⟩ :=
    insert_spec himports₁.valid hsync₁ hgame.1 hid
  have hidentity₂ : importer₂.context.identity = identity := by rw [hspec.context, hidentity]
  rw [← hidentity₂] at hrest
  obtain ⟨adb₃, importer₃, hall₃, himports₃, -, -⟩ :=
    insertAll_spec hspec.valid hspec.inSync hrest
  have hfinish := himports₃.finish importer₃
  obtain ⟨last, hlast, hafter⟩ := importRuns_spec hfinish.valid fun g hg ↦
    hruns g (List.mem_append_right _ (List.mem_append_right _ hg))
  have hrun : importAccount env context middle run.games = .ok (importer₃.finish adb₃) := by
    rw [importAccount, hgames, insertAll_append hall₁, AccountImporter.insertAll, hinsert,
      Db.ok_bind]
    dsimp only
    rw [hall₃]
    rfl
  rw [importRuns_append hmiddle, importRuns, hrun, Db.ok_bind, hlast] at himport
  obtain rfl := Except.ok.inj himport
  rw [hidentity₂] at hfinish
  have hunknown := hspec.unknown
  have hstored := hspec.stored
  rw [hidentity] at hunknown hstored
  refine ⟨middle, adb₁, importer₁, adb₂, importer₂, inserted, hmiddle, hall₁, hinsert, ?_, ?_⟩
  · intro hknows
    have hfalse : inserted = false := Bool.eq_false_iff.mpr fun htrue ↦ hunknown htrue hknows
    exact ⟨hfalse, hspec.games hfalse⟩
  · intro htrue
    obtain ⟨hcount, hfingerprint⟩ := hstored htrue
    refine ⟨hcount, ?_⟩
    rintro context' rfl
    rw [inSync_new hafter.valid context']
    exact (hfinish.continues.trans hafter.continues).fingerprints _ _ hfingerprint

end

/-! ## A game with and without its provider id -/

namespace ShortGame

open DatabaseMutation

def identity : AccountIdentity := ⟨"lichess", "alice"⟩

def game (providerHeaders : List UInt8) : AccountGame PawnEnding.library where
  toTempGame := TempGame.default PawnEnding.library
  date := some "2024.05.01"
  time := some "12:30:00"
  round := none
  whiteElo := none
  blackElo := none
  result := some "1-0"
  timeControl := none
  eco := none
  orientation := none
  eventName := none
  siteName := none
  whiteName := some "Alice"
  blackName := some "Bob"
  providerHeaders := providerHeaders

def siteHeader : List UInt8 := Utf8.encode "[Site \"https://lichess.org/q7ZvsdUF\"]".toList

/-- The digest of the one game there is, and the id in its header. -/
def env : AccountEnv where
  sha256 _ := "42cebbb8226c7922a69cc37de70f7ab4cbea58511cec1ee10cda840ab91778eb"
  providerGameId headers _ := .ok (if headers = siteHeader then some "q7ZvsdUF" else none)
  startMs _ _ := some 1714566600000

def adb : AccountDb where
  db :=
    { info := ∅
      players := unknownRows
      events := unknownRows
      sites := unknownRows
      games := ⟨∅, none⟩ }
  providerGames := ∅

theorem adb_valid : adb.Valid where
  wellNamed :=
    have hunknown : Named unknownRows 0 "Unknown" := ⟨⟨"Unknown", none⟩, rfl, rfl⟩
    have hunique : NamesUnique unknownRows := DatabaseMutation.namesUnique_singleton _ _
    ⟨hunique, hunique, hunique, hunknown, hunknown, hunknown⟩
  integrity _ _ h := by cases h
  ids _ _ h := by cases h
  games _ _ h := by cases h
  unique _ _ _ h := by cases h

def run (headers : List (List UInt8)) : AccountRun PawnEnding.library where
  accountSyncCursor newest _ := newest.getD 0
  games := headers.map game

theorem accepted_game (headers : List UInt8) : (game headers).Accepted env identity :=
  ⟨fun _ ↦ rfl, _, rfl⟩

end ShortGame

end EnCroissant
