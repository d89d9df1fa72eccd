import Mathlib
import EnCroissant.Library.Machine
import EnCroissant.Practice.MapFacts

/-!
# Runs of the deck map

The operations on a file's stored map, with everything their callers can pass.
A deletion is recorded without a check of the game count, so a file with more
games than a map can address leaves a map that is never read again.
-/

namespace EnCroissant

inductive MapAction where
  /-- A practice command. -/
  | access (ordinal : ℤ) (expectedEpoch : Option String) (create : Bool)
  | prepare (leaves : List ℤ) (ordinal count : ℕ) (uuid : String)
  | finish (id : String) (landed : Bool) (uuid : String)
  | resolve (count : ℕ) (establishDurability : Except Error Unit) (uuid : String)

/-- An operation that succeeds; `Uuid::new_v4` draws a string that parses, and a
deletion is prepared for a game of the file. -/
def mapStep (env : DeckEnv) (stored : Option FileDeckMap) (a : MapAction)
    (stored' : Option FileDeckMap) : Prop :=
  match a with
  | .access ordinal expectedEpoch create =>
      ∃ r, withMappedDeck env stored ordinal expectedEpoch create = .ok r ∧ stored' = r.stored
  | .prepare leaves ordinal count uuid =>
      env.isUuid uuid = true ∧ ordinal < count ∧
        ∃ map', prepareDelete env stored leaves ordinal count uuid = .ok map' ∧
          stored' = some map'
  | .finish id landed uuid =>
      env.isUuid uuid = true ∧
        ∃ retired, finishDelete env stored id landed uuid = .ok (stored', retired)
  | .resolve count establishDurability uuid =>
      env.isUuid uuid = true ∧
        ∃ retired, resolvePendingDelete env stored count establishDurability uuid =
          .ok (stored', retired)

def mapMachine (env : DeckEnv) : Machine (Option FileDeckMap) MapAction where
  init stored := stored = none
  step := mapStep env

/-! ## Sound maps along a run -/

def SoundStore (env : DeckEnv) (stored : Option FileDeckMap) : Prop :=
  ∀ map ∈ stored, SoundMap env map

def FittingStore (env : DeckEnv) (stored : Option FileDeckMap) : Prop :=
  ∀ map ∈ stored, FittingMap env map

theorem readMap_eq_ok_iff {env : DeckEnv} {stored : Option FileDeckMap} :
    readMap env stored = .ok stored ↔ SoundStore env stored ∧ FittingStore env stored := by
  cases stored with
  | none => simp [readMap, SoundStore, FittingStore]
  | some map =>
      rw [readMap_some, SoundStore, FittingStore]
      simp

theorem SoundMap.applyPending {env : DeckEnv} {map map' : FileDeckMap} (h : SoundMap env map)
    {p : PendingDelete} (hp : map.pending = some p) {landed : Bool} {uuid : String}
    {retired : Option ℤ} (huuid : env.isUuid uuid = true)
    (happly : applyPending env map landed uuid = .ok (map', retired)) :
    SoundMap env map' ∧ FittingMap env map' := by
  obtain ⟨hlength, hjson, ⟨-, rfl, -⟩ | ⟨-, rfl, -⟩⟩ := applyPending_eq_ok hp happly
  · exact ⟨h.landed p huuid, hjson, hlength, by simp [FileDeckMap.landed]⟩
  · exact ⟨h.dropPending, hjson, hlength, by simp [FileDeckMap.dropPending]⟩

/-- The deletion that is prepared can be recorded in a readable map. -/
def Addressable (stored : Option FileDeckMap) : MapAction → Prop
  | .prepare _ _ count _ =>
      (∃ map ∈ stored, map.pending = none) → count ≤ mapMaxOrdinals
  | _ => True

theorem mapMachine_invariant (env : DeckEnv) :
    (mapMachine env).Invariant Addressable fun stored ↦
      SoundStore env stored ∧ FittingStore env stored where
  init := by
    rintro _ rfl
    exact ⟨by simp [SoundStore], by simp [FittingStore]⟩
  step := by
    rintro stored a stored' ⟨hsound, hfitting⟩ hcondition hstep
    have hsome : ∀ map', SoundMap env map' ∧ FittingMap env map' →
        SoundStore env (some map') ∧ FittingStore env (some map') := by
      intro map' h
      exact ⟨by rintro _ ⟨⟩; exact h.1, by rintro _ ⟨⟩; exact h.2⟩
    cases a with
    | access ordinal expectedEpoch create =>
        obtain ⟨r, hr, rfl⟩ := hstep
        obtain ⟨-, -, -, -, ⟨-, hnone, -⟩ | ⟨map, -, hmap, hfit, hpending, hcases⟩⟩ :=
          withMappedDeck_eq_ok hr
        · rw [hnone]
          exact ⟨by simp [SoundStore], by simp [FittingStore]⟩
        · rcases hcases with ⟨hstored, -⟩ | ⟨-, -, hstored, -, hlength, hjson⟩
          · rw [hstored]
            exact ⟨hsound, hfitting⟩
          · rw [hstored]
            exact hsome _ ⟨hmap.allocate _, hjson, hlength, hfit.pending⟩
    | prepare leaves ordinal count uuid =>
        obtain ⟨huuid, hordinal, map', hprepare, rfl⟩ := hstep
        obtain ⟨map, hpending, rfl, hlength, hjson, hfrom⟩ := prepareDelete_eq_ok hprepare
        have hmap : SoundMap env map ∧ count ≤ mapMaxOrdinals := by
          rcases hfrom with ⟨rfl, hmap⟩ | ⟨-, hidentity⟩
          · exact ⟨hmap, hcondition ⟨map, rfl, hpending⟩⟩
          · exact ⟨hidentity.sound, hidentity.addressable⟩
        refine hsome _ ⟨hmap.1.withPending hordinal huuid, hjson, hlength, ?_⟩
        rintro _ ⟨⟩
        exact hmap.2
    | finish id landed uuid =>
        obtain ⟨huuid, retired, hfinish⟩ := hstep
        obtain ⟨map, rfl, hmap, -, ⟨p, map', hp, -, rfl, happly⟩ | ⟨-, rfl, -⟩⟩ :=
          finishDelete_eq_ok hfinish
        · exact hsome _ (hmap.applyPending hp huuid happly)
        · exact ⟨hsound, hfitting⟩
    | resolve count establishDurability uuid =>
        obtain ⟨huuid, retired, hresolve⟩ := hstep
        rcases resolvePendingDelete_eq_ok hresolve with
          ⟨rfl, -, -⟩ | ⟨map, p, map', rfl, hmap, -, hp, rfl, happly⟩
        · exact ⟨hsound, hfitting⟩
        · exact hsome _ (hmap.applyPending hp huuid happly)

/-- As long as no deletion is recorded for a file with too many games, every map
written is read back. -/
theorem readMap_of_reachable (env : DeckEnv) {stored : Option FileDeckMap}
    (h : (mapMachine env).ReachableBy Addressable stored) :
    readMap env stored = .ok stored :=
  readMap_eq_ok_iff.mpr ((mapMachine_invariant env).reachable h)

/-- Nothing can be done with a map that is not read back. -/
theorem mapStep_of_unreadable {env : DeckEnv} {stored : Option FileDeckMap} {e : Error}
    (h : readMap env stored = .error e) (a : MapAction) (stored' : Option FileDeckMap) :
    ¬mapStep env stored a stored' := by
  intro hstep
  cases a with
  | access ordinal expectedEpoch create =>
      obtain ⟨r, hr, -⟩ := hstep
      cases hordinal : mappedOrdinal ordinal with
      | error e => simp [withMappedDeck, hordinal, bind, Except.bind] at hr
      | ok index =>
          simp [withMappedDeck, hordinal, resolveMappedDeck, h, Except.mapError, bind,
            Except.bind] at hr
  | prepare leaves ordinal count uuid =>
      obtain ⟨-, -, map', hprepare, -⟩ := hstep
      simp [prepareDelete, h, bind, Except.bind] at hprepare
  | finish id landed uuid =>
      obtain ⟨-, retired, hfinish⟩ := hstep
      simp [finishDelete, h, bind, Except.bind] at hfinish
  | resolve count establishDurability uuid =>
      obtain ⟨-, retired, hresolve⟩ := hstep
      simp [resolvePendingDelete, h, bind, Except.bind] at hresolve

/-! ## A file with a million and one games -/

def isHexDigit (c : Char) : Bool :=
  ('0' ≤ c && c ≤ '9') || ('a' ≤ c && c ≤ 'f') || ('A' ≤ c && c ≤ 'F')

/-- The hyphenated form of a UUID. -/
def isHyphenatedUuid (s : String) : Bool :=
  s.toList.length = 36 && s.toList.zipIdx.all fun c ↦
    if c.2 = 8 || c.2 = 13 || c.2 = 18 || c.2 = 23 then c.1 = '-' else isHexDigit c.1

def jsonNumber (n : ℤ) : List Char :=
  (if n < 0 then ['-'] else []) ++ Nat.toDigits 10 n.natAbs

def jsonString (s : String) : List Char := '"' :: s.toList ++ ['"']

def jsonPending (p : PendingDelete) : List Char :=
  "\x7b\"id\":".toList ++ jsonString p.id ++ ",\"ordinal\":".toList ++ jsonNumber p.ordinal ++
    ",\"gameCount\":".toList ++ jsonNumber p.gameCount ++ "\x7d".toList

/-- A map as JSON, for a file id and epochs without characters to escape. -/
def jsonMap (map : FileDeckMap) : List Char :=
  "\x7b\"version\":".toList ++ jsonNumber map.version ++
    ",\"fileId\":".toList ++ jsonString map.fileId ++
    ",\"epoch\":".toList ++ jsonString map.epoch ++
    ",\"ordinals\":[".toList ++
      [','].intercalate (map.ordinals.map fun n ↦ n.elim "null".toList jsonNumber) ++
    "],\"nextDeck\":".toList ++ jsonNumber map.nextDeck ++
    ",\"legacySuperseded\":".toList ++
      (if map.legacySuperseded then "true".toList else "false".toList) ++
    ",\"pending\":".toList ++ map.pending.elim "null".toList jsonPending ++ "\x7d".toList

def sampleEnv : DeckEnv where
  fileId := "file"
  mapLeaf := "file-deck-map.json"
  isUuid := isHyphenatedUuid
  jsonLength map := (jsonMap map).length
  isUuid_noMapEpoch := by decide

def firstUuid : String := "00000000-0000-4000-8000-000000000001"

def secondUuid : String := "00000000-0000-4000-8000-000000000002"

def thirdUuid : String := "00000000-0000-4000-8000-000000000003"

def preparedMap : FileDeckMap :=
  ⟨1, "file", noMapEpoch, [some 0], 1, false, some ⟨firstUuid, 0, 1⟩⟩

def finishedMap : FileDeckMap := ⟨1, "file", secondUuid, [], 1, true, none⟩

def unreadableMap : FileDeckMap :=
  ⟨1, "file", secondUuid, [], 1, true, some ⟨thirdUuid, 0, mapMaxOrdinals + 1⟩⟩

theorem step_prepared :
    (mapMachine sampleEnv).step none (.prepare [] 0 1 firstUuid) (some preparedMap) :=
  ⟨by decide +kernel, by decide, _, by decide +kernel, rfl⟩

theorem step_finished :
    (mapMachine sampleEnv).step (some preparedMap) (.finish firstUuid true secondUuid)
      (some finishedMap) :=
  ⟨by decide +kernel, some 0, by decide +kernel⟩

theorem step_unreadable :
    (mapMachine sampleEnv).step (some finishedMap)
      (.prepare [] 0 (mapMaxOrdinals + 1) thirdUuid) (some unreadableMap) :=
  ⟨by decide +kernel, by decide, _, by decide +kernel, rfl⟩

theorem readMap_of_reachable_finished :
    readMap sampleEnv (some finishedMap) = .ok (some finishedMap) := by
  have haddressable : Addressable none (.prepare [] 0 1 firstUuid) := by
    rintro ⟨map, hmap, -⟩
    cases hmap
  have hrun : (mapMachine sampleEnv).RunOf Addressable none (some finishedMap) :=
    (Relation.ReflTransGen.single ⟨_, haddressable, step_prepared⟩).tail
      ⟨.finish firstUuid true secondUuid, trivial, step_finished⟩
  exact readMap_of_reachable sampleEnv ⟨none, rfl, hrun⟩

/-- The second deletion is accepted, and the store is lost. -/
theorem exists_unreadable_reachable :
    (mapMachine sampleEnv).Reachable (some unreadableMap) ∧
      (∃ e, readMap sampleEnv (some unreadableMap) = .error e) ∧
        ∀ a stored', ¬(mapMachine sampleEnv).step (some unreadableMap) a stored' := by
  have hread : readMap sampleEnv (some unreadableMap) =
      .error (invalidLeaf "file-deck-map.json" "deck map is invalid") := by
    decide +kernel
  have hrun : (mapMachine sampleEnv).Run none (some unreadableMap) :=
    ((Machine.Run.refl.step step_prepared).step step_finished).step step_unreadable
  exact ⟨⟨none, rfl, hrun⟩, ⟨_, hread⟩, mapStep_of_unreadable hread⟩

end EnCroissant
