import Mathlib
import EnCroissant.Practice.DeckMap

/-!
# What the operations on a deck map do

Every operation is described by the maps it can write.  The checks of `read_map`
that do not bound a size are an invariant of all of them.
-/

namespace EnCroissant

/-! ## Numbers -/

@[simp] theorem numberAt_nil (index : ℕ) : numberAt [] index = none := rfl

@[simp] theorem numberAt_cons_zero (a : Option ℤ) (ordinals : List (Option ℤ)) :
    numberAt (a :: ordinals) 0 = a := by
  simp [numberAt]

@[simp] theorem numberAt_cons_succ (a : Option ℤ) (ordinals : List (Option ℤ)) (index : ℕ) :
    numberAt (a :: ordinals) (index + 1) = numberAt ordinals index := by
  simp [numberAt]

theorem numberAt_of_length_le {ordinals : List (Option ℤ)} {index : ℕ}
    (h : ordinals.length ≤ index) :
    numberAt ordinals index = none := by
  rw [numberAt, List.getElem?_eq_none h]
  rfl

theorem numberAt_eraseIdx (ordinals : List (Option ℤ)) (k index : ℕ) :
    numberAt (ordinals.eraseIdx k) index =
      numberAt ordinals (if index < k then index else index + 1) := by
  rw [numberAt, numberAt, List.getElem?_eraseIdx]
  split_ifs <;> rfl

theorem numberAt_resize (ordinals : List (Option ℤ)) (n index : ℕ) :
    numberAt (ordinals ++ List.replicate n none) index = numberAt ordinals index := by
  rcases Nat.lt_or_ge index ordinals.length with h | h
  · rw [numberAt, numberAt, List.getElem?_append_left h]
  · rw [numberAt_of_length_le h, numberAt, List.getElem?_append_right h, List.getElem?_replicate]
    split_ifs <;> rfl

theorem numberAt_set {ordinals : List (Option ℤ)} {k : ℕ} (h : k < ordinals.length)
    (a : Option ℤ) (index : ℕ) :
    numberAt (ordinals.set k a) index = if index = k then a else numberAt ordinals index := by
  rw [numberAt, numberAt, List.getElem?_set]
  by_cases hk : k = index
  · subst hk
    simp [h]
  · rw [if_neg hk, if_neg fun heq ↦ hk heq.symm]

theorem numberAt_identities (count index : ℕ) :
    numberAt ((List.range count).map fun n : ℕ ↦ some (n : ℤ)) index =
      if index < count then some (index : ℤ) else none := by
  rw [numberAt, List.getElem?_map]
  split_ifs with h
  · rw [List.getElem?_range h]
    rfl
  · rw [List.getElem?_eq_none (by simpa using h)]
    rfl

/-- The numbers lie below the allocator. -/
def NumbersBounded (nextDeck : ℤ) (ordinals : List (Option ℤ)) : Prop :=
  ∀ index number, numberAt ordinals index = some number → 0 ≤ number ∧ number < nextDeck

/-- No two ordinals share a number. -/
def NumbersDistinct (ordinals : List (Option ℤ)) : Prop :=
  ∀ index index' number, numberAt ordinals index = some number →
    numberAt ordinals index' = some number → index = index'

theorem numbersDistinct_cons_none {ordinals : List (Option ℤ)} :
    NumbersDistinct (none :: ordinals) ↔ NumbersDistinct ordinals := by
  constructor
  · intro h index index' number hindex hindex'
    exact Nat.succ.inj (h (index + 1) (index' + 1) number (by simpa) (by simpa))
  · intro h index index' number hindex hindex'
    cases index with
    | zero => simp at hindex
    | succ index =>
        cases index' with
        | zero => simp at hindex'
        | succ index' =>
            exact congrArg _ (h index index' number (by simpa using hindex) (by simpa using hindex'))

theorem numbersDistinct_cons_some {number : ℤ} {ordinals : List (Option ℤ)} :
    NumbersDistinct (some number :: ordinals) ↔
      (∀ index, numberAt ordinals index ≠ some number) ∧ NumbersDistinct ordinals := by
  constructor
  · intro h
    refine ⟨fun index hindex ↦ ?_, fun index index' k hindex hindex' ↦ ?_⟩
    · exact absurd (h 0 (index + 1) number (by simp) (by simpa using hindex)) (by omega)
    · exact Nat.succ.inj (h (index + 1) (index' + 1) k (by simpa) (by simpa))
  · rintro ⟨hnew, h⟩ index index' k hindex hindex'
    cases index with
    | zero =>
        cases index' with
        | zero => rfl
        | succ index' =>
            obtain rfl : number = k := by simpa using hindex
            exact absurd (by simpa using hindex') (hnew index')
    | succ index =>
        cases index' with
        | zero =>
            obtain rfl : number = k := by simpa using hindex'
            exact absurd (by simpa using hindex) (hnew index)
        | succ index' =>
            exact congrArg _ (h index index' k (by simpa using hindex) (by simpa using hindex'))

/-- The check of the numbers, as a statement about all of them. -/
theorem numbersInvalid_eq_false_iff {nextDeck : ℤ} {seen : List ℤ}
    {ordinals : List (Option ℤ)} :
    numbersInvalid nextDeck seen ordinals = false ↔
      NumbersBounded nextDeck ordinals ∧ NumbersDistinct ordinals ∧
        ∀ number ∈ seen, ∀ index, numberAt ordinals index ≠ some number := by
  induction ordinals generalizing seen with
  | nil => simp [numbersInvalid, NumbersBounded, NumbersDistinct]
  | cons a ordinals ih =>
      have hall : ∀ P : ℕ → Prop, (∀ index, P index) ↔ P 0 ∧ ∀ index, P (index + 1) :=
        fun P ↦ ⟨fun h ↦ ⟨h 0, fun index ↦ h _⟩, fun h index ↦ by
          cases index with
          | zero => exact h.1
          | succ index => exact h.2 index⟩
      cases a with
      | none =>
          simp only [numbersInvalid, ih, numbersDistinct_cons_none, NumbersBounded]
          simp [hall fun index ↦ ∀ number, numberAt (none :: ordinals) index = some number → _,
            hall fun index ↦ numberAt (none :: ordinals) index ≠ some _]
      | some k =>
          have hbounded : NumbersBounded nextDeck (some k :: ordinals) ↔
              (0 ≤ k ∧ k < nextDeck) ∧ NumbersBounded nextDeck ordinals := by
            rw [NumbersBounded, hall]
            simp [NumbersBounded]
          have hseen : (∀ number ∈ seen, ∀ index,
              numberAt (some k :: ordinals) index ≠ some number) ↔
                k ∉ seen ∧ ∀ number ∈ seen, ∀ index, numberAt ordinals index ≠ some number := by
            simp only [hall fun index ↦ numberAt (some k :: ordinals) index ≠ some _]
            simp only [numberAt_cons_zero, numberAt_cons_succ, ne_eq, Option.some.injEq]
            constructor
            · intro h
              exact ⟨fun hmem ↦ (h k hmem).1 rfl, fun number hmem ↦ (h number hmem).2⟩
            · rintro ⟨hk, h⟩ number hmem
              exact ⟨fun heq ↦ hk (heq ▸ hmem), h number hmem⟩
          simp only [numbersInvalid, Bool.or_eq_false_iff, decide_eq_false_iff_not, ih,
            numbersDistinct_cons_some, hbounded, hseen, List.forall_mem_cons,
            List.contains_eq_mem]
          rw [not_lt, ge_iff_le, not_le]
          tauto

/-! ## Sound maps -/

/-- The checks of `read_map` that bound no size. -/
structure SoundMap (env : DeckEnv) (map : FileDeckMap) : Prop where
  version : map.version = practiceStorageVersion
  fileId : map.fileId = env.fileId
  epoch : map.epoch = noMapEpoch ∨ env.isUuid map.epoch = true
  superseded : map.legacySuperseded = true → map.epoch ≠ noMapEpoch
  nextDeck : 0 ≤ map.nextDeck
  bounded : NumbersBounded map.nextDeck map.ordinals
  distinct : NumbersDistinct map.ordinals
  pending : ∀ p ∈ map.pending, p.ordinal < p.gameCount ∧ env.isUuid p.id = true

/-- The checks of `read_map` that bound a size. -/
structure FittingMap (env : DeckEnv) (map : FileDeckMap) : Prop where
  json : env.jsonLength map ≤ mapMaxBytes
  ordinals : map.ordinals.length ≤ mapMaxOrdinals
  pending : ∀ p ∈ map.pending, p.gameCount ≤ mapMaxOrdinals

theorem pendingInvalid_eq_false_iff {env : DeckEnv} {p : PendingDelete} :
    pendingInvalid env p = false ↔
      p.gameCount ≤ mapMaxOrdinals ∧ p.ordinal < p.gameCount ∧ env.isUuid p.id = true := by
  simp [pendingInvalid, and_assoc]

theorem mapInvalid_eq_false_iff {env : DeckEnv} {map : FileDeckMap} :
    mapInvalid env map = false ↔
      SoundMap env map ∧ map.ordinals.length ≤ mapMaxOrdinals ∧
        ∀ p ∈ map.pending, p.gameCount ≤ mapMaxOrdinals := by
  have hpending : map.pending.any (pendingInvalid env) = false ↔
      ∀ p ∈ map.pending,
        p.gameCount ≤ mapMaxOrdinals ∧ p.ordinal < p.gameCount ∧ env.isUuid p.id = true := by
    cases map.pending with
    | none => simp
    | some p => simp [pendingInvalid_eq_false_iff]
  rw [mapInvalid]
  simp only [Bool.or_eq_false_iff, hpending, numbersInvalid_eq_false_iff]
  simp only [ne_eq, decide_eq_false_iff_not, not_not, Bool.and_eq_false_imp, decide_eq_true_eq,
    not_lt, gt_iff_lt, List.not_mem_nil, false_imp_iff, implies_true, and_true]
  constructor
  · rintro ⟨⟨⟨⟨⟨⟨⟨hversion, hfile⟩, hepoch⟩, hsuperseded⟩, hnext⟩, hlength⟩, hbounded,
      hdistinct⟩, hpending⟩
    refine ⟨⟨hversion, hfile, ?_, hsuperseded, hnext, hbounded, hdistinct,
      fun p hp ↦ (hpending p hp).2⟩, hlength, fun p hp ↦ (hpending p hp).1⟩
    by_cases h : map.epoch = noMapEpoch
    · exact Or.inl h
    · exact Or.inr (by simpa using hepoch h)
  · rintro ⟨h, hlength, hpending⟩
    refine ⟨⟨⟨⟨⟨⟨⟨h.version, h.fileId⟩, fun hne ↦ ?_⟩, h.superseded⟩, h.nextDeck⟩, hlength⟩,
      h.bounded, h.distinct⟩, fun p hp ↦ ⟨hpending p hp, h.pending p hp⟩⟩
    simpa using h.epoch.resolve_left hne

/-- A map is read back exactly if it passes all checks. -/
theorem readMap_some {env : DeckEnv} {map : FileDeckMap} {read : Option FileDeckMap} :
    readMap env (some map) = .ok read ↔
      read = some map ∧ SoundMap env map ∧ FittingMap env map := by
  rw [readMap]
  constructor
  · intro h
    split_ifs at h with hjson hinvalid
    obtain ⟨hsound, hlength, hpending⟩ :=
      mapInvalid_eq_false_iff.mp (Bool.eq_false_of_not_eq_true hinvalid)
    exact ⟨(Except.ok.inj h).symm, hsound, Nat.le_of_not_lt hjson, hlength, hpending⟩
  · rintro ⟨rfl, hsound, hfitting⟩
    have hvalid := mapInvalid_eq_false_iff.mpr ⟨hsound, hfitting.ordinals, hfitting.pending⟩
    rw [if_neg (Nat.not_lt.mpr hfitting.json), if_neg (by simp [hvalid])]

theorem readMap_eq_ok {env : DeckEnv} {stored read : Option FileDeckMap}
    (h : readMap env stored = .ok read) :
    read = stored ∧ ∀ map, stored = some map → SoundMap env map ∧ FittingMap env map := by
  cases stored with
  | none =>
      obtain rfl := Except.ok.inj h
      exact ⟨rfl, by simp⟩
  | some map =>
      obtain ⟨rfl, hsound, hfitting⟩ := readMap_some.mp h
      refine ⟨rfl, ?_⟩
      rintro _ ⟨⟩
      exact ⟨hsound, hfitting⟩

theorem writeMap_eq_ok {env : DeckEnv} {map written : FileDeckMap}
    (h : writeMap env map = .ok written) :
    written = map ∧ map.ordinals.length ≤ mapMaxOrdinals ∧
      env.jsonLength map ≤ mapMaxBytes := by
  rw [writeMap] at h
  split_ifs at h with hsize
  rw [not_or, gt_iff_lt, gt_iff_lt, not_lt, not_lt] at hsize
  exact ⟨(Except.ok.inj h).symm, hsize⟩

/-! ## Fresh maps -/

/-- The map of a file that had none: every game keeps the deck of its ordinal. -/
structure IdentityMap (env : DeckEnv) (leaves : List ℤ) (count : ℕ) (map : FileDeckMap) :
    Prop where
  sound : SoundMap env map
  addressable : count ≤ mapMaxOrdinals
  epoch : map.epoch = noMapEpoch
  legacySuperseded : map.legacySuperseded = false
  pending : map.pending = none
  number : ∀ index, map.number index = if index < count then some (index : ℤ) else none
  above : ∀ number ∈ leaves, number < map.nextDeck
  nextDeck : (count : ℤ) ≤ map.nextDeck

theorem le_highest {leaves : List ℤ} {number : ℤ} (h : number ∈ leaves) :
    number ≤ leaves.max?.getD (-1) := by
  cases hmax : leaves.max? with
  | none =>
      obtain rfl := List.max?_eq_none_iff.mp hmax
      cases h
  | some highest => exact (List.max?_le_iff hmax).mp le_rfl number h

theorem freshMap_identities {env : DeckEnv} {leaves : List ℤ} {count : ℕ} {uuid : String}
    {map : FileDeckMap} (h : freshMap env leaves count true uuid = .ok map) :
    IdentityMap env leaves count map := by
  simp only [freshMap] at h
  split_ifs at h with hcount hhighest
  obtain rfl := Except.ok.inj h
  have hnumber : ∀ index, numberAt ((List.range count).map fun n : ℕ ↦ some (n : ℤ)) index =
      if index < count then some (index : ℤ) else none := numberAt_identities count
  refine ⟨⟨rfl, rfl, Or.inl rfl, by simp, ?_, ?_, ?_, by simp⟩, Nat.le_of_not_lt hcount, rfl, rfl,
    rfl, hnumber, fun number hmem ↦ ?_, le_max_right _ _⟩
  · exact le_max_of_le_right (Int.natCast_nonneg count)
  · intro index number hindex
    have hsome := (hnumber index).symm.trans hindex
    split_ifs at hsome with hlt
    obtain rfl := Option.some.inj hsome
    refine ⟨Int.natCast_nonneg index, lt_max_of_lt_right ?_⟩
    exact_mod_cast hlt
  · intro index index' number hindex hindex'
    have hsome := (hnumber index).symm.trans hindex
    have hsome' := (hnumber index').symm.trans hindex'
    split_ifs at hsome hsome'
    have := (Option.some.inj hsome).trans (Option.some.inj hsome').symm
    exact_mod_cast this
  · have := le_highest hmem
    exact lt_max_of_lt_left (by omega)

/-! ## Settling a deletion -/

/-- The ordinals once the pending deletion has landed. -/
def FileDeckMap.landed (map : FileDeckMap) (p : PendingDelete) (uuid : String) : FileDeckMap :=
  { map with
    pending := none
    ordinals := map.ordinals.eraseIdx p.ordinal
    epoch := uuid
    legacySuperseded := true }

def FileDeckMap.withPending (map : FileDeckMap) (p : PendingDelete) : FileDeckMap :=
  { map with pending := some p }

def FileDeckMap.dropPending (map : FileDeckMap) : FileDeckMap := { map with pending := none }

theorem number_landed (map : FileDeckMap) (p : PendingDelete) (uuid : String) (index : ℕ) :
    (map.landed p uuid).number index =
      map.number (if index < p.ordinal then index else index + 1) :=
  numberAt_eraseIdx _ _ _

theorem SoundMap.landed {env : DeckEnv} {map : FileDeckMap} (h : SoundMap env map)
    (p : PendingDelete) {uuid : String} (huuid : env.isUuid uuid = true) :
    SoundMap env (map.landed p uuid) where
  version := h.version
  fileId := h.fileId
  epoch := Or.inr huuid
  superseded _ heq := by
    have := env.isUuid_noMapEpoch
    rw [← show uuid = noMapEpoch from heq, huuid] at this
    cases this
  nextDeck := h.nextDeck
  bounded index number hnumber :=
    h.bounded _ number ((number_landed map p uuid index).symm.trans hnumber)
  distinct index index' number hindex hindex' := by
    have := h.distinct _ _ number ((number_landed map p uuid index).symm.trans hindex)
      ((number_landed map p uuid index').symm.trans hindex')
    split_ifs at this <;> omega
  pending := by simp [FileDeckMap.landed]

theorem SoundMap.dropPending {env : DeckEnv} {map : FileDeckMap} (h : SoundMap env map) :
    SoundMap env map.dropPending :=
  ⟨h.version, h.fileId, h.epoch, h.superseded, h.nextDeck, h.bounded, h.distinct, by
    simp [FileDeckMap.dropPending]⟩

theorem SoundMap.withPending {env : DeckEnv} {map : FileDeckMap} (h : SoundMap env map)
    {p : PendingDelete} (hordinal : p.ordinal < p.gameCount) (hid : env.isUuid p.id = true) :
    SoundMap env (map.withPending p) :=
  ⟨h.version, h.fileId, h.epoch, h.superseded, h.nextDeck, h.bounded, h.distinct, by
    rintro _ ⟨⟩
    exact ⟨hordinal, hid⟩⟩

/-- A settled deletion either landed or is dropped. -/
theorem applyPending_eq_ok {env : DeckEnv} {map map' : FileDeckMap} {p : PendingDelete}
    (hp : map.pending = some p) {landed : Bool} {uuid : String} {retired : Option ℤ}
    (h : applyPending env map landed uuid = .ok (map', retired)) :
    map'.ordinals.length ≤ mapMaxOrdinals ∧ env.jsonLength map' ≤ mapMaxBytes ∧
      (landed = true ∧ map' = map.landed p uuid ∧ retired = map.number p.ordinal ∨
        landed = false ∧ map' = map.dropPending ∧ retired = none) := by
  cases landed with
  | true =>
      simp only [applyPending, settlePending, hp, if_true] at h
      split at h
      case h_1 => cases h
      case h_2 written hwrite =>
        obtain ⟨rfl, rfl⟩ := Prod.mk.inj (Except.ok.inj h)
        obtain ⟨rfl, hlength, hjson⟩ := writeMap_eq_ok hwrite
        exact ⟨hlength, hjson, Or.inl ⟨rfl, rfl, rfl⟩⟩
  | false =>
      simp only [applyPending, settlePending, hp, Bool.false_eq_true, if_false] at h
      split at h
      case h_1 => cases h
      case h_2 written hwrite =>
        obtain ⟨rfl, rfl⟩ := Prod.mk.inj (Except.ok.inj h)
        obtain ⟨rfl, hlength, hjson⟩ := writeMap_eq_ok hwrite
        exact ⟨hlength, hjson, Or.inr ⟨rfl, rfl, rfl⟩⟩

/-! ## The operations -/

theorem hasPendingDelete_eq_ok {env : DeckEnv} {stored : Option FileDeckMap} {pending : Bool}
    (h : hasPendingDelete env stored = .ok pending) :
    pending = stored.any fun map ↦ map.pending.isSome := by
  rw [hasPendingDelete] at h
  cases hread : readMap env stored with
  | error e =>
      rw [hread] at h
      cases h
  | ok read =>
      obtain ⟨rfl, -⟩ := readMap_eq_ok hread
      rw [hread] at h
      exact (Except.ok.inj h).symm

/-- `prepare_delete_in` records the deletion in the map, or in a fresh one. -/
theorem prepareDelete_eq_ok {env : DeckEnv} {stored : Option FileDeckMap} {leaves : List ℤ}
    {ordinal count : ℕ} {uuid : String} {map' : FileDeckMap}
    (h : prepareDelete env stored leaves ordinal count uuid = .ok map') :
    ∃ map : FileDeckMap, map.pending = none ∧
      map' = map.withPending ⟨uuid, ordinal, count⟩ ∧
      map'.ordinals.length ≤ mapMaxOrdinals ∧ env.jsonLength map' ≤ mapMaxBytes ∧
        (stored = some map ∧ SoundMap env map ∨
          stored = none ∧ IdentityMap env leaves count map) := by
  have hwrite : ∀ map : FileDeckMap, (if map.pending.isSome then
        (.error (.conflict "practice delete is pending") : Except Error FileDeckMap)
      else writeMap env (map.withPending ⟨uuid, ordinal, count⟩)) = .ok map' →
      map.pending = none ∧ map' = map.withPending ⟨uuid, ordinal, count⟩ ∧
        map'.ordinals.length ≤ mapMaxOrdinals ∧ env.jsonLength map' ≤ mapMaxBytes := by
    intro map hmap
    split_ifs at hmap with hpending
    obtain ⟨rfl, hlength, hjson⟩ := writeMap_eq_ok hmap
    exact ⟨by simpa using hpending, rfl, hlength, hjson⟩
  cases stored with
  | none =>
      simp only [prepareDelete, readMap, bind, Except.bind] at h
      cases hfresh : freshMap env leaves count true uuid with
      | error e => simp [hfresh] at h
      | ok map =>
          rw [hfresh] at h
          obtain ⟨hpending, heq, hlength, hjson⟩ := hwrite map h
          exact ⟨map, hpending, heq, hlength, hjson, Or.inr ⟨rfl, freshMap_identities hfresh⟩⟩
  | some map =>
      cases hread : readMap env (some map) with
      | error e => simp [prepareDelete, hread, bind, Except.bind] at h
      | ok read =>
          obtain ⟨rfl, hsound, -⟩ := readMap_some.mp hread
          simp only [prepareDelete, hread, bind, Except.bind] at h
          obtain ⟨hpending, heq, hlength, hjson⟩ := hwrite map h
          exact ⟨map, hpending, heq, hlength, hjson, Or.inl ⟨rfl, hsound⟩⟩

theorem storeSettled_eq_ok {env : DeckEnv} {map : FileDeckMap} {landed : Bool} {uuid : String}
    {stored' : Option FileDeckMap} {retired : Option ℤ}
    (h : storeSettled env map landed uuid = .ok (stored', retired)) :
    ∃ map', stored' = some map' ∧ applyPending env map landed uuid = .ok (map', retired) := by
  rw [storeSettled] at h
  cases happly : applyPending env map landed uuid with
  | error e =>
      rw [happly] at h
      cases h
  | ok settled =>
      rw [happly] at h
      obtain ⟨rfl, rfl⟩ := Prod.mk.inj (Except.ok.inj h)
      exact ⟨_, rfl, rfl⟩

/-- `finish_delete_in` settles the deletion it was called for, or does nothing. -/
theorem finishDelete_eq_ok {env : DeckEnv} {stored stored' : Option FileDeckMap} {id : String}
    {landed : Bool} {uuid : String} {retired : Option ℤ}
    (h : finishDelete env stored id landed uuid = .ok (stored', retired)) :
    ∃ map, stored = some map ∧ SoundMap env map ∧ FittingMap env map ∧
      ((∃ p map', map.pending = some p ∧ p.id = id ∧ stored' = some map' ∧
          applyPending env map landed uuid = .ok (map', retired)) ∨
        (¬∃ p ∈ map.pending, p.id = id) ∧ stored' = stored ∧ retired = none) := by
  cases hread : readMap env stored with
  | error e => simp [finishDelete, hread, bind, Except.bind] at h
  | ok read =>
      obtain ⟨rfl, hmap⟩ := readMap_eq_ok hread
      cases read with
      | none => simp [finishDelete, hread, bind, Except.bind] at h
      | some map =>
          refine ⟨map, rfl, (hmap map rfl).1, (hmap map rfl).2, ?_⟩
          simp only [finishDelete, hread, bind, Except.bind] at h
          cases hp : map.pending with
          | none =>
              rw [hp] at h
              obtain ⟨rfl, rfl⟩ := Prod.mk.inj (Except.ok.inj h)
              exact Or.inr ⟨by simp, rfl, rfl⟩
          | some p =>
              rw [hp] at h
              by_cases hid : p.id = id
              · rw [if_pos (by simpa using hid)] at h
                obtain ⟨map', hstored', happly⟩ := storeSettled_eq_ok h
                exact Or.inl ⟨p, map', rfl, hid, hstored', happly⟩
              · rw [if_neg (by simpa using hid)] at h
                obtain ⟨rfl, rfl⟩ := Prod.mk.inj (Except.ok.inj h)
                exact Or.inr ⟨by simpa using hid, rfl, rfl⟩

/-- `resolve_pending_delete_in` settles a pending deletion by the count. -/
theorem resolvePendingDelete_eq_ok {env : DeckEnv} {stored stored' : Option FileDeckMap}
    {count : ℕ} {durable : Except Error Unit} {uuid : String} {retired : Option ℤ}
    (h : resolvePendingDelete env stored count durable uuid = .ok (stored', retired)) :
    (stored' = stored ∧ retired = none ∧ ∀ map, stored = some map → map.pending = none) ∨
      ∃ map p map', stored = some map ∧ SoundMap env map ∧ FittingMap env map ∧
        map.pending = some p ∧ stored' = some map' ∧
          applyPending env map (decide (p.gameCount = count + 1)) uuid = .ok (map', retired) := by
  cases hread : readMap env stored with
  | error e => simp [resolvePendingDelete, hread, bind, Except.bind] at h
  | ok read =>
      obtain ⟨rfl, hmap⟩ := readMap_eq_ok hread
      cases read with
      | none =>
          simp only [resolvePendingDelete, hread, bind, Except.bind] at h
          obtain ⟨rfl, rfl⟩ := Prod.mk.inj (Except.ok.inj h)
          exact Or.inl ⟨rfl, rfl, by simp⟩
      | some map =>
          cases hp : map.pending with
          | none =>
              simp only [resolvePendingDelete, hread, bind, Except.bind, hp] at h
              obtain ⟨rfl, rfl⟩ := Prod.mk.inj (Except.ok.inj h)
              refine Or.inl ⟨rfl, rfl, ?_⟩
              rintro _ ⟨⟩
              exact hp
          | some p =>
              have hlanded : (p.gameCount ≠ 0 && p.gameCount - 1 = count) =
                  decide (p.gameCount = count + 1) := by
                rw [Bool.eq_iff_iff]
                simp only [Bool.and_eq_true, decide_eq_true_eq]
                omega
              simp only [resolvePendingDelete, hread, bind, Except.bind, hp, hlanded] at h
              have hsettled : storeSettled env map (decide (p.gameCount = count + 1)) uuid =
                  .ok (stored', retired) := by
                split_ifs at h with hcount
                · cases durable with
                  | error e => cases h
                  | ok _ => exact h
                · exact h
              obtain ⟨map', hstored', happly⟩ := storeSettled_eq_ok hsettled
              exact Or.inr ⟨map, p, map', rfl, (hmap map rfl).1, (hmap map rfl).2, hp, hstored',
                happly⟩

/-! ## New decks -/

theorem number_allocate (map : FileDeckMap) (index index' : ℕ) :
    (map.allocate index).number index' =
      if index' = index then some map.nextDeck else map.number index' := by
  have hlength : index <
      (map.ordinals ++ List.replicate (index + 1 - map.ordinals.length) none).length := by
    rw [List.length_append, List.length_replicate]
    omega
  rw [FileDeckMap.allocate, FileDeckMap.number, numberAt_set hlength, numberAt_resize]
  rfl

theorem SoundMap.number_lt {env : DeckEnv} {map : FileDeckMap} (h : SoundMap env map)
    {index : ℕ} {number : ℤ} (hnumber : map.number index = some number) :
    number < map.nextDeck :=
  (h.bounded index number hnumber).2

theorem SoundMap.allocate {env : DeckEnv} {map : FileDeckMap} (h : SoundMap env map)
    (index : ℕ) :
    SoundMap env (map.allocate index) where
  version := h.version
  fileId := h.fileId
  epoch := h.epoch
  superseded := h.superseded
  nextDeck := Int.add_nonneg h.nextDeck (by decide)
  bounded index' number hnumber := by
    have hcases := (number_allocate map index index').symm.trans hnumber
    have hnext := h.nextDeck
    change 0 ≤ number ∧ number < map.nextDeck + 1
    split_ifs at hcases
    · obtain rfl := Option.some.inj hcases
      omega
    · have := h.bounded index' number hcases
      omega
  distinct index₁ index₂ number h₁ h₂ := by
    have h₁ := (number_allocate map index index₁).symm.trans h₁
    have h₂ := (number_allocate map index index₂).symm.trans h₂
    split_ifs at h₁ h₂ with heq₁ heq₂ heq₂
    · exact heq₁.trans heq₂.symm
    · obtain rfl := Option.some.inj h₁
      exact absurd (h.number_lt h₂) (lt_irrefl _)
    · obtain rfl := Option.some.inj h₂
      exact absurd (h.number_lt h₁) (lt_irrefl _)
    · exact h.distinct _ _ number h₁ h₂
  pending := h.pending

/-- What `with_mapped_deck` hands to its operation. -/
theorem withMappedDeck_eq_ok {env : DeckEnv} {stored : Option FileDeckMap} {ordinal : ℤ}
    {expected : Option String} {create : Bool} {r : Resolved}
    (h : withMappedDeck env stored ordinal expected create = .ok r) :
    0 ≤ ordinal ∧ ordinal.toNat < mapMaxOrdinals ∧ r.epoch = mapEpoch stored ∧
      (∀ e ∈ expected, e = r.epoch) ∧
        ((stored = none ∧ r.stored = none ∧ r.number = some ordinal) ∨
          ∃ map, stored = some map ∧ SoundMap env map ∧ FittingMap env map ∧
            map.pending = none ∧
              ((r.stored = stored ∧ r.number = map.number ordinal.toNat) ∨
                create = true ∧ map.number ordinal.toNat = none ∧
                  r.stored = some (map.allocate ordinal.toNat) ∧
                    r.number = some map.nextDeck ∧
                      (map.allocate ordinal.toNat).ordinals.length ≤ mapMaxOrdinals ∧
                        env.jsonLength (map.allocate ordinal.toNat) ≤ mapMaxBytes)) := by
  simp only [withMappedDeck, mappedOrdinal, bind, Except.bind] at h
  split_ifs at h with hneg hlarge
  refine ⟨not_lt.mp hneg, Nat.lt_of_not_le hlarge, ?_⟩
  cases hread : readMap env stored with
  | error e => simp [resolveMappedDeck, hread, Except.mapError, bind, Except.bind] at h
  | ok read =>
      obtain ⟨rfl, hmap⟩ := readMap_eq_ok hread
      simp only [resolveMappedDeck, hread, Except.mapError, bind, Except.bind] at h
      split_ifs at h with hepoch hpending
      have hexpected : ∀ e ∈ expected, e = mapEpoch read := by
        intro e he
        by_contra hne
        exact hepoch (by simpa [Option.mem_def.mp he] using hne)
      cases read with
      | none =>
          obtain rfl := Except.ok.inj h
          exact ⟨rfl, hexpected, Or.inl ⟨rfl, rfl, rfl⟩⟩
      | some map =>
          obtain ⟨hsound, hfitting⟩ := hmap map rfl
          have hnone : map.pending = none := by simpa using hpending
          dsimp only at h
          split_ifs at h with hcreate hnext
          · obtain ⟨hcreate, hnumber⟩ := Bool.and_eq_true_iff.mp hcreate
            cases hwrite : writeMap env (map.allocate ordinal.toNat) with
            | error e => simp [hwrite] at h
            | ok written =>
                rw [hwrite] at h
                obtain ⟨rfl, hlength, hjson⟩ := writeMap_eq_ok hwrite
                obtain rfl := Except.ok.inj h
                refine ⟨rfl, hexpected, Or.inr ⟨map, rfl, hsound, hfitting, hnone,
                  Or.inr ⟨hcreate, by simpa using hnumber, rfl, ?_, hlength, hjson⟩⟩⟩
                simp [number_allocate]
          · obtain rfl := Except.ok.inj h
            exact ⟨rfl, hexpected, Or.inr ⟨map, rfl, hsound, hfitting, hnone,
              Or.inl ⟨rfl, rfl⟩⟩⟩

end EnCroissant
