import Mathlib
import EnCroissant.Error

/-!
# The deck map of a file

A file's practice decks are numbered; once a game was deleted, a map takes the
ordinals of the games to the numbers of their decks.  The map also holds the
record of a deletion that was prepared and not yet settled.
-/

namespace EnCroissant

def practiceStorageVersion : ℕ := 1

def noMapEpoch : String := "no-map"

def mapMaxBytes : ℕ := 8 * 1024 * 1024

def mapMaxOrdinals : ℕ := 1000000

def i32Max : ℤ := 2147483647

structure PendingDelete where
  id : String
  ordinal : ℕ
  gameCount : ℕ
  deriving DecidableEq, Repr

structure FileDeckMap where
  version : ℕ
  fileId : String
  epoch : String
  ordinals : List (Option ℤ)
  nextDeck : ℤ
  legacySuperseded : Bool
  pending : Option PendingDelete
  deriving DecidableEq, Repr

/-- What the functions take from outside: the file, the name of its map leaf,
`Uuid::parse_str`, and the length of a map as JSON. -/
structure DeckEnv where
  fileId : String
  mapLeaf : String
  isUuid : String → Bool
  jsonLength : FileDeckMap → ℕ
  isUuid_noMapEpoch : isUuid noMapEpoch = false

def invalidLeaf (leaf reason : String) : Error :=
  .invalidInput ("practice leaf " ++ leaf ++ ": " ++ reason)

def numberAt (ordinals : List (Option ℤ)) (index : ℕ) : Option ℤ := ordinals[index]?.join

/-- The deck number of an ordinal. -/
def FileDeckMap.number (map : FileDeckMap) (index : ℕ) : Option ℤ := numberAt map.ordinals index

/-! ## Reading and writing -/

/-- A number is out of bounds or occurs twice; `seen` are the numbers before. -/
def numbersInvalid (nextDeck : ℤ) : (seen : List ℤ) → List (Option ℤ) → Bool
  | _, [] => false
  | seen, none :: ordinals => numbersInvalid nextDeck seen ordinals
  | seen, some number :: ordinals =>
      number < 0 || number ≥ nextDeck || seen.contains number ||
        numbersInvalid nextDeck (number :: seen) ordinals

def pendingInvalid (env : DeckEnv) (pending : PendingDelete) : Bool :=
  pending.gameCount > mapMaxOrdinals || pending.ordinal ≥ pending.gameCount ||
    !env.isUuid pending.id

def mapInvalid (env : DeckEnv) (map : FileDeckMap) : Bool :=
  map.version ≠ practiceStorageVersion || map.fileId ≠ env.fileId ||
    (map.epoch ≠ noMapEpoch && !env.isUuid map.epoch) ||
    (map.legacySuperseded && map.epoch = noMapEpoch) || map.nextDeck < 0 ||
    map.ordinals.length > mapMaxOrdinals || numbersInvalid map.nextDeck [] map.ordinals ||
    map.pending.any (pendingInvalid env)

def readMap (env : DeckEnv) (stored : Option FileDeckMap) :
    Except Error (Option FileDeckMap) :=
  match stored with
  | none => .ok none
  | some map =>
      if env.jsonLength map > mapMaxBytes then
        .error (invalidLeaf env.mapLeaf "document exceeds its size limit")
      else if mapInvalid env map then .error (invalidLeaf env.mapLeaf "deck map is invalid")
      else .ok (some map)

/-- The stored map after `write_map`. -/
def writeMap (env : DeckEnv) (map : FileDeckMap) : Except Error FileDeckMap :=
  if map.ordinals.length > mapMaxOrdinals ∨ env.jsonLength map > mapMaxBytes then
    .error (invalidLeaf env.mapLeaf "deck map exceeds its size limit")
  else .ok map

def mapEpoch (map : Option FileDeckMap) : String := map.elim noMapEpoch FileDeckMap.epoch

/-! ## Deletions -/

/-- `leaves` are the numbers of the decks that have a leaf in the store. -/
def freshMap (env : DeckEnv) (leaves : List ℤ) (count : ℕ) (identities : Bool) (uuid : String) :
    Except Error FileDeckMap :=
  if count > mapMaxOrdinals then .error (.resourceLimit "practice ordinal limit exceeded")
  else
    let highest := leaves.max?.getD (-1)
    if highest + 1 > i32Max then .error (.resourceLimit "practice deck numbers exhausted")
    else
      .ok
        { version := practiceStorageVersion
          fileId := env.fileId
          epoch := if identities then noMapEpoch else uuid
          ordinals := (List.range count).map fun n : ℕ ↦ if identities then some (n : ℤ) else none
          nextDeck := max (highest + 1) count
          legacySuperseded := !identities
          pending := none }

/-- The map with its pending record settled, and the number of the retired deck. -/
def settlePending (map : FileDeckMap) (landed : Bool) (uuid : String) :
    Option (FileDeckMap × Option ℤ) :=
  match map.pending with
  | none => none
  | some pending =>
      if landed then
        some
          ({ map with
              pending := none
              ordinals := map.ordinals.eraseIdx pending.ordinal
              epoch := uuid
              legacySuperseded := true },
            map.number pending.ordinal)
      else some ({ map with pending := none }, none)

/-- The stored map after `apply_pending`, and the number of the retired deck. -/
def applyPending (env : DeckEnv) (map : FileDeckMap) (landed : Bool) (uuid : String) :
    Except Error (FileDeckMap × Option ℤ) :=
  match settlePending map landed uuid with
  | none => .ok (map, none)
  | some (settled, retired) =>
      match writeMap env settled with
      | .error e => .error e
      | .ok written => .ok (written, retired)

def storeSettled (env : DeckEnv) (map : FileDeckMap) (landed : Bool) (uuid : String) :
    Except Error (Option FileDeckMap × Option ℤ) :=
  (fun settled ↦ (some settled.1, settled.2)) <$> applyPending env map landed uuid

def hasPendingDelete (env : DeckEnv) (stored : Option FileDeckMap) : Except Error Bool := do
  let map ← readMap env stored
  .ok (map.any fun map ↦ map.pending.isSome)

def resolvePendingDelete (env : DeckEnv) (stored : Option FileDeckMap) (count : ℕ)
    (establishDurability : Except Error Unit) (uuid : String) :
    Except Error (Option FileDeckMap × Option ℤ) := do
  match ← readMap env stored with
  | none => .ok (stored, none)
  | some map =>
      match map.pending with
      | none => .ok (stored, none)
      | some pending =>
          let landed := pending.gameCount ≠ 0 && pending.gameCount - 1 = count
          if landed then establishDurability
          storeSettled env map landed uuid

/-- The stored map after `prepare_delete_in`; `uuid` is the new record's id. -/
def prepareDelete (env : DeckEnv) (stored : Option FileDeckMap) (leaves : List ℤ)
    (ordinal count : ℕ) (uuid : String) : Except Error FileDeckMap := do
  let map ←
    match ← readMap env stored with
    | some map => .ok map
    | none => freshMap env leaves count true uuid
  if map.pending.isSome then .error (.conflict "practice delete is pending")
  else writeMap env { map with pending := some ⟨uuid, ordinal, count⟩ }

def finishDelete (env : DeckEnv) (stored : Option FileDeckMap) (id : String) (landed : Bool)
    (uuid : String) : Except Error (Option FileDeckMap × Option ℤ) := do
  match ← readMap env stored with
  | none => .error (.conflict "practice delete map disappeared")
  | some map =>
      if map.pending.any fun pending ↦ pending.id = id then storeSettled env map landed uuid
      else .ok (stored, none)

/-! ## Resolving a deck -/

def mappedOrdinal (ordinal : ℤ) : Except Error ℕ :=
  if ordinal < 0 then .error (.invalidInput "negative practice ordinal")
  else if ordinal.toNat ≥ mapMaxOrdinals then
    .error (.resourceLimit "practice ordinal limit exceeded")
  else .ok ordinal.toNat

/-- The map with a new deck for an ordinal that has none. -/
def FileDeckMap.allocate (map : FileDeckMap) (index : ℕ) : FileDeckMap :=
  { map with
    nextDeck := map.nextDeck + 1
    ordinals := (map.ordinals ++
      List.replicate (index + 1 - map.ordinals.length) none).set index (some map.nextDeck) }

/-- What a practice command is authorised for, and the stored map behind it. -/
structure Resolved where
  stored : Option FileDeckMap
  number : Option ℤ
  epoch : String
  legacySuperseded : Bool
  deriving DecidableEq, Repr

def labelUnusable : Error → Error
  | .invalidInput message => .unusable message
  | e => e

def resolveMappedDeck (env : DeckEnv) (stored : Option FileDeckMap) (ordinal : ℤ) (index : ℕ)
    (expectedEpoch : Option String) (create : Bool) : Except Error Resolved := do
  let map ← (readMap env stored).mapError labelUnusable
  let epoch := mapEpoch map
  if expectedEpoch.any fun expected ↦ expected ≠ epoch then
    .error (.conflict "practice epoch changed")
  else if map.any fun map ↦ map.pending.isSome then
    .error (.conflict "practice delete requires resolution")
  else
    match map with
    | none => .ok ⟨stored, some ordinal, epoch, false⟩
    | some map =>
        if create && (map.number index).isNone then
          if map.nextDeck + 1 > i32Max then
            .error (.resourceLimit "practice deck numbers exhausted")
          else do
            let written ← writeMap env (map.allocate index)
            .ok ⟨some written, written.number index, epoch, written.legacySuperseded⟩
        else .ok ⟨stored, map.number index, epoch, map.legacySuperseded⟩

/-- The front of every practice command on a deck. -/
def withMappedDeck (env : DeckEnv) (stored : Option FileDeckMap) (ordinal : ℤ)
    (expectedEpoch : Option String) (create : Bool) : Except Error Resolved := do
  let index ← mappedOrdinal ordinal
  resolveMappedDeck env stored ordinal index expectedEpoch create

end EnCroissant
