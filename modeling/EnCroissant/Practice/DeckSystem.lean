import Mathlib
import EnCroissant.Library.Machine
import EnCroissant.Practice.MapFacts

/-!
# Games, decks and crashes

A file whose games come and go, the deck map beside it, and the deletion in
progress.  A deletion is prepared in the map, carried out in the file and
finished in the map; a crash can come between any two of these steps, and then
the pending deletion is settled later by the number of games in the file.
-/

namespace EnCroissant

/-- How far the deletion in progress has come. -/
inductive DeletePhase where
  | idle
  | prepared (id : String) (ordinal : ℕ)
  | rewritten (id : String)
  deriving DecidableEq, Repr

structure DeckSystem (Game : Type*) where
  stored : Option FileDeckMap
  /-- The numbers of the decks that have a leaf in the store. -/
  leaves : List ℤ
  /-- The games of the file, in order. -/
  games : List Game
  /-- All games that were ever in the file. -/
  seen : List Game
  phase : DeletePhase
  /-- All strings that `Uuid::new_v4` has drawn. -/
  used : List String

/-- The deck number of a place in a file with `count` games; a pending deletion
counts once the file was rewritten. -/
def deckNumber (stored : Option FileDeckMap) (count index : ℕ) : Option ℤ :=
  match stored with
  | none => some (index : ℤ)
  | some map =>
      match map.pending with
      | none => map.number index
      | some p =>
          if p.gameCount = count + 1 then
            map.number (if index < p.ordinal then index else index + 1)
          else map.number index

def DeckSystem.number {Game : Type*} (s : DeckSystem Game) (index : ℕ) : Option ℤ :=
  deckNumber s.stored s.games.length index

/-! ## Steps -/

inductive DeckAction (Game : Type*) where
  | append (game : Game)
  /-- A practice command, which may write leaves of its deck. -/
  | access (ordinal : ℤ) (expectedEpoch : Option String) (create : Bool)
  | prepare (ordinal : ℕ) (uuid : String)
  | rewrite
  | finish (uuid : String)
  | resolve (establishDurability : Except Error Unit) (uuid : String)
  | crash

variable {Game : Type*}

/-- `Uuid::new_v4` draws a string that parses and was not drawn before. -/
def DeckSystem.Draws (env : DeckEnv) (s : DeckSystem Game) (uuid : String) : Prop :=
  env.isUuid uuid = true ∧ uuid ∉ s.used

/-- A practice command resolves its deck. -/
def DeckSystem.Access (env : DeckEnv) (s : DeckSystem Game) (ordinal : ℤ)
    (expectedEpoch : Option String) (create : Bool) (r : Resolved) (s' : DeckSystem Game) :
    Prop :=
  withMappedDeck env s.stored ordinal expectedEpoch create = .ok r ∧
    ∃ leaves', (leaves' = s.leaves ∨ ∃ number ∈ r.number, leaves' = number :: s.leaves) ∧
      s' = { s with stored := r.stored, leaves := leaves' }

/-- A deck is retired; its leaves may stay behind. -/
def Retires (leaves : List ℤ) (retired : Option ℤ) (leaves' : List ℤ) : Prop :=
  leaves' = leaves ∨ ∃ number ∈ retired, leaves' = leaves.filter (· ≠ number)

/-- A step of the system.  Games are deleted, appended and recovered under one
lock, so these steps need the phase `idle`; practice commands come at any time. -/
def deckStep (env : DeckEnv) (s : DeckSystem Game) (a : DeckAction Game)
    (s' : DeckSystem Game) : Prop :=
  match a with
  | .append game =>
      s.phase = .idle ∧ hasPendingDelete env s.stored = .ok false ∧ game ∉ s.seen ∧
        s' = { s with games := s.games ++ [game], seen := game :: s.seen }
  | .access ordinal expectedEpoch create => ∃ r, s.Access env ordinal expectedEpoch create r s'
  | .prepare ordinal uuid =>
      s.phase = .idle ∧ ordinal < s.games.length ∧ s.Draws env uuid ∧
        ∃ map', prepareDelete env s.stored s.leaves ordinal s.games.length uuid = .ok map' ∧
          s' = { s with
            stored := some map', phase := .prepared uuid ordinal, used := uuid :: s.used }
  | .rewrite =>
      ∃ id ordinal, s.phase = .prepared id ordinal ∧
        s' = { s with games := s.games.eraseIdx ordinal, phase := .rewritten id }
  | .finish uuid =>
      s.Draws env uuid ∧ ∃ id landed stored' retired leaves',
        ((∃ ordinal, s.phase = .prepared id ordinal ∧ landed = false) ∨
          s.phase = .rewritten id ∧ landed = true) ∧
            finishDelete env s.stored id landed uuid = .ok (stored', retired) ∧
              Retires s.leaves retired leaves' ∧
                s' = { s with
                  stored := stored', leaves := leaves', phase := .idle, used := uuid :: s.used }
  | .resolve establishDurability uuid =>
      s.phase = .idle ∧ s.Draws env uuid ∧ ∃ stored' retired leaves',
        resolvePendingDelete env s.stored s.games.length establishDurability uuid =
            .ok (stored', retired) ∧
          Retires s.leaves retired leaves' ∧
            s' = { s with stored := stored', leaves := leaves', used := uuid :: s.used }
  | .crash => s' = { s with phase := .idle }

def deckMachine (env : DeckEnv) (Game : Type*) :
    Machine (DeckSystem Game) (DeckAction Game) where
  init s := s.stored = none ∧ s.phase = .idle ∧ s.used = [] ∧ s.games.Nodup ∧ s.games ⊆ s.seen
  step := deckStep env

/-! ## The invariant -/

/-- What the phase says about the pending deletion. -/
def PhaseOk (stored : Option FileDeckMap) (count : ℕ) : DeletePhase → Prop
  | .idle => True
  | .prepared id ordinal =>
      ∃ map ∈ stored, ∃ p ∈ map.pending,
        p.id = id ∧ p.ordinal = ordinal ∧ p.gameCount = count
  | .rewritten id =>
      ∃ map ∈ stored, ∃ p ∈ map.pending, p.id = id ∧ p.gameCount = count + 1

structure DeckSystem.Inv (env : DeckEnv) (s : DeckSystem Game) : Prop where
  nodup : s.games.Nodup
  seen : s.games ⊆ s.seen
  sound : ∀ map ∈ s.stored, SoundMap env map
  pending : ∀ map ∈ s.stored, ∀ p ∈ map.pending,
    p.gameCount = s.games.length ∨ p.gameCount = s.games.length + 1
  phase : PhaseOk s.stored s.games.length s.phase
  leaves : ∀ map ∈ s.stored, ∀ number ∈ s.leaves, number < map.nextDeck
  epoch : ∀ map ∈ s.stored, map.epoch = noMapEpoch ∨ map.epoch ∈ s.used

section

variable {map : FileDeckMap} {p : PendingDelete} {count : ℕ}

theorem deckNumber_settled (h : map.pending = none) (count index : ℕ) :
    deckNumber (some map) count index = map.number index := by
  simp [deckNumber, h]

theorem deckNumber_prepared (h : map.pending = some p) (hcount : p.gameCount = count)
    (index : ℕ) :
    deckNumber (some map) count index = map.number index := by
  simp [deckNumber, h, hcount]

theorem deckNumber_rewritten (h : map.pending = some p) (hcount : p.gameCount = count + 1)
    (index : ℕ) :
    deckNumber (some map) count index =
      map.number (if index < p.ordinal then index else index + 1) := by
  simp [deckNumber, h, hcount]

end

theorem Retires.subset {leaves leaves' : List ℤ} {retired : Option ℤ}
    (h : Retires leaves retired leaves') : leaves' ⊆ leaves := by
  rcases h with rfl | ⟨number, -, rfl⟩
  · exact List.Subset.refl _
  · exact fun number' hmem ↦ List.mem_of_mem_filter hmem

theorem getElem?_eraseIdx_shift (games : List Game) (k index : ℕ) :
    (games.eraseIdx k)[index]? = games[if index < k then index else index + 1]? := by
  rw [List.getElem?_eraseIdx]
  split_ifs <;> rfl

/-! ## What a step can do -/

/-- What settling a pending deletion writes. -/
inductive Settles (s : DeckSystem Game) (uuid : String) (stored' : Option FileDeckMap) : Prop
  | nothing (h : stored' = s.stored)
  | landed (map : FileDeckMap) (p : PendingDelete) (hmap : s.stored = some map)
      (hp : map.pending = some p) (hcount : p.gameCount = s.games.length + 1)
      (h : stored' = some (map.landed p uuid))
  | dropped (map : FileDeckMap) (p : PendingDelete) (hmap : s.stored = some map)
      (hp : map.pending = some p) (hcount : p.gameCount = s.games.length)
      (h : stored' = some map.dropPending)

inductive Effect (env : DeckEnv) (s : DeckSystem Game) : DeckSystem Game → Prop
  | append (game : Game) (hphase : s.phase = .idle) (hpending : ∀ map ∈ s.stored, map.pending = none)
      (hnew : game ∉ s.seen) :
      Effect env s { s with games := s.games ++ [game], seen := game :: s.seen }
  | write (leaves' : List ℤ)
      (hleaves : ∀ map ∈ s.stored, ∀ number ∈ leaves', number ∈ s.leaves ∨ number < map.nextDeck) :
      Effect env s { s with leaves := leaves' }
  | create (map : FileDeckMap) (index : ℕ) (leaves' : List ℤ) (hmap : s.stored = some map)
      (hpending : map.pending = none) (hnone : map.number index = none)
      (hleaves : leaves' ⊆ map.nextDeck :: s.leaves) :
      Effect env s { s with stored := some (map.allocate index), leaves := leaves' }
  | prepare (map : FileDeckMap) (ordinal : ℕ) (uuid : String) (huuid : s.Draws env uuid)
      (hordinal : ordinal < s.games.length) (hpending : map.pending = none)
      (hmap : s.stored = some map ∨
        s.stored = none ∧ IdentityMap env s.leaves s.games.length map) :
      Effect env s { s with
        stored := some (map.withPending ⟨uuid, ordinal, s.games.length⟩)
        phase := .prepared uuid ordinal
        used := uuid :: s.used }
  | rewrite (map : FileDeckMap) (p : PendingDelete) (hmap : s.stored = some map)
      (hp : map.pending = some p) (hcount : p.gameCount = s.games.length)
      (hordinal : p.ordinal < s.games.length) :
      Effect env s { s with
        games := s.games.eraseIdx p.ordinal
        phase := .rewritten p.id }
  | settle (uuid : String) (stored' : Option FileDeckMap) (leaves' : List ℤ)
      (huuid : s.Draws env uuid) (hsettles : Settles s uuid stored') (hleaves : leaves' ⊆ s.leaves) :
      Effect env s { s with
        stored := stored', leaves := leaves', phase := .idle, used := uuid :: s.used }
  | crash : Effect env s { s with phase := .idle }

section

variable {env : DeckEnv} {s s' : DeckSystem Game}

theorem settles_of_applyPending {map map' : FileDeckMap} {p : PendingDelete} {landed : Bool}
    {uuid : String} {retired : Option ℤ} (hmap : s.stored = some map)
    (hp : map.pending = some p)
    (happly : applyPending env map landed uuid = .ok (map', retired))
    (hlanded : landed = true → p.gameCount = s.games.length + 1)
    (hdropped : landed = false → p.gameCount = s.games.length) :
    Settles s uuid (some map') := by
  obtain ⟨-, -, ⟨hland, rfl, -⟩ | ⟨hland, rfl, -⟩⟩ := applyPending_eq_ok hp happly
  · exact .landed map p hmap hp (hlanded hland) rfl
  · exact .dropped map p hmap hp (hdropped hland) rfl

theorem effect_of_access {ordinal : ℤ} {expectedEpoch : Option String} {create : Bool}
    {r : Resolved} (h : s.Access env ordinal expectedEpoch create r s') :
    Effect env s s' := by
  obtain ⟨hr, leaves', hleaves, rfl⟩ := h
  obtain ⟨-, -, -, -, ⟨hnone, hstored, -⟩ | ⟨map, hmap, hsound, -, hpending, hcases⟩⟩ :=
    withMappedDeck_eq_ok hr
  · rw [hstored, ← hnone]
    exact .write leaves' (by simp [hnone])
  · rcases hcases with ⟨hstored, hnumber⟩ | ⟨-, hnone, hstored, hnumber, -⟩
    · rw [hstored]
      refine .write leaves' ?_
      intro map' hmap' number hmem
      obtain rfl := Option.some.inj (hmap.symm.trans hmap')
      rcases hleaves with rfl | ⟨number', hnumber', rfl⟩
      · exact Or.inl hmem
      · rcases List.mem_cons.mp hmem with rfl | hmem
        · exact Or.inr (hsound.number_lt (hnumber ▸ hnumber'))
        · exact Or.inl hmem
    · rw [hstored]
      refine .create map ordinal.toNat leaves' hmap hpending hnone ?_
      rcases hleaves with rfl | ⟨number', hnumber', rfl⟩
      · exact List.subset_cons_self _ _
      · obtain rfl := Option.some.inj (hnumber.symm.trans hnumber')
        exact List.Subset.refl _

/-- Every step has one of seven effects. -/
theorem effect_of_step (hs : s.Inv env) {a : DeckAction Game} (h : deckStep env s a s') :
    Effect env s s' := by
  cases a with
  | append game =>
      obtain ⟨hphase, hpending, hnew, rfl⟩ := h
      refine .append game hphase ?_ hnew
      intro map hmap
      have hany := hasPendingDelete_eq_ok hpending
      rw [Option.mem_def.mp hmap] at hany
      simpa using hany.symm
  | access ordinal expectedEpoch create =>
      obtain ⟨r, hr⟩ := h
      exact effect_of_access hr
  | prepare ordinal uuid =>
      obtain ⟨-, hordinal, huuid, map', hprepare, rfl⟩ := h
      obtain ⟨map, hpending, rfl, -, -, hfrom⟩ := prepareDelete_eq_ok hprepare
      exact .prepare map ordinal uuid huuid hordinal hpending (hfrom.imp_left And.left)
  | rewrite =>
      obtain ⟨id, ordinal, hphase, rfl⟩ := h
      have hok := hs.phase
      rw [hphase] at hok
      obtain ⟨map, hmap, p, hp, rfl, rfl, hcount⟩ := hok
      have hordinal := ((hs.sound map hmap).pending p hp).1
      exact .rewrite map p hmap hp hcount (hcount ▸ hordinal)
  | finish uuid =>
      obtain ⟨huuid, id, landed, stored', retired, leaves', hphase, hfinish, hretires, rfl⟩ := h
      refine .settle uuid stored' leaves' huuid ?_ hretires.subset
      obtain ⟨map, hmap, -, -, ⟨p, map', hp, -, rfl, happly⟩ | ⟨-, rfl, -⟩⟩ :=
        finishDelete_eq_ok hfinish
      · have hok := hs.phase
        rcases hphase with ⟨ordinal, hphase, rfl⟩ | ⟨hphase, rfl⟩
        · rw [hphase] at hok
          obtain ⟨map₁, hmap₁, p₁, hp₁, -, -, hcount⟩ := hok
          obtain rfl := Option.some.inj (hmap.symm.trans hmap₁)
          obtain rfl := Option.some.inj (hp.symm.trans hp₁)
          exact settles_of_applyPending hmap hp happly (by simp) fun _ ↦ hcount
        · rw [hphase] at hok
          obtain ⟨map₁, hmap₁, p₁, hp₁, -, hcount⟩ := hok
          obtain rfl := Option.some.inj (hmap.symm.trans hmap₁)
          obtain rfl := Option.some.inj (hp.symm.trans hp₁)
          exact settles_of_applyPending hmap hp happly (fun _ ↦ hcount) (by simp)
      · exact .nothing rfl
  | resolve establishDurability uuid =>
      obtain ⟨hphase, huuid, stored', retired, leaves', hresolve, hretires, rfl⟩ := h
      have heffect : Settles s uuid stored' := by
        rcases resolvePendingDelete_eq_ok hresolve with
          ⟨rfl, -, -⟩ | ⟨map, p, map', hmap, -, -, hp, rfl, happly⟩
        · exact .nothing rfl
        · refine settles_of_applyPending hmap hp happly (by simp) fun hland ↦ ?_
          exact (hs.pending map hmap p hp).resolve_right (by simpa using hland)
      have := @Effect.settle _ env s uuid stored' leaves' huuid heffect hretires.subset
      rwa [← hphase] at this
  | crash =>
      obtain rfl := h
      exact .crash

end

end EnCroissant
