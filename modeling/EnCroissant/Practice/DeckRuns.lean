import Mathlib
import EnCroissant.Practice.DeckSystem
import EnCroissant.Practice.MapRuns

/-!
# Decks along a run

A deck belongs to one game for ever: it moves with its game when games in front
of it are deleted, and once its game is deleted no other game gets it.
-/

namespace EnCroissant

variable {Game : Type*} {env : DeckEnv} {s s' : DeckSystem Game}

/-! ## The invariant -/

theorem phaseOk_of_settled {map : FileDeckMap} {count count' : ℕ} {phase : DeletePhase}
    (h : PhaseOk (some map) count phase) (hpending : map.pending = none)
    (stored' : Option FileDeckMap) :
    PhaseOk stored' count' phase := by
  cases phase with
  | idle => trivial
  | prepared id ordinal =>
      obtain ⟨_, ⟨⟩, p, hp, -⟩ := h
      rw [hpending] at hp
      cases hp
  | rewritten id =>
      obtain ⟨_, ⟨⟩, p, hp, -⟩ := h
      rw [hpending] at hp
      cases hp

theorem Settles.sound {uuid : String} {stored' : Option FileDeckMap} (hs : s.Inv env)
    (huuid : s.Draws env uuid) (h : Settles s uuid stored') :
    ∀ map ∈ stored', SoundMap env map := by
  rcases h with rfl | ⟨map, p, hmap, -, -, rfl⟩ | ⟨map, p, hmap, -, -, rfl⟩
  · exact hs.sound
  · rintro _ ⟨⟩
    exact (hs.sound map hmap).landed p huuid.1
  · rintro _ ⟨⟩
    exact (hs.sound map hmap).dropPending

/-- Settling changes neither the allocator nor, unless the epoch, anything the
epoch protects. -/
theorem Settles.nextDeck {uuid : String} {stored' : Option FileDeckMap}
    (h : Settles s uuid stored') {map' : FileDeckMap} (hmap' : map' ∈ stored') :
    ∃ map ∈ s.stored, map'.nextDeck = map.nextDeck := by
  rcases h with rfl | ⟨map, p, hmap, -, -, rfl⟩ | ⟨map, p, hmap, -, -, rfl⟩
  · exact ⟨map', hmap', rfl⟩
  · cases hmap'
    exact ⟨map, hmap, rfl⟩
  · cases hmap'
    exact ⟨map, hmap, rfl⟩

theorem inv_of_effect (hs : s.Inv env) (h : Effect env s s') : s'.Inv env := by
  cases h with
  | append game hphase hpending hnew =>
      refine ⟨?_, ?_, hs.sound, ?_, by rw [hphase]; trivial, hs.leaves, hs.epoch⟩
      · refine List.nodup_append.mpr ⟨hs.nodup, List.nodup_singleton game, ?_⟩
        intro g hg g' hg'
        obtain rfl := List.mem_singleton.mp hg'
        rintro rfl
        exact hnew (hs.seen hg)
      · intro g hg
        rcases List.mem_append.mp hg with hg | hg
        · exact List.mem_cons_of_mem _ (hs.seen hg)
        · rw [List.mem_singleton.mp hg]
          exact List.mem_cons_self ..
      · intro map hmap p hp
        rw [hpending map hmap] at hp
        cases hp
  | write leaves' hleaves =>
      refine ⟨hs.nodup, hs.seen, hs.sound, hs.pending, hs.phase, ?_, hs.epoch⟩
      intro map hmap number hnumber
      rcases hleaves map hmap number hnumber with hmem | hlt
      · exact hs.leaves map hmap number hmem
      · exact hlt
  | create map index leaves' hmap hpending hnone hleaves =>
      have hphase := hs.phase
      rw [hmap] at hphase
      refine ⟨hs.nodup, hs.seen, ?_, ?_, phaseOk_of_settled hphase hpending _, ?_, ?_⟩
      · rintro _ ⟨⟩
        exact (hs.sound map hmap).allocate index
      · rintro _ ⟨⟩ p hp
        rw [show (map.allocate index).pending = map.pending from rfl, hpending] at hp
        cases hp
      · rintro _ ⟨⟩ number hnumber
        change number < map.nextDeck + 1
        rcases List.mem_cons.mp (hleaves hnumber) with rfl | hmem
        · omega
        · have := hs.leaves map hmap number hmem
          omega
      · rintro _ ⟨⟩
        exact hs.epoch map hmap
  | prepare map ordinal uuid huuid hordinal hpending hmap =>
      have hsound : SoundMap env map := hmap.elim (hs.sound map ·) fun h ↦ h.2.sound
      refine ⟨hs.nodup, hs.seen, ?_, ?_, ⟨_, rfl, _, rfl, rfl, rfl, rfl⟩, ?_, ?_⟩
      · rintro _ ⟨⟩
        exact hsound.withPending hordinal huuid.1
      · rintro _ ⟨⟩ _ ⟨⟩
        exact Or.inl rfl
      · rintro _ ⟨⟩
        rcases hmap with hmap | ⟨-, hidentity⟩
        · exact hs.leaves map hmap
        · exact hidentity.above
      · rintro _ ⟨⟩
        rcases hmap with hmap | ⟨-, hidentity⟩
        · exact (hs.epoch map hmap).imp_right (List.mem_cons_of_mem _)
        · exact Or.inl hidentity.epoch
  | rewrite map p hmap hp hcount hordinal =>
      have hlength : p.gameCount = (s.games.eraseIdx p.ordinal).length + 1 := by
        rw [List.length_eraseIdx_of_lt hordinal]
        omega
      refine ⟨hs.nodup.eraseIdx _, fun g hg ↦ hs.seen (List.mem_of_mem_eraseIdx hg), hs.sound,
        ?_, ⟨map, hmap, p, hp, rfl, hlength⟩, hs.leaves, hs.epoch⟩
      intro map' hmap' p' hp'
      obtain rfl := Option.some.inj (hmap.symm.trans hmap')
      obtain rfl := Option.some.inj (hp.symm.trans hp')
      exact Or.inr hlength
  | settle uuid stored' leaves' huuid hsettles hleaves =>
      refine ⟨hs.nodup, hs.seen, hsettles.sound hs huuid, ?_, trivial, ?_, ?_⟩
      · rcases hsettles with rfl | ⟨map, p, -, -, -, rfl⟩ | ⟨map, p, -, -, -, rfl⟩
        · exact hs.pending
        · rintro _ ⟨⟩ _ ⟨⟩
        · rintro _ ⟨⟩ _ ⟨⟩
      · intro map' hmap' number hnumber
        obtain ⟨map, hmap, hnext⟩ := hsettles.nextDeck hmap'
        rw [hnext]
        exact hs.leaves map hmap number (hleaves hnumber)
      · rcases hsettles with rfl | ⟨map, p, -, -, -, rfl⟩ | ⟨map, p, hmap, -, -, rfl⟩
        · exact fun map hmap ↦ (hs.epoch map hmap).imp_right (List.mem_cons_of_mem _)
        · rintro _ ⟨⟩
          exact Or.inr (List.mem_cons_self ..)
        · rintro _ ⟨⟩
          exact (hs.epoch map hmap).imp_right (List.mem_cons_of_mem _)
  | crash => exact ⟨hs.nodup, hs.seen, hs.sound, hs.pending, trivial, hs.leaves, hs.epoch⟩

theorem deckMachine_invariant (env : DeckEnv) (Game : Type*) :
    (deckMachine env Game).Invariant (fun _ _ ↦ True) (DeckSystem.Inv env) where
  init := by
    rintro s ⟨hstored, hphase, -, hnodup, hseen⟩
    have hnone : ∀ map, map ∉ s.stored := by simp [hstored]
    exact ⟨hnodup, hseen, fun map hmap ↦ absurd hmap (hnone map),
      fun map hmap ↦ absurd hmap (hnone map), by rw [hphase]; trivial,
      fun map hmap ↦ absurd hmap (hnone map), fun map hmap ↦ absurd hmap (hnone map)⟩
  step hs _ hstep := inv_of_effect hs (effect_of_step hs hstep)

/-! ## Games own their decks -/

/-- The deck is the game's own, now and for ever. -/
structure Owns (s : DeckSystem Game) (g : Game) (deck : ℤ) : Prop where
  seen : g ∈ s.seen
  here : ∀ index, s.games[index]? = some g → s.number index = some deck
  only : ∀ index, s.number index = some deck → s.games[index]? = some g
  below : ∀ map ∈ s.stored, deck < map.nextDeck

/-- Where a number comes from in the map. -/
theorem exists_number {map : FileDeckMap} (hs : s.Inv env) (hstored : s.stored = some map) :
    ∃ shift : ℕ → ℕ, Function.Injective shift ∧
      ∀ index, s.number index = map.number (shift index) := by
  rw [show s.number = deckNumber s.stored s.games.length from rfl, hstored]
  cases hp : map.pending with
  | none => exact ⟨id, Function.injective_id, deckNumber_settled hp _⟩
  | some p =>
      rcases hs.pending map hstored p hp with hcount | hcount
      · exact ⟨id, Function.injective_id, deckNumber_prepared hp hcount⟩
      · refine ⟨_, ?_, deckNumber_rewritten hp hcount⟩
        intro index index' heq
        dsimp only at heq
        split_ifs at heq <;> omega

theorem number_injective (hs : s.Inv env) {index index' : ℕ} {deck : ℤ}
    (h : s.number index = some deck) (h' : s.number index' = some deck) :
    index = index' := by
  cases hstored : s.stored with
  | none =>
      rw [DeckSystem.number, hstored] at h h'
      have := (Option.some.inj h).trans (Option.some.inj h').symm
      exact_mod_cast this
  | some map =>
      obtain ⟨shift, hshift, hnumber⟩ := exists_number hs hstored
      rw [hnumber] at h h'
      exact hshift ((hs.sound map hstored).distinct _ _ deck h h')

theorem number_lt (hs : s.Inv env) {index : ℕ} {deck : ℤ} (h : s.number index = some deck) :
    ∀ map ∈ s.stored, deck < map.nextDeck := by
  intro map hmap
  obtain ⟨shift, -, hnumber⟩ := exists_number hs hmap
  exact (hs.sound map hmap).number_lt ((hnumber index).symm.trans h)

theorem owns_of_number (hs : s.Inv env) {index : ℕ} {g : Game} {deck : ℤ}
    (hg : s.games[index]? = some g) (hdeck : s.number index = some deck) :
    Owns s g deck where
  seen := hs.seen (List.mem_of_getElem? hg)
  here index' hg' := by
    have hlt := (List.getElem?_eq_some_iff.mp hg).1
    obtain rfl : index = index' := (List.getElem?_inj hlt hs.nodup).mp (hg.trans hg'.symm)
    exact hdeck
  only index' hdeck' := by
    obtain rfl := number_injective hs hdeck hdeck'
    exact hg
  below := number_lt hs hdeck

/-- A step that moves no number, no game and no allocator. -/
theorem Owns.congr {g : Game} {deck : ℤ} (h : Owns s g deck) (hgames : s'.games = s.games)
    (hseen : s'.seen = s.seen) (hnumber : ∀ index, s'.number index = s.number index)
    (hbelow : ∀ map ∈ s'.stored, deck < map.nextDeck) :
    Owns s' g deck := by
  refine ⟨hseen ▸ h.seen, fun index hindex ↦ ?_, fun index hindex ↦ ?_, hbelow⟩
  · rw [hnumber]
    exact h.here index (hgames ▸ hindex)
  · rw [hgames]
    exact h.only index ((hnumber index).symm.trans hindex)

/-- Settling a deletion moves no number. -/
theorem Settles.number {uuid : String} {stored' : Option FileDeckMap}
    (h : Settles s uuid stored') (index : ℕ) :
    deckNumber stored' s.games.length index = s.number index := by
  rw [DeckSystem.number]
  rcases h with rfl | ⟨map, p, hmap, hp, hcount, rfl⟩ | ⟨map, p, hmap, hp, hcount, rfl⟩
  · rfl
  · rw [hmap, deckNumber_rewritten hp hcount, deckNumber_settled rfl, number_landed]
  · rw [hmap, deckNumber_prepared hp hcount, deckNumber_settled rfl]
    rfl

theorem owns_append {g game : Game} {deck : ℤ} (h : Owns s g deck) (hnew : game ∉ s.seen)
    (hpending : ∀ map ∈ s.stored, map.pending = none) :
    Owns { s with games := s.games ++ [game], seen := game :: s.seen } g deck := by
  have hnumber : ∀ index,
      deckNumber s.stored (s.games ++ [game]).length index = s.number index := by
    intro index
    rw [DeckSystem.number]
    cases hstored : s.stored with
    | none => rfl
    | some map =>
        rw [deckNumber_settled (hpending map hstored), deckNumber_settled (hpending map hstored)]
  refine ⟨List.mem_cons_of_mem _ h.seen, fun index hindex ↦ ?_, fun index hindex ↦ ?_, h.below⟩
  · refine (hnumber index).trans ?_
    rcases Nat.lt_or_ge index s.games.length with hlt | hge
    · exact h.here index ((List.getElem?_append_left hlt).symm.trans hindex)
    · change (s.games ++ [game])[index]? = some g at hindex
      rw [List.getElem?_append_right hge] at hindex
      obtain rfl := List.mem_singleton.mp (List.mem_of_getElem? hindex)
      exact absurd h.seen hnew
  · have hgame := h.only index ((hnumber index).symm.trans hindex)
    have hlt := (List.getElem?_eq_some_iff.mp hgame).1
    exact (List.getElem?_append_left hlt).trans hgame

theorem owns_create {g : Game} {deck : ℤ} (h : Owns s g deck) {map : FileDeckMap} {index : ℕ}
    (hmap : s.stored = some map) (hpending : map.pending = none)
    (hnone : map.number index = none) (leaves' : List ℤ) :
    Owns { s with stored := some (map.allocate index), leaves := leaves' } g deck := by
  have hold : ∀ index', s.number index' = map.number index' := by
    intro index'
    rw [DeckSystem.number, hmap, deckNumber_settled hpending]
  have hpending' : (map.allocate index).pending = none := hpending
  have hnumber : ∀ index', deckNumber (some (map.allocate index)) s.games.length index' =
      if index' = index then some map.nextDeck else s.number index' := by
    intro index'
    rw [deckNumber_settled hpending', number_allocate, hold]
  have hbelow := h.below map hmap
  refine ⟨h.seen, fun index' hindex' ↦ ?_, fun index' hindex' ↦ ?_, ?_⟩
  · have hhere := h.here index' hindex'
    refine (hnumber index').trans ?_
    rw [if_neg, hhere]
    rintro rfl
    rw [hold, hnone] at hhere
    cases hhere
  · have hcases := (hnumber index').symm.trans hindex'
    split_ifs at hcases
    · have := Option.some.inj hcases
      omega
    · exact h.only index' hcases
  · rintro _ ⟨⟩
    exact hbelow.trans (Int.lt_succ _)

/-- A fresh map gives every game of the file the deck that it had without one. -/
theorem owns_freshMap {g : Game} {deck : ℤ} (h : Owns s g deck) {map : FileDeckMap}
    (hnone : s.stored = none) (hmap : IdentityMap env s.leaves s.games.length map) :
    (∀ index, s.games[index]? = some g → map.number index = some deck) ∧
      (∀ index, map.number index = some deck → s.games[index]? = some g) ∧
        deck < map.nextDeck := by
  have hold : ∀ index, s.number index = some (index : ℤ) := by
    intro index
    rw [DeckSystem.number, hnone]
    rfl
  refine ⟨fun index hindex ↦ ?_, fun index hindex ↦ ?_, ?_⟩
  · have hlt := (List.getElem?_eq_some_iff.mp hindex).1
    rw [hmap.number, if_pos hlt, ← hold]
    exact h.here index hindex
  · rw [hmap.number] at hindex
    split_ifs at hindex
    exact h.only index ((hold index).trans hindex)
  · have hnext := hmap.nextDeck
    rcases lt_or_ge deck 0 with hneg | hpos
    · have := Int.natCast_nonneg s.games.length
      omega
    · obtain ⟨index, rfl⟩ := Int.eq_ofNat_of_zero_le hpos
      have hlt := (List.getElem?_eq_some_iff.mp (h.only index (hold index))).1
      omega

theorem owns_rewrite {g : Game} {deck : ℤ} (h : Owns s g deck) {map : FileDeckMap}
    {p : PendingDelete} (hmap : s.stored = some map) (hp : map.pending = some p)
    (hcount : p.gameCount = s.games.length) (hordinal : p.ordinal < s.games.length)
    (phase : DeletePhase) :
    Owns { s with games := s.games.eraseIdx p.ordinal, phase := phase } g deck := by
  have hlength : p.gameCount = (s.games.eraseIdx p.ordinal).length + 1 := by
    rw [List.length_eraseIdx_of_lt hordinal]
    omega
  have hnumber : ∀ index, deckNumber s.stored (s.games.eraseIdx p.ordinal).length index =
      s.number (if index < p.ordinal then index else index + 1) := by
    intro index
    rw [DeckSystem.number, hmap, deckNumber_rewritten hp hlength, deckNumber_prepared hp hcount]
  refine ⟨h.seen, fun index hindex ↦ ?_, fun index hindex ↦ ?_, h.below⟩
  · refine (hnumber index).trans (h.here _ ?_)
    exact (getElem?_eraseIdx_shift _ _ _).symm.trans hindex
  · exact (getElem?_eraseIdx_shift _ _ _).trans
      (h.only _ ((hnumber index).symm.trans hindex))

theorem owns_of_effect {g : Game} {deck : ℤ} (howns : Owns s g deck)
    (h : Effect env s s') : Owns s' g deck := by
  cases h with
  | append game hphase hpending hnew => exact owns_append howns hnew hpending
  | write leaves' hleaves => exact howns.congr rfl rfl (fun _ ↦ rfl) howns.below
  | create map index leaves' hmap hpending hnone hleaves =>
      exact owns_create howns hmap hpending hnone leaves'
  | prepare map ordinal uuid huuid hordinal hpending hmap =>
      have hnumber : ∀ index, deckNumber (some (map.withPending ⟨uuid, ordinal, s.games.length⟩))
          s.games.length index = map.number index :=
        @deckNumber_prepared (map.withPending ⟨uuid, ordinal, s.games.length⟩)
          ⟨uuid, ordinal, s.games.length⟩ s.games.length rfl rfl
      rcases hmap with hmap | ⟨hnone, hidentity⟩
      · refine howns.congr rfl rfl (fun index ↦ (hnumber index).trans ?_) ?_
        · rw [DeckSystem.number, hmap, deckNumber_settled hpending]
        · rintro _ ⟨⟩
          exact howns.below map hmap
      · obtain ⟨hhere, honly, hbelow⟩ := owns_freshMap howns hnone hidentity
        refine ⟨howns.seen, fun index hindex ↦ (hnumber index).trans (hhere index hindex),
          fun index hindex ↦ honly index ((hnumber index).symm.trans hindex), ?_⟩
        rintro _ ⟨⟩
        exact hbelow
  | rewrite map p hmap hp hcount hordinal => exact owns_rewrite howns hmap hp hcount hordinal _
  | settle uuid stored' leaves' huuid hsettles hleaves =>
      refine howns.congr rfl rfl hsettles.number ?_
      intro map' hmap'
      obtain ⟨map, hmap, hnext⟩ := hsettles.nextDeck hmap'
      rw [hnext]
      exact howns.below map hmap
  | crash => exact howns.congr rfl rfl (fun _ ↦ rfl) howns.below

theorem owns_of_run (hs : s.Inv env) {g : Game} {deck : ℤ} (howns : Owns s g deck)
    (hrun : (deckMachine env Game).Run s s') :
    Owns s' g deck :=
  (deckMachine_invariant env Game).stable
    (fun hs howns _ hstep ↦ owns_of_effect howns (effect_of_step hs hstep)) hs howns hrun

/-! ## Decks that are handed out -/

section

variable {ordinal : ℤ} {expectedEpoch : Option String} {create : Bool} {r : Resolved}

/-- A practice command gets the deck of the state that it leaves behind. -/
theorem DeckSystem.Access.number_eq (h : s.Access env ordinal expectedEpoch create r s') :
    r.number = s'.number ordinal.toNat := by
  obtain ⟨hr, leaves', -, rfl⟩ := h
  obtain ⟨hpos, -, -, -, ⟨-, hstored, hnumber⟩ | ⟨map, hmap, -, -, hpending, hcases⟩⟩ :=
    withMappedDeck_eq_ok hr
  · rw [hnumber, DeckSystem.number, hstored]
    exact congrArg some (Int.toNat_of_nonneg hpos).symm
  · rw [DeckSystem.number]
    rcases hcases with ⟨hstored, hnumber⟩ | ⟨-, -, hstored, hnumber, -⟩
    · rw [hstored, hmap, deckNumber_settled hpending, hnumber]
    · have hpending' : (map.allocate ordinal.toNat).pending = none := hpending
      rw [hstored, deckNumber_settled hpending', number_allocate, if_pos rfl, hnumber]

theorem DeckSystem.Access.games_eq (h : s.Access env ordinal expectedEpoch create r s') :
    s'.games = s.games := by
  obtain ⟨-, leaves', -, rfl⟩ := h
  rfl

theorem DeckSystem.Access.stored_eq (h : s.Access env ordinal expectedEpoch create r s') :
    s'.stored = r.stored := by
  obtain ⟨-, leaves', -, rfl⟩ := h
  rfl

/-- Where the map changes, a deck is new. -/
theorem DeckSystem.Access.new_eq (h : s.Access env ordinal expectedEpoch create r s')
    (hnew : r.stored ≠ s.stored) :
    ∃ map, s.stored = some map ∧ r.number = some map.nextDeck := by
  obtain ⟨-, -, -, -, ⟨hnone, hstored, -⟩ | ⟨map, hmap, -, -, -, hcases⟩⟩ :=
    withMappedDeck_eq_ok h.1
  · exact absurd (hstored.trans hnone.symm) hnew
  · rcases hcases with ⟨hstored, -⟩ | ⟨-, -, -, hnumber, -⟩
    · exact absurd hstored hnew
    · exact ⟨map, hmap, hnumber⟩

theorem DeckSystem.Access.step (h : s.Access env ordinal expectedEpoch create r s') :
    (deckMachine env Game).step s (.access ordinal expectedEpoch create) s' :=
  ⟨r, h⟩

end

/-- The map counts past the deck. -/
def Below (deck : ℤ) (s : DeckSystem Game) : Prop :=
  ∃ map, s.stored = some map ∧ deck < map.nextDeck

theorem below_of_effect {deck : ℤ} (hbelow : Below deck s) (h : Effect env s s') :
    Below deck s' := by
  obtain ⟨map, hmap, hlt⟩ := hbelow
  cases h with
  | append => exact ⟨map, hmap, hlt⟩
  | write => exact ⟨map, hmap, hlt⟩
  | create map' index leaves' hmap' =>
      obtain rfl := Option.some.inj (hmap.symm.trans hmap')
      exact ⟨_, rfl, hlt.trans (Int.lt_succ _)⟩
  | prepare map' ordinal uuid huuid hordinal hpending hmap' =>
      rcases hmap' with hmap' | ⟨hnone, -⟩
      · obtain rfl := Option.some.inj (hmap.symm.trans hmap')
        exact ⟨_, rfl, hlt⟩
      · rw [hmap] at hnone
        cases hnone
  | rewrite => exact ⟨map, hmap, hlt⟩
  | settle uuid stored' leaves' huuid hsettles =>
      rcases hsettles with rfl | ⟨map', p, hmap', -, -, rfl⟩ | ⟨map', p, hmap', -, -, rfl⟩
      · exact ⟨map, hmap, hlt⟩
      · obtain rfl := Option.some.inj (hmap.symm.trans hmap')
        exact ⟨_, rfl, hlt⟩
      · obtain rfl := Option.some.inj (hmap.symm.trans hmap')
        exact ⟨_, rfl, hlt⟩
  | crash => exact ⟨map, hmap, hlt⟩

/-- A deck is resolved for one game, at two times of a run.  The later command
gets the deck exactly if it is for the game; a deck that it hands out anew was
never resolved from a map before, and has no leaf. -/
theorem decks_follow_games {s₁ s₂ s₃ : DeckSystem Game}
    (hs : (deckMachine env Game).Reachable s) {ordinal ordinal' : ℤ}
    {expectedEpoch expectedEpoch' : Option String} {create create' : Bool} {r r' : Resolved}
    (hload : s.Access env ordinal expectedEpoch create r s₁) {deck : ℤ}
    (hdeck : r.number = some deck) (hrun : (deckMachine env Game).Run s₁ s₂)
    (hlater : s₂.Access env ordinal' expectedEpoch' create' r' s₃) :
    (∀ g, s.games[ordinal.toNat]? = some g →
        (r'.number = some deck ↔ s₂.games[ordinal'.toNat]? = some g)) ∧
      (r.stored ≠ none → r'.stored ≠ s₂.stored → r'.number ≠ some deck) ∧
        (r'.stored ≠ s₂.stored → ∀ number ∈ r'.number, number ∉ s₂.leaves) := by
  have hinvariant := deckMachine_invariant env Game
  have hs₁ : s₁.Inv env := hinvariant.step (hinvariant.reachable hs) trivial hload.step
  have hs₂ : s₂.Inv env := hinvariant.run hs₁ hrun
  have hnumber : s₁.number ordinal.toNat = some deck := hload.number_eq.symm.trans hdeck
  refine ⟨fun g hg ↦ ?_, fun hmapped hnew heq ↦ ?_, fun hnew number hmem hleaf ↦ ?_⟩
  · have howns : Owns s₁ g deck := owns_of_number hs₁ (by rwa [hload.games_eq]) hnumber
    have howns₃ : Owns s₃ g deck :=
      owns_of_run hs₁ howns (hrun.step hlater.step)
    rw [hlater.number_eq, ← hlater.games_eq]
    exact ⟨howns₃.only _, howns₃.here _⟩
  · obtain ⟨map, hmap⟩ := Option.ne_none_iff_exists'.mp hmapped
    have hbelow : Below deck s₁ := by
      have hmap₁ := hload.stored_eq.trans hmap
      exact ⟨map, hmap₁, number_lt hs₁ hnumber map hmap₁⟩
    obtain ⟨map₂, hmap₂, hlt⟩ := hinvariant.stable
      (fun hs hbelow _ hstep ↦ below_of_effect hbelow (effect_of_step hs hstep)) hs₁ hbelow hrun
    obtain ⟨map', hmap', hnext⟩ := hlater.new_eq hnew
    obtain rfl := Option.some.inj (hmap₂.symm.trans hmap')
    have := Option.some.inj (hnext.symm.trans heq)
    omega
  · obtain ⟨map', hmap', hnext⟩ := hlater.new_eq hnew
    obtain rfl := Option.some.inj (hnext.symm.trans hmem)
    exact absurd (hs₂.leaves map' hmap' _ hleaf) (lt_irrefl _)

/-! ### A deletion that a crash interrupts -/

def beforeLoad : DeckSystem ℕ := ⟨none, [], [7, 8], [7, 8], .idle, []⟩

def afterLoad : DeckSystem ℕ := { beforeLoad with leaves := [1] }

def identitiesPending : FileDeckMap :=
  ⟨1, "file", noMapEpoch, [some 0, some 1], 2, false, some ⟨firstUuid, 0, 2⟩⟩

def firstDeleted : FileDeckMap := ⟨1, "file", secondUuid, [some 1], 2, true, none⟩

theorem run_firstDeleted :
    (deckMachine sampleEnv ℕ).Run afterLoad
      ⟨some firstDeleted, [1], [8], [7, 8], .idle, [secondUuid, firstUuid]⟩ := by
  have hprepare : (deckMachine sampleEnv ℕ).step afterLoad (.prepare 0 firstUuid)
      ⟨some identitiesPending, [1], [7, 8], [7, 8], .prepared firstUuid 0, [firstUuid]⟩ :=
    ⟨rfl, by decide, ⟨by decide +kernel, by decide⟩, _, by decide +kernel, rfl⟩
  have hrewrite : (deckMachine sampleEnv ℕ).step
      ⟨some identitiesPending, [1], [7, 8], [7, 8], .prepared firstUuid 0, [firstUuid]⟩ .rewrite
      ⟨some identitiesPending, [1], [8], [7, 8], .rewritten firstUuid, [firstUuid]⟩ :=
    ⟨_, _, rfl, rfl⟩
  have hcrash : (deckMachine sampleEnv ℕ).step
      ⟨some identitiesPending, [1], [8], [7, 8], .rewritten firstUuid, [firstUuid]⟩ .crash
      ⟨some identitiesPending, [1], [8], [7, 8], .idle, [firstUuid]⟩ :=
    rfl
  have hresolve : (deckMachine sampleEnv ℕ).step
      ⟨some identitiesPending, [1], [8], [7, 8], .idle, [firstUuid]⟩ (.resolve (.ok ()) secondUuid)
      ⟨some firstDeleted, [1], [8], [7, 8], .idle, [secondUuid, firstUuid]⟩ :=
    ⟨rfl, ⟨by decide +kernel, by decide +kernel⟩, _, some 0, _, by decide +kernel, Or.inl rfl,
      rfl⟩
  exact (((Machine.Run.refl.step hprepare).step hrewrite).step hcrash).step hresolve

theorem decks_follow_games_firstDeleted :
    ∃ r, withMappedDeck sampleEnv (some firstDeleted) 0 none true = .ok r ∧
      (r.number = some 1 ↔ [8][0]? = some 8) := by
  have hs : (deckMachine sampleEnv ℕ).Reachable beforeLoad :=
    ⟨beforeLoad, ⟨rfl, rfl, rfl, by decide, List.Subset.refl _⟩, Machine.Run.refl⟩
  have hload : beforeLoad.Access sampleEnv 1 none true ⟨none, some 1, noMapEpoch, false⟩
      afterLoad :=
    ⟨by decide, [1], Or.inr ⟨1, rfl, rfl⟩, rfl⟩
  have hlater : withMappedDeck sampleEnv (some firstDeleted) 0 none true =
      .ok ⟨some firstDeleted, some 1, secondUuid, true⟩ := by
    decide +kernel
  exact ⟨_, hlater, (decks_follow_games hs hload rfl run_firstDeleted
    ⟨hlater, [1], Or.inl rfl, rfl⟩).1 8 rfl⟩

end EnCroissant
