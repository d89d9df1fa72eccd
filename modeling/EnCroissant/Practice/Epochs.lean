import Mathlib
import EnCroissant.Practice.DeckRuns

/-!
# Epochs guard practice writes

A client keeps the epoch that it loaded a game's deck at, and presents it with
each write.  As long as the epoch is accepted, the game is at its place in the
file, and its place has the deck that it had or a new one.
-/

namespace EnCroissant

variable {Game : Type*} {env : DeckEnv} {s s' : DeckSystem Game} {epoch : String} {index : ℕ}

/-- The epoch is not one that a later step draws. -/
def DeckSystem.Known (s : DeckSystem Game) (epoch : String) : Prop :=
  epoch = noMapEpoch ∨ epoch ∈ s.used

theorem DeckSystem.Known.ne {uuid : String} (h : s.Known epoch) (huuid : s.Draws env uuid) :
    uuid ≠ epoch := by
  rintro rfl
  rcases h with rfl | hmem
  · have := huuid.1
    rw [env.isUuid_noMapEpoch] at this
    cases this
  · exact huuid.2 hmem

theorem known_of_effect (hknown : s.Known epoch) (h : Effect env s s') : s'.Known epoch := by
  cases h with
  | prepare => exact hknown.imp_right (List.mem_cons_of_mem _)
  | settle => exact hknown.imp_right (List.mem_cons_of_mem _)
  | _ => exact hknown

theorem known_mapEpoch (hs : s.Inv env) : s.Known (mapEpoch s.stored) := by
  cases hstored : s.stored with
  | none => exact Or.inl rfl
  | some map => exact hs.epoch map hstored

/-! ## The game stays at its place -/

/-- The rewrite that takes a game away has landed. -/
def DeckSystem.Rewritten (s : DeckSystem Game) : Prop :=
  ∃ map ∈ s.stored, ∃ p ∈ map.pending, p.gameCount = s.games.length + 1

theorem not_rewritten_of_settled (h : ∀ map ∈ s.stored, map.pending = none) : ¬s.Rewritten := by
  rintro ⟨map, hmap, p, hp, -⟩
  rw [h map hmap] at hp
  cases hp

/-- Under the epoch, the game is at its place. -/
structure Stays (s : DeckSystem Game) (epoch : String) (index : ℕ) (g : Game) : Prop where
  known : s.Known epoch
  here : mapEpoch s.stored = epoch → ¬s.Rewritten → s.games[index]? = some g

theorem stays_of_effect {g : Game} (hstays : Stays s epoch index g) (h : Effect env s s') :
    Stays s' epoch index g := by
  refine ⟨known_of_effect hstays.known h, ?_⟩
  cases h with
  | append game hphase hpending hnew =>
      intro hepoch _
      have hgame := hstays.here hepoch (not_rewritten_of_settled hpending)
      have hlt := (List.getElem?_eq_some_iff.mp hgame).1
      exact (List.getElem?_append_left hlt).trans hgame
  | write leaves' hleaves => exact hstays.here
  | create map index' leaves' hmap hpending hnone hleaves =>
      intro hepoch _
      refine hstays.here (by rwa [hmap]) (not_rewritten_of_settled ?_)
      intro map' hmap'
      obtain rfl := Option.some.inj (hmap.symm.trans hmap')
      exact hpending
  | prepare map ordinal uuid huuid hordinal hpending hmap =>
      intro hepoch _
      have hepoch' : mapEpoch s.stored = epoch := by
        rcases hmap with hmap | ⟨hnone, hidentity⟩
        · rwa [hmap]
        · rw [hnone]
          exact hidentity.epoch.symm.trans hepoch
      refine hstays.here hepoch' (not_rewritten_of_settled ?_)
      intro map' hmap'
      rcases hmap with hmap | ⟨hnone, -⟩
      · obtain rfl := Option.some.inj (hmap.symm.trans hmap')
        exact hpending
      · rw [hnone] at hmap'
        cases hmap'
  | rewrite map p hmap hp hcount hordinal =>
      intro _ hrewritten
      refine absurd ⟨map, hmap, p, hp, ?_⟩ hrewritten
      change p.gameCount = (s.games.eraseIdx p.ordinal).length + 1
      rw [List.length_eraseIdx_of_lt hordinal]
      omega
  | settle uuid stored' leaves' huuid hsettles hleaves =>
      intro hepoch hrewritten
      rcases hsettles with rfl | ⟨map, p, -, -, -, rfl⟩ | ⟨map, p, hmap, hp, hcount, rfl⟩
      · exact hstays.here hepoch hrewritten
      · exact absurd hepoch (hstays.known.ne huuid)
      · refine hstays.here (by rwa [hmap]) ?_
        rintro ⟨map', hmap', p', hp', hcount'⟩
        obtain rfl := Option.some.inj (hmap.symm.trans hmap')
        obtain rfl := Option.some.inj (hp.symm.trans hp')
        omega
  | crash => exact hstays.here

/-! ## The place keeps its deck -/

/-- The deck number of a place in the map, whatever is pending. -/
def storedNumber (stored : Option FileDeckMap) (index : ℕ) : Option ℤ :=
  stored.elim (some (index : ℤ)) fun map ↦ map.number index

/-- The number is the one that was loaded, or that of a new deck where none was. -/
def KeptNumber (loaded : Option ℤ) (least : ℤ) (number : Option ℤ) : Prop :=
  number = loaded ∨ loaded = none ∧ ∃ n, number = some n ∧ least ≤ n

/-- Under the epoch, the place has the deck that was loaded or a new one. -/
structure Keeps (s : DeckSystem Game) (epoch : String) (index : ℕ) (loaded : Option ℤ)
    (least : ℤ) : Prop where
  known : s.Known epoch
  inFile : s.stored = none → index < s.games.length
  above : loaded = none → ∃ map, s.stored = some map ∧ least ≤ map.nextDeck
  kept : mapEpoch s.stored = epoch → KeptNumber loaded least (storedNumber s.stored index)

section

variable {loaded : Option ℤ} {least : ℤ}

/-- A step that writes another map in place of the one that is there. -/
theorem Keeps.rewriteMap {map map' : FileDeckMap} {leaves' : List ℤ} {phase : DeletePhase}
    {used : List String} (h : Keeps s epoch index loaded least) (hmap : s.stored = some map)
    (hused : s.used ⊆ used) (hnext : map.nextDeck ≤ map'.nextDeck)
    (hkept : map'.epoch = epoch →
      map.epoch = epoch ∧ (map'.number index = map.number index ∨
        map.number index = none ∧ map'.number index = some map.nextDeck)) :
    Keeps { s with stored := some map', leaves := leaves', phase := phase, used := used } epoch
      index loaded least where
  known := h.known.imp_right fun hmem ↦ hused hmem
  inFile hnone := by cases hnone
  above hloaded := by
    obtain ⟨map₁, hmap₁, hle⟩ := h.above hloaded
    obtain rfl := Option.some.inj (hmap.symm.trans hmap₁)
    exact ⟨map', rfl, hle.trans hnext⟩
  kept hepoch := by
    obtain ⟨hold, hnumber⟩ := hkept hepoch
    have hkeeps := h.kept (by rwa [hmap])
    rw [hmap] at hkeeps
    change KeptNumber loaded least (map'.number index)
    rcases hnumber with hnumber | ⟨hnone, hnumber⟩
    · rw [hnumber]
      exact hkeeps
    · have hloaded : loaded = none := by
        rcases hkeeps with hloaded | ⟨hloaded, -⟩
        · exact hloaded.symm.trans hnone
        · exact hloaded
      obtain ⟨map₁, hmap₁, hle⟩ := h.above hloaded
      obtain rfl := Option.some.inj (hmap.symm.trans hmap₁)
      exact Or.inr ⟨hloaded, _, hnumber, hle⟩

theorem keeps_freshMap {map : FileDeckMap} {p : PendingDelete} {phase : DeletePhase}
    {used : List String} (h : Keeps s epoch index loaded least) (hused : s.used ⊆ used)
    (hnone : s.stored = none) (hmap : IdentityMap env s.leaves s.games.length map) :
    Keeps { s with stored := some (map.withPending p), phase := phase, used := used } epoch
      index loaded least where
  known := h.known.imp_right fun hmem ↦ hused hmem
  inFile hstored := by cases hstored
  above hloaded := by
    obtain ⟨map₁, hmap₁, -⟩ := h.above hloaded
    rw [hnone] at hmap₁
    cases hmap₁
  kept hepoch := by
    have hold : mapEpoch s.stored = epoch := by
      rw [hnone]
      exact hmap.epoch.symm.trans hepoch
    have hnumber : map.number index = some (index : ℤ) := by
      rw [hmap.number, if_pos (h.inFile hnone)]
    have hkeeps := h.kept hold
    rw [hnone] at hkeeps
    change KeptNumber loaded least (map.number index)
    rw [hnumber]
    exact hkeeps

theorem keeps_of_effect (hkeeps : Keeps s epoch index loaded least) (h : Effect env s s') :
    Keeps s' epoch index loaded least := by
  cases h with
  | append game hphase hpending hnew =>
      refine ⟨hkeeps.known, fun hnone ↦ ?_, hkeeps.above, hkeeps.kept⟩
      have := hkeeps.inFile hnone
      rw [List.length_append]
      omega
  | write leaves' hleaves => exact ⟨hkeeps.known, hkeeps.inFile, hkeeps.above, hkeeps.kept⟩
  | create map index' leaves' hmap hpending hnone hleaves =>
      refine hkeeps.rewriteMap hmap (List.Subset.refl _) (Int.le_add_one le_rfl) fun hepoch ↦ ?_
      refine ⟨hepoch, ?_⟩
      rw [number_allocate]
      split_ifs with heq
      · subst heq
        exact Or.inr ⟨hnone, rfl⟩
      · exact Or.inl rfl
  | prepare map ordinal uuid huuid hordinal hpending hmap =>
      rcases hmap with hmap | ⟨hnone, hidentity⟩
      · exact hkeeps.rewriteMap hmap (List.subset_cons_self _ _) le_rfl
          fun hepoch ↦ ⟨hepoch, Or.inl rfl⟩
      · exact keeps_freshMap hkeeps (List.subset_cons_self _ _) hnone hidentity
  | rewrite map p hmap hp hcount hordinal =>
      refine ⟨hkeeps.known, fun hnone ↦ ?_, hkeeps.above, hkeeps.kept⟩
      rw [hmap] at hnone
      cases hnone
  | settle uuid stored' leaves' huuid hsettles hleaves =>
      rcases hsettles with rfl | ⟨map, p, hmap, -, -, rfl⟩ | ⟨map, p, hmap, -, -, rfl⟩
      · exact ⟨hkeeps.known.imp_right (List.mem_cons_of_mem _), hkeeps.inFile, hkeeps.above,
          hkeeps.kept⟩
      · exact hkeeps.rewriteMap hmap (List.subset_cons_self _ _) le_rfl
          fun hepoch ↦ absurd hepoch (hkeeps.known.ne huuid)
      · exact hkeeps.rewriteMap hmap (List.subset_cons_self _ _) le_rfl
          fun hepoch ↦ ⟨hepoch, Or.inl rfl⟩
  | crash => exact ⟨hkeeps.known, hkeeps.inFile, hkeeps.above, hkeeps.kept⟩

end

/-! ## Loads and writes -/

section

variable {ordinal : ℤ} {expectedEpoch : Option String} {create : Bool} {r : Resolved}

theorem DeckSystem.Access.settled (h : s.Access env ordinal expectedEpoch create r s') :
    ∀ map ∈ s'.stored, map.pending = none := by
  intro map' hmap'
  rw [h.stored_eq] at hmap'
  obtain ⟨-, -, -, -, ⟨-, hstored, -⟩ | ⟨map, hmap, -, -, hpending, hcases⟩⟩ :=
    withMappedDeck_eq_ok h.1
  · rw [hstored] at hmap'
    cases hmap'
  · rcases hcases with ⟨hstored, -⟩ | ⟨-, -, hstored, -⟩
    · obtain rfl := Option.some.inj ((hstored.trans hmap).symm.trans hmap')
      exact hpending
    · obtain rfl := Option.some.inj (hstored.symm.trans hmap')
      exact hpending

/-- The epoch that a command gets is the one that it leaves behind. -/
theorem DeckSystem.Access.epoch_eq (h : s.Access env ordinal expectedEpoch create r s') :
    r.epoch = mapEpoch s'.stored := by
  rw [h.stored_eq]
  obtain ⟨-, -, hepoch, -, ⟨hnone, hstored, -⟩ | ⟨map, hmap, -, -, -, hcases⟩⟩ :=
    withMappedDeck_eq_ok h.1
  · rw [hepoch, hnone, hstored]
  · rcases hcases with ⟨hstored, -⟩ | ⟨-, -, hstored, -⟩
    · rw [hepoch, hstored]
    · rw [hepoch, hmap, hstored]
      rfl

theorem number_of_settled (h : ∀ map ∈ s.stored, map.pending = none) (index : ℕ) :
    s.number index = storedNumber s.stored index := by
  rw [DeckSystem.number]
  cases hstored : s.stored with
  | none => rfl
  | some map => exact deckNumber_settled (h map hstored) _ _

theorem stays_of_load {g : Game} (hs' : s'.Inv env)
    (h : s.Access env ordinal expectedEpoch create r s') (hg : s.games[index]? = some g) :
    Stays s' r.epoch index g where
  known := h.epoch_eq ▸ known_mapEpoch hs'
  here _ _ := by rwa [h.games_eq]

theorem keeps_of_load {least : ℤ} (hs' : s'.Inv env)
    (h : s.Access env ordinal expectedEpoch create r s')
    (hfile : s.stored = none → ordinal.toNat < s.games.length)
    (hleast : ∀ map ∈ s.stored, least ≤ map.nextDeck) :
    Keeps s' r.epoch ordinal.toNat r.number least where
  known := h.epoch_eq ▸ known_mapEpoch hs'
  inFile hnone := by
    rw [h.games_eq]
    refine hfile ?_
    by_contra hsome
    have hnew : r.stored ≠ s.stored := by
      rw [← h.stored_eq, hnone]
      exact Ne.symm hsome
    obtain ⟨-, -, -, -, ⟨hstored, -⟩ | ⟨map, -, -, -, -, hcases⟩⟩ := withMappedDeck_eq_ok h.1
    · exact hsome hstored
    · rcases hcases with ⟨hstored, -⟩ | ⟨-, -, hstored, -⟩
      · exact hnew hstored
      · rw [← h.stored_eq, hnone] at hstored
        cases hstored
  above hloaded := by
    rw [h.stored_eq]
    obtain ⟨-, -, -, -, ⟨-, -, hnumber⟩ | ⟨map, hmap, -, -, -, hcases⟩⟩ :=
      withMappedDeck_eq_ok h.1
    · rw [hloaded] at hnumber
      cases hnumber
    · rcases hcases with ⟨hstored, -⟩ | ⟨-, -, -, hnumber, -⟩
      · exact ⟨map, hstored.trans hmap, hleast map hmap⟩
      · rw [hloaded] at hnumber
        cases hnumber
  kept _ := Or.inl ((number_of_settled h.settled _).symm.trans h.number_eq.symm)

end

/-- A write that presents the epoch of a load goes to the deck that was loaded,
or, if there was none, to one that was made since; it goes to no other game's
deck. -/
theorem write_lands_in_loaded_deck {s₁ s₂ s₃ : DeckSystem Game}
    (hs : (deckMachine env Game).Reachable s) {ordinal : ℤ} {expectedEpoch : Option String}
    {create create' : Bool} {r r' : Resolved}
    (hload : s.Access env ordinal expectedEpoch create r s₁)
    (hrun : (deckMachine env Game).Run s₁ s₂)
    (hwrite : s₂.Access env ordinal (some r.epoch) create' r' s₃) {deck : ℤ}
    (hdeck : r'.number = some deck) :
    ((s.stored = none → ordinal.toNat < s.games.length) →
        (∀ loaded ∈ r.number, deck = loaded) ∧
          (r.number = none → ∀ map ∈ s.stored, map.nextDeck ≤ deck)) ∧
      (∀ g, s.games[ordinal.toNat]? = some g → s₂.games[ordinal.toNat]? = some g) ∧
        ∀ index, s₃.number index = some deck → index = ordinal.toNat := by
  have hinvariant := deckMachine_invariant env Game
  have hs₁ : s₁.Inv env := hinvariant.step (hinvariant.reachable hs) trivial hload.step
  have hrun₃ : (deckMachine env Game).Run s₁ s₃ := hrun.step hwrite.step
  have hs₃ : s₃.Inv env := hinvariant.run hs₁ hrun₃
  have hepoch : mapEpoch s₃.stored = r.epoch := by
    obtain ⟨-, -, -, hexpected, -⟩ := withMappedDeck_eq_ok hwrite.1
    exact hwrite.epoch_eq.symm.trans (hexpected _ rfl).symm
  have hnumber : s₃.number ordinal.toNat = some deck := hwrite.number_eq.symm.trans hdeck
  have hstored : storedNumber s₃.stored ordinal.toNat = some deck :=
    (number_of_settled hwrite.settled _).symm.trans hnumber
  refine ⟨fun hfile ↦ ?_, fun g hg ↦ ?_, fun index hindex ↦ number_injective hs₃ hindex hnumber⟩
  · have hkept : ∀ least : ℤ, (∀ map ∈ s.stored, least ≤ map.nextDeck) →
        KeptNumber r.number least (some deck) := by
      intro least hleast
      have hkeeps := hinvariant.stable
        (fun hs hkeeps _ hstep ↦ keeps_of_effect hkeeps (effect_of_step hs hstep)) hs₁
        (keeps_of_load hs₁ hload hfile hleast) hrun₃
      rw [← hstored]
      exact hkeeps.kept hepoch
    refine ⟨fun loaded hloaded ↦ ?_, fun hnone map hmap ↦ ?_⟩
    · cases hstored : s.stored with
      | none =>
          rcases hkept 0 (by simp [hstored]) with heq | ⟨hnone, -⟩
          · exact Option.some.inj (heq.trans hloaded)
          · rw [hloaded] at hnone
            cases hnone
      | some map =>
          rcases hkept map.nextDeck (by simp [hstored]) with heq | ⟨hnone, -⟩
          · exact Option.some.inj (heq.trans hloaded)
          · rw [hloaded] at hnone
            cases hnone
    · have hleast : ∀ map' ∈ s.stored, map.nextDeck ≤ map'.nextDeck := by
        intro map' hmap'
        obtain rfl := Option.some.inj (hmap.symm.trans hmap')
        exact le_rfl
      rcases hkept map.nextDeck hleast with heq | ⟨-, number, heq, hle⟩
      · rw [hnone] at heq
        cases heq
      · obtain rfl := Option.some.inj heq
        exact hle
  · have hstays := hinvariant.stable
      (fun hs hstays _ hstep ↦ stays_of_effect hstays (effect_of_step hs hstep)) hs₁
      (stays_of_load hs₁ hload hg) hrun₃
    rw [← hwrite.games_eq]
    exact hstays.here hepoch (not_rewritten_of_settled hwrite.settled)

/-! ### A deletion that does not land -/

def identitiesKept : FileDeckMap := ⟨1, "file", noMapEpoch, [some 0, some 1], 2, false, none⟩

theorem run_identitiesKept :
    (deckMachine sampleEnv ℕ).Run afterLoad
      ⟨some identitiesKept, [1], [7, 8], [7, 8], .idle, [secondUuid, firstUuid]⟩ := by
  have hprepare : (deckMachine sampleEnv ℕ).step afterLoad (.prepare 0 firstUuid)
      ⟨some identitiesPending, [1], [7, 8], [7, 8], .prepared firstUuid 0, [firstUuid]⟩ :=
    ⟨rfl, by decide, ⟨by decide +kernel, by decide⟩, _, by decide +kernel, rfl⟩
  have hfinish : (deckMachine sampleEnv ℕ).step
      ⟨some identitiesPending, [1], [7, 8], [7, 8], .prepared firstUuid 0, [firstUuid]⟩
      (.finish secondUuid)
      ⟨some identitiesKept, [1], [7, 8], [7, 8], .idle, [secondUuid, firstUuid]⟩ :=
    ⟨⟨by decide, by decide⟩, firstUuid, false, _, none, _,
      Or.inl ⟨0, rfl, rfl⟩, by decide +kernel, Or.inl rfl, rfl⟩
  exact (Machine.Run.refl.step hprepare).step hfinish

theorem write_lands_in_loaded_deck_identitiesKept :
    ∃ r, withMappedDeck sampleEnv (some identitiesKept) 1 (some noMapEpoch) true = .ok r ∧
      ∃ deck, r.number = some deck ∧ ∀ loaded ∈ some (1 : ℤ), deck = loaded := by
  have hs : (deckMachine sampleEnv ℕ).Reachable beforeLoad :=
    ⟨beforeLoad, ⟨rfl, rfl, rfl, by decide, List.Subset.refl _⟩, Machine.Run.refl⟩
  have hload : beforeLoad.Access sampleEnv 1 none true ⟨none, some 1, noMapEpoch, false⟩
      afterLoad :=
    ⟨by decide, [1], Or.inr ⟨1, rfl, rfl⟩, rfl⟩
  have hwrite : withMappedDeck sampleEnv (some identitiesKept) 1 (some noMapEpoch) true =
      .ok ⟨some identitiesKept, some 1, noMapEpoch, false⟩ := by
    decide +kernel
  exact ⟨_, hwrite, 1, rfl, ((write_lands_in_loaded_deck hs hload run_identitiesKept
    ⟨hwrite, [1], Or.inl rfl, rfl⟩ rfl).1 fun _ ↦ by decide).1⟩

end EnCroissant
