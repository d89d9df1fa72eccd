import EnCroissant.Engine.Warm

/-!
# Runs of the reused engine

What the process believes about its engine is what the engine last received, after
every start, cancelled or not.  A start that reaches its `go` therefore leaves the
engine configured as a fresh process would be.
-/

namespace EnCroissant.Engine

open Faulty

/-! ## What was sent -/

section

variable {sent : List EngineWrite} {name written value : String}

@[simp] theorem lastOption_setOption :
    lastOption (sent ++ [.setOption written value]) name =
      if written = name then some value else lastOption sent name := by
  rw [lastOption, List.reverse_append]
  by_cases h : written = name <;> simp [EngineWrite.valueOf, lastOption, h]

@[simp] theorem lastOption_position {fen : String} {moves : List String} :
    lastOption (sent ++ [.position fen moves]) name = lastOption sent name := by
  rw [lastOption, List.reverse_append]
  rfl

@[simp] theorem lastPosition_setOption :
    lastPosition (sent ++ [.setOption written value]) = lastPosition sent := by
  rw [lastPosition, List.reverse_append]
  rfl

@[simp] theorem lastPosition_position {fen : String} {moves : List String} :
    lastPosition (sent ++ [.position fen moves]) = some (fen, moves) := by
  rw [lastPosition, List.reverse_append]
  rfl

end

/-! ## Leases -/

section

variable {launch : Launch} {authority : PathAuthority} {option option' : EngineOption}
  {resolved : ResolvedEngineOption}

theorem leaseOption_of_hasSameValue (h : option.hasSameValue option' = true) :
    leaseOption launch option = leaseOption launch option' := by
  have hname := EngineOption.name_of_hasSameValue h
  cases option with
  | string name value =>
      have heq : EngineOption.string name value = option' := by
        simpa [EngineOption.hasSameValue] using h
      rw [heq]
  | resource name resources =>
      cases option' with
      | string name' value' => simp [EngineOption.hasSameValue] at h
      | resource name' resources' =>
          cases hname
          rfl

theorem name_of_leaseOption (h : leaseOption launch option = .ok resolved) :
    resolved.name = option.name := by
  cases option with
  | string name value =>
      cases h
      rfl
  | resource name resources =>
      rw [leaseOption] at h
      cases hfind : launch.resolved.find? fun resolved ↦ resolved.name = name with
      | none =>
          rw [hfind] at h
          cases h
      | some found =>
          rw [hfind] at h
          cases h
          have hname := List.find?_some hfind
          rw [decide_eq_true_eq] at hname
          exact hname

/-- The launch leased the resources the option asks for. -/
def Leased (launch : Launch) (authority : PathAuthority) (option : EngineOption) : Prop :=
  ∃ resolved, leaseOption launch option = .ok resolved ∧
    resolveEngineOption authority option = .ok resolved

theorem Leased.of_hasSameValue (h : option.hasSameValue option' = true)
    (hleased : Leased launch authority option) : Leased launch authority option' := by
  obtain ⟨resolved, hlease, hresolve⟩ := hleased
  refine ⟨resolved, ?_, ?_⟩
  · rwa [← leaseOption_of_hasSameValue h]
  · rwa [← resolveEngineOption_of_hasSameValue h]

theorem Leased.string {name value : String}
    (h : (EngineOption.string name value).validate = .ok ()) :
    Leased launch authority (.string name value) := by
  refine ⟨⟨name, value, []⟩, rfl, ?_⟩
  rw [resolveEngineOption, h]
  rfl

theorem validate_chess960 (value : Bool) :
    (EngineOption.string "UCI_Chess960" (toString value)).validate = .ok () := by
  cases value <;> decide

end

/-! ## The belief -/

variable (R : EngineRules) (authority : PathAuthority) (launch : Launch)

/-- Where the process believes something about its engine, it is so. -/
structure Believes (options : EngineOptions) (sent : List EngineWrite) : Prop where
  leased : ∀ name option, lastNamed options.extraOptions name = some option →
    Leased launch authority option
  sent_option : ∀ name, name ≠ "UCI_Chess960" → ∀ option resolved,
    lastNamed options.extraOptions name = some option →
      leaseOption launch option = .ok resolved → lastOption sent name = some resolved.value
  restored : ∀ name, name ≠ "UCI_Chess960" → lastNamed options.extraOptions name = none →
    ∀ value, lastOption sent name = some value → launch.defaults name = some value
  chess960 : ∀ mode position, canonicalPosition R options.fen = .ok (mode, position) →
    (∀ previous, lastNamed options.extraOptions "UCI_Chess960" = some previous →
      previous.hasSameValue (chess960Option R mode) = true) →
    lastOption sent "UCI_Chess960" = some (toString (R.isChess960 mode))
  position : options.fen ≠ "" → ∃ canonical,
    canonicalizeEngineMoves R options.fen options.moves = .ok canonical ∧
      lastPosition sent = some (canonical.fen, canonical.moves)

/-- No belief about an option is left that the next search does not name. -/
def Dropped (next : List EngineOption) (options : EngineOptions) : Prop :=
  ∀ name, name ≠ "UCI_Chess960" → named next name = none →
    lastNamed options.extraOptions name = none

/-- The engine last heard of this castling mode. -/
def ToldMode (mode : R.CastlingMode) (sent : List EngineWrite) : Prop :=
  lastOption sent "UCI_Chess960" = some (toString (R.isChess960 mode))

/-- The engine last heard these values. -/
def Told (resolved : List ResolvedEngineOption) (sent : List EngineWrite) : Prop :=
  ∀ option ∈ resolved, option.name ≠ "UCI_Chess960" →
    lastOption sent option.name = some option.value

variable {R authority launch} {options : EngineOptions} {sent : List EngineWrite}

theorem believes_launched : Believes R authority launch EngineOptions.default [] where
  leased := fun name option h ↦ by cases h
  sent_option := fun name _ option resolved h ↦ by cases h
  restored := fun name _ _ value h ↦ by cases h
  chess960 := fun mode position h ↦ by
    have hempty : canonicalPosition R "" =
        .error (.invalidInput ("FEN" ++ " must not be empty")) := rfl
    rw [EngineOptions.default, hempty] at h
    cases h
  position := fun h ↦ absurd rfl h

theorem lastNamed_record (option : EngineOption) (options : List EngineOption) (name : String) :
    lastNamed ((options.filter fun previous ↦ previous.name ≠ option.name) ++ [option]) name =
      if option.name = name then some option else lastNamed options name := by
  rw [lastNamed_append]
  split_ifs with h
  · rfl
  · rw [lastNamed_filter, if_neg fun heq ↦ h heq.symm]

/-- A written option is believed. -/
theorem Believes.record (h : Believes R authority launch options sent) {option : EngineOption}
    {resolved : ResolvedEngineOption} (hname : option.name ≠ "UCI_Chess960")
    (hleased : Leased launch authority option)
    (hlease : leaseOption launch option = .ok resolved) :
    Believes R authority launch
      { options with
        extraOptions := (options.extraOptions.filter fun previous ↦
          previous.name ≠ option.name) ++ [option] }
      (sent ++ [.setOption option.name resolved.value]) where
  leased := fun name found hfound ↦ by
    rw [lastNamed_record] at hfound
    split_ifs at hfound with heq
    · cases hfound
      exact hleased
    · exact h.leased name found hfound
  sent_option := fun name hne found resolved' hfound hlease' ↦ by
    rw [lastNamed_record] at hfound
    rw [lastOption_setOption]
    split_ifs at hfound ⊢ with heq
    · cases hfound
      rw [hlease] at hlease'
      cases hlease'
      rfl
    · exact h.sent_option name hne found resolved' hfound hlease'
  restored := fun name hne hnone value hsent ↦ by
    rw [lastNamed_record] at hnone
    rw [lastOption_setOption] at hsent
    split_ifs at hnone hsent with heq
    exact h.restored name hne hnone value hsent
  chess960 := fun mode position hposition hprevious ↦ by
    rw [lastOption_setOption, if_neg hname]
    refine h.chess960 mode position hposition fun previous hlast ↦ hprevious previous ?_
    rw [lastNamed_record, if_neg hname]
    exact hlast
  position := fun hfen ↦ by
    rw [lastPosition_setOption]
    exact h.position hfen

theorem Believes.recordMode (h : Believes R authority launch options sent)
    (mode : R.CastlingMode) :
    Believes R authority launch
      { options with
        extraOptions := (options.extraOptions.filter fun previous ↦
          previous.name ≠ (chess960Option R mode).name) ++ [chess960Option R mode] }
      (sent ++ [.setOption "UCI_Chess960" (toString (R.isChess960 mode))]) where
  leased := fun name found hfound ↦ by
    rw [lastNamed_record] at hfound
    split_ifs at hfound with heq
    · cases hfound
      exact Leased.string (validate_chess960 _)
    · exact h.leased name found hfound
  sent_option := fun name hne found resolved hfound hlease ↦ by
    have hname : (chess960Option R mode).name ≠ name := fun heq ↦ hne heq.symm
    rw [lastNamed_record, if_neg hname] at hfound
    rw [lastOption_setOption, if_neg fun heq ↦ hne heq.symm]
    exact h.sent_option name hne found resolved hfound hlease
  restored := fun name hne hnone value hsent ↦ by
    have hname : (chess960Option R mode).name ≠ name := fun heq ↦ hne heq.symm
    rw [lastNamed_record, if_neg hname] at hnone
    rw [lastOption_setOption, if_neg fun heq ↦ hne heq.symm] at hsent
    exact h.restored name hne hnone value hsent
  chess960 := fun mode' position hposition hprevious ↦ by
    have hsame := hprevious (chess960Option R mode) ((lastNamed_record _ _ _).trans (if_pos rfl))
    have heq : chess960Option R mode = chess960Option R mode' := by
      simpa [EngineOption.hasSameValue, chess960Option] using hsame
    rw [lastOption_setOption, if_pos rfl]
    simpa [chess960Option] using heq
  position := fun hfen ↦ by
    rw [lastPosition_setOption]
    exact h.position hfen

/-- An option that went back to its default is forgotten. -/
theorem Believes.restore (h : Believes R authority launch options sent) {name value : String}
    (hname : name ≠ "UCI_Chess960") (hdefault : launch.defaults name = some value) :
    Believes R authority launch
      { options with
        extraOptions := options.extraOptions.filter fun previous ↦ previous.name ≠ name }
      (sent ++ [.setOption name value]) where
  leased := fun name' found hfound ↦ by
    rw [lastNamed_filter] at hfound
    split_ifs at hfound with heq
    exact h.leased name' found hfound
  sent_option := fun name' hne found resolved hfound hlease ↦ by
    rw [lastNamed_filter] at hfound
    split_ifs at hfound with heq
    rw [lastOption_setOption, if_neg fun heq' ↦ heq heq'.symm]
    exact h.sent_option name' hne found resolved hfound hlease
  restored := fun name' hne hnone value' hsent ↦ by
    rw [lastOption_setOption] at hsent
    split_ifs at hsent with heq
    · cases hsent
      rw [← heq, hdefault]
    · rw [lastNamed_filter, if_neg fun heq' ↦ heq heq'.symm] at hnone
      exact h.restored name' hne hnone value' hsent
  chess960 := fun mode position hposition hprevious ↦ by
    rw [lastOption_setOption, if_neg hname]
    refine h.chess960 mode position hposition fun previous hlast ↦ hprevious previous ?_
    rw [lastNamed_filter, if_neg fun heq ↦ hname heq.symm]
    exact hlast
  position := fun hfen ↦ by
    rw [lastPosition_setOption]
    exact h.position hfen

theorem canonicalPosition_of_ok {fen : String} {moves : List String}
    {canonical : CanonicalEnginePosition R}
    (h : canonicalizeEngineMoves R fen moves = .ok canonical) :
    ∃ position, canonicalPosition R fen = .ok (canonical.castlingMode, position) ∧
      canonical.fen = R.wireFen position := by
  rw [canonicalizeEngineMoves] at h
  cases hposition : canonicalPosition R fen with
  | error error =>
      rw [hposition] at h
      cases h
  | ok found =>
      obtain ⟨mode, position⟩ := found
      rw [hposition] at h
      cases hmoves : normalizeMoves R mode position moves with
      | error error =>
          simp only [bind, Except.bind, hmoves, Except.mapError] at h
          cases h
      | ok normalized =>
          simp only [bind, Except.bind, hmoves, Except.mapError] at h
          cases h
          exact ⟨position, rfl, rfl⟩

theorem fen_ne_empty {fen : String} {moves : List String}
    {canonical : CanonicalEnginePosition R}
    (h : canonicalizeEngineMoves R fen moves = .ok canonical) : fen ≠ "" := by
  rintro rfl
  obtain ⟨position, hposition, -⟩ := canonicalPosition_of_ok h
  have hempty : canonicalPosition R "" =
      .error (.invalidInput ("FEN" ++ " must not be empty")) := rfl
  rw [hempty] at hposition
  cases hposition

/-- A written position is believed, once its castling mode was told. -/
theorem Believes.place (h : Believes R authority launch options sent) {fen : String}
    {moves : List String} {canonical : CanonicalEnginePosition R}
    (hcanonical : canonicalizeEngineMoves R fen moves = .ok canonical)
    (htold : ToldMode R canonical.castlingMode sent) :
    Believes R authority launch { options with fen, moves }
      (sent ++ [.position canonical.fen canonical.moves]) where
  leased := h.leased
  sent_option := fun name hne found resolved hfound hlease ↦ by
    rw [lastOption_position]
    exact h.sent_option name hne found resolved hfound hlease
  restored := fun name hne hnone value hsent ↦ by
    rw [lastOption_position] at hsent
    exact h.restored name hne hnone value hsent
  chess960 := fun mode position hposition _ ↦ by
    obtain ⟨position', hposition', -⟩ := canonicalPosition_of_ok hcanonical
    have hmode : (mode, position) = (canonical.castlingMode, position') :=
      Except.ok.inj (hposition.symm.trans hposition')
    cases hmode
    rw [lastOption_position]
    exact htold
  position := fun _ ↦ ⟨canonical, hcanonical, lastPosition_position⟩

/-! ## The steps of a start -/

/-- A statement about the belief and the lines written. -/
def At (P : EngineOptions → List EngineWrite → Prop) (s : WarmEngine) : Prop :=
  P s.options s.sent

section

variable {faults : ℕ → Option Error} {P Q F : EngineOptions → List EngineWrite → Prop}

theorem spec_checkpoint (hF : ∀ options sent, P options sent → F options sent) :
    Spec (At P) (checkpoint faults) (fun _ ↦ At P) (At F) := by
  intro s hs
  have hrun : checkpoint faults s =
      ((faults s.checkpoints).elim (.ok .unit) .error,
        { s with checkpoints := s.checkpoints + 1 }) := by
    rw [checkpoint]
    cases hfault : faults s.checkpoints <;>
      simp only [bind, Faulty.get, Faulty.modify, hfault, Faulty.fail, pure, Option.elim]
  rw [hrun]
  cases faults s.checkpoints with
  | none =>
      refine ⟨fun a s' h ↦ ?_, fun e s' h ↦ ?_⟩
      · cases h
        exact hs
      · cases (Prod.mk.inj h).1
  | some error =>
      refine ⟨fun a s' h ↦ ?_, fun e s' h ↦ ?_⟩
      · cases (Prod.mk.inj h).1
      · cases h
        exact hF _ _ hs

theorem spec_ofExcept {α : Type} {x : Except Error α}
    {Q : α → EngineOptions → List EngineWrite → Prop}
    (hQ : ∀ a, x = .ok a → ∀ options sent, P options sent → Q a options sent)
    (hF : ∀ options sent, P options sent → F options sent) :
    Spec (At P) (ofExcept x) (fun a ↦ At (Q a)) (At F) :=
  Spec.ofExcept (fun a _ h hs ↦ hQ a h _ _ hs) fun _ hs ↦ hF _ _ hs

/-- An option is written and recorded, or neither. -/
theorem spec_setOption {name value : String} {f : WarmEngine → WarmEngine}
    (hQ : ∀ s, At P s → At Q (f (s.write (.setOption name value))))
    (hF : ∀ options sent, P options sent → F options sent) :
    Spec (At P)
      (do
        setOption faults name value
        modify f)
      (fun _ ↦ At Q) (At F) := by
  refine Spec.bind (Q := fun _ s ↦ At Q (f s)) ?_ fun _ ↦ Spec.modify fun _ hs ↦ hs
  rw [setOption]
  refine Spec.bind (spec_ofExcept (Q := fun _ ↦ P) (fun _ _ _ _ hs ↦ hs) hF) fun _ ↦ ?_
  refine Spec.bind (spec_ofExcept (Q := fun _ ↦ P) (fun _ _ _ _ hs ↦ hs) hF) fun _ ↦ ?_
  exact Spec.bind (spec_checkpoint hF) fun _ ↦ Spec.modify hQ

end

section

variable {faults : ℕ → Option Error} {next : List EngineOption}

/-- The belief while the options of `done` were looked at. -/
structure Restoring (R : EngineRules) (authority : PathAuthority) (launch : Launch)
    (next previous done : List EngineOption) (options : EngineOptions)
    (sent : List EngineWrite) : Prop where
  believes : Believes R authority launch options sent
  listed : ∀ name option, lastNamed options.extraOptions name = some option →
    ∃ option ∈ previous, option.name = name
  gone : ∀ option ∈ done, option.name ≠ "UCI_Chess960" → named next option.name = none →
    lastNamed options.extraOptions option.name = none

theorem Restoring.skip {previous done : List EngineOption} {option : EngineOption}
    (h : Restoring R authority launch next previous done options sent)
    (hskip : option.name = "UCI_Chess960" ∨ named next option.name ≠ none) :
    Restoring R authority launch next previous (done ++ [option]) options sent where
  believes := h.believes
  listed := h.listed
  gone := fun other hmem hne hnone ↦ by
    rcases List.mem_append.mp hmem with hdone | hlast
    · exact h.gone other hdone hne hnone
    · rw [List.mem_singleton.mp hlast] at hne hnone
      rcases hskip with hname | hnamed
      · exact absurd hname hne
      · exact absurd hnone hnamed

theorem Restoring.forget {previous done : List EngineOption} {option : EngineOption}
    {value : String} (h : Restoring R authority launch next previous done options sent)
    (hname : option.name ≠ "UCI_Chess960") (hdefault : launch.defaults option.name = some value) :
    Restoring R authority launch next previous (done ++ [option])
      { options with
        extraOptions := options.extraOptions.filter fun previous ↦ previous.name ≠ option.name }
      (sent ++ [.setOption option.name value]) where
  believes := h.believes.restore hname hdefault
  listed := fun name found hfound ↦ by
    rw [lastNamed_filter] at hfound
    split_ifs at hfound with heq
    exact h.listed name found hfound
  gone := fun other hmem hne hnone ↦ by
    rw [lastNamed_filter]
    split_ifs with heq
    · rfl
    · rcases List.mem_append.mp hmem with hdone | hlast
      · exact h.gone other hdone hne hnone
      · exact absurd (congrArg EngineOption.name (List.mem_singleton.mp hlast)) heq

theorem spec_restoreDefault {previous done : List EngineOption} (option : EngineOption) :
    Spec (At (Restoring R authority launch next previous done))
      (restoreDefault launch faults next option)
      (fun _ ↦ At (Restoring R authority launch next previous (done ++ [option])))
      (At (Believes R authority launch)) := by
  rw [restoreDefault]
  refine Spec.bind (spec_checkpoint fun _ _ h ↦ h.believes) fun _ ↦ ?_
  refine Spec.ite (fun hname ↦ Spec.pure fun _ hs ↦ hs.skip (.inl hname)) fun hname ↦ ?_
  refine Spec.ite (fun hany ↦ Spec.pure fun _ hs ↦ hs.skip (.inr ?_)) fun hany ↦ ?_
  · intro hnone
    obtain ⟨other, hmem, hother⟩ := List.mem_map.mp (any_name_iff.mp hany)
    exact named_eq_none.mp hnone other hmem hother
  · cases hdefault : launch.defaults option.name with
    | none => exact Spec.fail fun _ hs ↦ hs.believes
    | some value =>
        exact spec_setOption (fun s hs ↦ Restoring.forget hs hname hdefault)
          fun _ _ h ↦ h.believes

theorem Restoring.dropped {previous : List EngineOption}
    (h : Restoring R authority launch next previous previous options sent) :
    Dropped next options := by
  intro name hname hnone
  cases hlast : lastNamed options.extraOptions name with
  | none => rfl
  | some option =>
      obtain ⟨other, hmem, rfl⟩ := h.listed name option hlast
      cases (h.gone other hmem hname hnone).symm.trans hlast

/-- The belief while the options of the next search are written. -/
structure Configuring (R : EngineRules) (authority : PathAuthority) (launch : Launch)
    (next : List EngineOption) (fen : String) (options : EngineOptions)
    (sent : List EngineWrite) : Prop where
  believes : Believes R authority launch options sent
  dropped : Dropped next options
  fen : options.fen = fen

theorem spec_setChess960 {fen : String} {mode : R.CastlingMode} {position : R.Chess}
    {newFen : String} (hposition : canonicalPosition R newFen = .ok (mode, position)) :
    Spec (At (Configuring R authority launch next fen))
      (setChess960 R faults (newFen ≠ fen) mode)
      (fun _ ↦ At fun options sent ↦
        Configuring R authority launch next fen options sent ∧ ToldMode R mode sent)
      (At (Believes R authority launch)) := by
  rw [setChess960]
  refine Spec.bind (Spec.get (Q := fun a s ↦ At (Configuring R authority launch next fen) s ∧
    s.options = a.options) fun _ hs ↦ ⟨hs, rfl⟩) fun a ↦ ?_
  refine Spec.ite (fun _ ↦ ?_) fun hsame ↦ Spec.pure fun s hs ↦ ?_
  · refine (spec_setOption (P := Configuring R authority launch next fen) (fun s hs ↦ ?_)
      fun _ _ h ↦ h.believes).weaken (fun _ hs ↦ hs.1) (fun _ _ h ↦ h) fun _ h ↦ h
    refine ⟨⟨hs.believes.recordMode mode, fun name hne hnone ↦ ?_, hs.fen⟩, ?_⟩
    · have hname : (chess960Option R mode).name ≠ name := fun heq ↦ hne heq.symm
      exact (lastNamed_record _ _ _).trans ((if_neg hname).trans (hs.dropped name hne hnone))
    · exact lastOption_setOption.trans (if_pos rfl)
  · obtain ⟨hs, hoptions⟩ := hs
    rw [Bool.or_eq_true, not_or, decide_eq_true_eq, not_not, Bool.not_eq_true] at hsame
    refine ⟨hs, hs.believes.chess960 mode position ?_ fun previous hlast ↦ ?_⟩
    · rw [hs.fen, ← hsame.1]
      exact hposition
    · rw [hoptions] at hlast
      have hnot := hsame.2
      rw [hlast] at hnot
      simpa using hnot

/-- The belief while the resolved options are written: `done` is. -/
structure Sending (R : EngineRules) (authority : PathAuthority) (launch : Launch)
    (next : List EngineOption) (fen : String) (mode : R.CastlingMode)
    (done : List ResolvedEngineOption) (options : EngineOptions)
    (sent : List EngineWrite) : Prop
    extends Configuring R authority launch next fen options sent where
  toldMode : ToldMode R mode sent
  told : Told done sent

variable {fen : String} {mode : R.CastlingMode} {done : List ResolvedEngineOption}
  {resolved : ResolvedEngineOption} {current : EngineOption}

theorem Told.append (h : Told done sent)
    (hlast : resolved.name ≠ "UCI_Chess960" →
      lastOption sent resolved.name = some resolved.value) :
    Told (done ++ [resolved]) sent := by
  intro option hmem hne
  rcases List.mem_append.mp hmem with hdone | hnew
  · exact h option hdone hne
  · rw [List.mem_singleton.mp hnew] at hne ⊢
    exact hlast hne

/-- The belief already has the value. -/
theorem Sending.skip (h : Sending R authority launch next fen mode done options sent)
    (hlease : leaseOption launch current = .ok resolved)
    (hskip : resolved.name = "UCI_Chess960" ∨ ∃ previous,
      lastNamed options.extraOptions resolved.name = some previous ∧
        current.hasSameValue previous = true) :
    Sending R authority launch next fen mode (done ++ [resolved]) options sent where
  toConfiguring := h.toConfiguring
  toldMode := h.toldMode
  told := h.told.append fun hne ↦ by
    rcases hskip with heq | ⟨previous, hlast, hsame⟩
    · exact absurd heq hne
    · rw [leaseOption_of_hasSameValue hsame] at hlease
      exact h.believes.sent_option _ hne previous resolved hlast hlease

theorem Sending.send (h : Sending R authority launch next fen mode done options sent)
    (hcurrent : named next resolved.name = some current)
    (hleased : Leased launch authority current)
    (hlease : leaseOption launch current = .ok resolved)
    (hdone : ∀ option ∈ done, option.name = resolved.name → option = resolved)
    (hne : resolved.name ≠ "UCI_Chess960") :
    Sending R authority launch next fen mode (done ++ [resolved])
      { options with
        extraOptions := (options.extraOptions.filter fun previous ↦
          previous.name ≠ current.name) ++ [current] }
      (sent ++ [.setOption resolved.name resolved.value]) where
  believes := by
    have hname := name_of_named hcurrent
    have hrecord := h.believes.record (hname ▸ hne) hleased hlease
    rwa [hname] at hrecord ⊢
  dropped := fun name hname hnone ↦ by
    rw [lastNamed_record]
    split_ifs with heq
    · rw [← heq, name_of_named hcurrent, hcurrent] at hnone
      cases hnone
    · exact h.dropped name hname hnone
  fen := h.fen
  toldMode := by
    rw [ToldMode, lastOption_setOption, if_neg hne]
    exact h.toldMode
  told := by
    refine Told.append (fun option hmem hname ↦ ?_) fun _ ↦ ?_
    · rw [lastOption_setOption]
      split_ifs with heq
      · rw [hdone option hmem heq.symm]
      · exact h.told option hmem hname
    · rw [lastOption_setOption, if_pos rfl]

theorem spec_sendOption (hcurrent : named next resolved.name = some current)
    (hleased : Leased launch authority current)
    (hlease : leaseOption launch current = .ok resolved)
    (hdone : ∀ option ∈ done, option.name = resolved.name → option = resolved) :
    Spec (At (Sending R authority launch next fen mode done))
      (sendOption faults next resolved)
      (fun _ ↦ At (Sending R authority launch next fen mode (done ++ [resolved])))
      (At (Believes R authority launch)) := by
  rw [sendOption]
  refine Spec.bind (spec_checkpoint fun _ _ h ↦ h.believes) fun _ ↦ ?_
  refine Spec.bind (Spec.get (Q := fun a s ↦ At (Sending R authority launch next fen mode done) s ∧
    s.options = a.options) fun _ hs ↦ ⟨hs, rfl⟩) fun a ↦ ?_
  rw [hcurrent]
  refine Spec.ite (fun hsend ↦ ?_) fun hskip ↦ Spec.pure fun s hs ↦ ?_
  · rw [Bool.and_eq_true, decide_eq_true_eq] at hsend
    refine (spec_setOption (P := Sending R authority launch next fen mode done) (fun s hs ↦ ?_)
      fun _ _ h ↦ h.believes).weaken (fun _ hs ↦ hs.1) (fun _ _ h ↦ h) fun _ h ↦ h
    exact Sending.send hs hcurrent hleased hlease hdone hsend.2
  · obtain ⟨hs, hoptions⟩ := hs
    rw [Bool.and_eq_true, decide_eq_true_eq, not_and, not_not] at hskip
    refine hs.skip hlease ?_
    cases hlast : lastNamed a.options.extraOptions resolved.name with
    | none =>
        rw [hlast] at hskip
        exact .inl (hskip rfl)
    | some previous =>
        rw [hlast] at hskip
        by_cases hsame : current.hasSameValue previous = true
        · exact .inr ⟨previous, hoptions ▸ hlast, hsame⟩
        · exact .inl (hskip (by simpa using hsame))

/-- The belief once the position is the requested one. -/
structure Placed (R : EngineRules) (authority : PathAuthority) (launch : Launch)
    (next : List EngineOption) (fen : String) (moves : List String) (mode : R.CastlingMode)
    (done : List ResolvedEngineOption) (options : EngineOptions)
    (sent : List EngineWrite) : Prop
    extends Sending R authority launch next fen mode done options sent where
  moves : options.moves = moves

theorem spec_updatePosition {request : EngineOptions} {canonical : CanonicalEnginePosition R}
    (hcanonical : canonicalizeEngineMoves R request.fen request.moves = .ok canonical) :
    Spec (At (Sending R authority launch next fen canonical.castlingMode done))
      (updatePosition R faults (request.fen ≠ fen) request)
      (fun _ ↦ At (Placed R authority launch next request.fen request.moves
        canonical.castlingMode done))
      (At (Believes R authority launch)) := by
  rw [updatePosition]
  refine Spec.bind (spec_checkpoint fun _ _ h ↦ h.believes) fun _ ↦ ?_
  refine Spec.bind (Spec.get (Q := fun a s ↦
    At (Sending R authority launch next fen canonical.castlingMode done) s ∧
      s.options = a.options) fun _ hs ↦ ⟨hs, rfl⟩) fun a ↦ ?_
  refine Spec.ite (fun _ ↦ ?_) fun hsame ↦ Spec.pure fun s hs ↦ ?_
  · rw [setPosition]
    refine Spec.weaken (P := At (Sending R authority launch next fen canonical.castlingMode done))
      ?_ (fun _ hs ↦ hs.1) (fun _ _ h ↦ h) fun _ h ↦ h
    refine Spec.bind (spec_ofExcept
      (Q := fun found options sent ↦ found = canonical ∧
        Sending R authority launch next fen canonical.castlingMode done options sent)
      (fun found hfound _ _ hs ↦ ⟨Except.ok.inj (hfound.symm.trans hcanonical), hs⟩)
      fun _ _ h ↦ h.believes) fun found ↦ ?_
    refine Spec.bind (spec_checkpoint fun _ _ h ↦ h.2.believes) fun _ ↦ ?_
    refine Spec.bind (Q := fun _ s ↦ At (Placed R authority launch next request.fen request.moves
      canonical.castlingMode done) (s.recordPosition request.fen request.moves))
      (Spec.modify fun s hs ↦ ?_) fun _ ↦ Spec.modify fun _ hs ↦ hs
    obtain ⟨rfl, hs⟩ := hs
    refine ⟨⟨⟨hs.believes.place hcanonical hs.toldMode, hs.dropped, rfl⟩, ?_, ?_⟩, rfl⟩
    · exact lastOption_position.trans hs.toldMode
    · exact fun option hmem hne ↦ lastOption_position.trans (hs.told option hmem hne)
  · obtain ⟨hs, hoptions⟩ := hs
    rw [Bool.or_eq_true, not_or, decide_eq_true_eq, not_not, decide_eq_true_eq, not_not] at hsame
    exact ⟨⟨⟨hs.believes, hs.dropped, hs.fen.trans hsame.1.symm⟩, hs.toldMode, hs.told⟩,
      hoptions ▸ hsame.2.symm⟩

end

/-! ## Whole starts -/

theorem forall₂_of_mapM {α β : Type} {f : α → Except Error β} {l : List α} :
    ∀ {out : List β}, l.mapM f = .ok out → List.Forall₂ (fun a b ↦ f a = .ok b) l out := by
  induction l with
  | nil =>
      intro out h
      rw [List.mapM_nil] at h
      cases h
      exact .nil
  | cons a l ih =>
      intro out h
      rw [List.mapM_cons] at h
      obtain ⟨b, hb, hrest⟩ := bind_eq_ok h
      obtain ⟨bs, hbs, hout⟩ := bind_eq_ok hrest
      cases hout
      exact .cons hb (ih hbs)

theorem exists_right {α β : Type} {r : α → β → Prop} {l : List α} {out : List β}
    (h : List.Forall₂ r l out) {a : α} (ha : a ∈ l) : ∃ b ∈ out, r a b := by
  obtain ⟨i, hi, rfl⟩ := List.getElem_of_mem ha
  have hi' : i < out.length := h.length_eq ▸ hi
  exact ⟨out[i], List.getElem_mem hi', List.Forall₂.get h hi hi'⟩

theorem exists_left {α β : Type} {r : α → β → Prop} {l : List α} {out : List β}
    (h : List.Forall₂ r l out) {b : β} (hb : b ∈ out) : ∃ a ∈ l, r a b :=
  exists_right h.flip hb

/-- Where the engine stands when `go` is sent. -/
structure Configured (R : EngineRules) (authority : PathAuthority) (launch : Launch)
    (options : EngineOptions) (sent : List EngineWrite) : Prop where
  requested : ∀ option ∈ effectiveEngineOptions options.extraOptions,
    option.name ≠ "UCI_Chess960" → ∃ resolved,
      resolveEngineOption authority option = .ok resolved ∧
        lastOption sent option.name = some resolved.value
  restored : ∀ name, name ≠ "UCI_Chess960" → lastNamed options.extraOptions name = none →
    ∀ value, lastOption sent name = some value → launch.defaults name = some value
  position : ∃ canonical, canonicalizeEngineMoves R options.fen options.moves = .ok canonical ∧
    lastOption sent "UCI_Chess960" = some (toString (R.isChess960 canonical.castlingMode)) ∧
      lastPosition sent = some (canonical.fen, canonical.moves)

section

variable {faults : ℕ → Option Error} {request : EngineOptions}
  {resolved : List ResolvedEngineOption}

/-- The resolved options are those of the request, in its order. -/
structure Resolves (launch : Launch) (authority : PathAuthority) (next : List EngineOption)
    (resolved : List ResolvedEngineOption) : Prop where
  unique : UniqueNames next
  leased : ∀ option ∈ next, Leased launch authority option
  pairs : List.Forall₂ (fun option out ↦ leaseOption launch option = .ok out) next resolved

theorem Resolves.option_of_mem {next : List EngineOption}
    (h : Resolves launch authority next resolved) {out : ResolvedEngineOption}
    (hmem : out ∈ resolved) :
    ∃ option ∈ next, leaseOption launch option = .ok out :=
  exists_left h.pairs hmem

theorem Resolves.eq_of_name {next : List EngineOption}
    (h : Resolves launch authority next resolved) {out out' : ResolvedEngineOption}
    (hmem : out ∈ resolved) (hmem' : out' ∈ resolved) (hname : out.name = out'.name) :
    out = out' := by
  obtain ⟨option, hoption, hlease⟩ := h.option_of_mem hmem
  obtain ⟨option', hoption', hlease'⟩ := h.option_of_mem hmem'
  have hnames : option.name = option'.name := by
    rw [← name_of_leaseOption hlease, hname, name_of_leaseOption hlease']
  cases List.inj_on_of_nodup_map h.unique hoption hoption' hnames
  exact Except.ok.inj (hlease.symm.trans hlease')

theorem Placed.configured
    {canonical : CanonicalEnginePosition R}
    (hresolves : Resolves launch authority (effectiveEngineOptions request.extraOptions) resolved)
    (hcanonical : canonicalizeEngineMoves R request.fen request.moves = .ok canonical)
    (h : Placed R authority launch (effectiveEngineOptions request.extraOptions) request.fen
      request.moves canonical.castlingMode resolved options sent) :
    Believes R authority launch request sent ∧ Configured R authority launch request sent := by
  have hlease : ∀ option ∈ effectiveEngineOptions request.extraOptions,
      option.name ≠ "UCI_Chess960" → ∀ out, leaseOption launch option = .ok out →
        lastOption sent option.name = some out.value := by
    intro option hmem hne out hout
    obtain ⟨found, hfound, hlease⟩ := exists_right hresolves.pairs hmem
    cases Except.ok.inj (hout.symm.trans hlease)
    have hname := name_of_leaseOption hout
    rw [← hname] at hne ⊢
    exact h.told out hfound hne
  have hplaced : lastPosition sent = some (canonical.fen, canonical.moves) := by
    have hfen : options.fen ≠ "" := h.fen ▸ fen_ne_empty hcanonical
    obtain ⟨found, hfound, hlast⟩ := h.believes.position hfen
    rw [h.fen, h.moves, hcanonical] at hfound
    cases hfound
    exact hlast
  have hrestored : ∀ name, name ≠ "UCI_Chess960" →
      lastNamed request.extraOptions name = none → ∀ value, lastOption sent name = some value →
        launch.defaults name = some value := by
    intro name hne hnone value hsent
    rw [← named_effective] at hnone
    exact h.believes.restored name hne (h.dropped name hne hnone) value hsent
  refine ⟨⟨fun name option hlast ↦ ?_, fun name hne option out hlast hout ↦ ?_, hrestored,
    fun mode position hposition _ ↦ ?_, fun _ ↦ ⟨canonical, hcanonical, hplaced⟩⟩,
    ⟨fun option hmem hne ↦ ?_, hrestored, canonical, hcanonical, h.toldMode, hplaced⟩⟩
  · rw [← named_effective] at hlast
    exact hresolves.leased option (mem_of_named hlast)
  · rw [← named_effective] at hlast
    have hname := name_of_named hlast
    subst hname
    exact hlease option (mem_of_named hlast) hne out hout
  · obtain ⟨position', hposition', -⟩ := canonicalPosition_of_ok hcanonical
    have hmode : (mode, position) = (canonical.castlingMode, position') :=
      Except.ok.inj (hposition.symm.trans hposition')
    cases hmode
    exact h.toldMode
  · obtain ⟨out, hout, hresolve⟩ := hresolves.leased option hmem
    exact ⟨out, hresolve, hlease option hmem hne out hout⟩

theorem spec_setOptionsInner
    (hresolves : Resolves launch authority (effectiveEngineOptions request.extraOptions) resolved) :
    Spec
      (At fun options sent ↦ Believes R authority launch options sent ∧
        Dropped (effectiveEngineOptions request.extraOptions) options)
      (setOptionsInner R faults request resolved)
      (fun _ s ↦ At (Believes R authority launch) s ∧
        Configured R authority launch request s.sent)
      (At (Believes R authority launch)) := by
  rw [setOptionsInner]
  refine Spec.bind (spec_checkpoint fun _ _ h ↦ h.1) fun _ ↦ ?_
  refine Spec.bind (spec_ofExcept
    (Q := fun canonical options sent ↦
      canonicalizeEngineMoves R request.fen request.moves = .ok canonical ∧
        Believes R authority launch options sent ∧
          Dropped (effectiveEngineOptions request.extraOptions) options)
    (fun canonical h _ _ hs ↦ ⟨h, hs⟩) fun _ _ h ↦ h.1) fun canonical ↦ ?_
  refine Spec.ite (fun _ ↦ Spec.fail fun _ hs ↦ hs.2.1) fun _ ↦ ?_
  refine Spec.bind (spec_checkpoint fun _ _ h ↦ h.2.1) fun _ ↦ ?_
  refine Spec.bind (spec_checkpoint fun _ _ h ↦ h.2.1) fun _ ↦ ?_
  refine Spec.bind (Spec.get (Q := fun a s ↦
    canonicalizeEngineMoves R request.fen request.moves = .ok canonical ∧
      At (Configuring R authority launch (effectiveEngineOptions request.extraOptions)
        a.options.fen) s) fun s hs ↦ ⟨hs.1, hs.2.1, hs.2.2, rfl⟩) fun a ↦ ?_
  by_cases hcanonical : canonicalizeEngineMoves R request.fen request.moves = .ok canonical
  · obtain ⟨position, hposition, -⟩ := canonicalPosition_of_ok hcanonical
    refine Spec.weaken ?_ (fun _ hs ↦ hs.2) (fun _ _ h ↦ h) fun _ h ↦ h
    refine Spec.bind (spec_setChess960 hposition) fun _ ↦ ?_
    refine Spec.bind (spec_ofExcept
      (Q := fun _ ↦ Sending R authority launch (effectiveEngineOptions request.extraOptions)
        a.options.fen canonical.castlingMode [])
      (fun _ _ _ _ hs ↦ ⟨hs.1, hs.2, fun _ hmem ↦ absurd hmem List.not_mem_nil⟩)
      fun _ _ h ↦ h.1.believes) fun _ ↦ ?_
    refine Spec.bind (Spec.each (I := fun done ↦ At (Sending R authority launch
      (effectiveEngineOptions request.extraOptions) a.options.fen canonical.castlingMode done))
      fun done out rest hsplit ↦ ?_) fun _ ↦ ?_
    · have hmem : out ∈ resolved := by
        rw [hsplit]
        exact List.mem_append_right _ List.mem_cons_self
      obtain ⟨option, hoption, hlease⟩ := hresolves.option_of_mem hmem
      have hcurrent : named (effectiveEngineOptions request.extraOptions) out.name =
          some option := by
        rw [name_of_leaseOption hlease]
        exact hresolves.unique.named_of_mem hoption
      refine spec_sendOption hcurrent (hresolves.leased option hoption) hlease ?_
      · intro other hother hname
        refine hresolves.eq_of_name ?_ hmem hname
        rw [hsplit]
        exact List.mem_append_left _ hother
    · refine Spec.bind (spec_updatePosition hcanonical) fun _ ↦ ?_
      refine Spec.bind (spec_checkpoint fun _ _ h ↦ h.believes) fun _ ↦ ?_
      refine Spec.bind (spec_checkpoint fun _ _ h ↦ h.believes) fun _ ↦ ?_
      refine Spec.bind (spec_checkpoint fun _ _ h ↦ h.believes) fun _ ↦ ?_
      exact Spec.modify fun s hs ↦ Placed.configured hresolves hcanonical hs
  · intro s hs
    exact absurd hs.1 hcanonical

/-- The resources a request asks for are those of the launch. -/
def Served (launch : Launch) (authority : PathAuthority) (request : EngineOptions) : Prop :=
  ∀ option ∈ effectiveEngineOptions request.extraOptions, option.validate = .ok () →
    Leased launch authority option

/-- The belief while the options of the request are checked. -/
structure Checked (R : EngineRules) (authority : PathAuthority) (launch : Launch)
    (done : List EngineOption) (options : EngineOptions) (sent : List EngineWrite) : Prop where
  valid : ∀ option ∈ done, option.validate = .ok ()
  believes : Believes R authority launch options sent

theorem spec_validate (done : List EngineOption) (option : EngineOption) :
    Spec (At (Checked R authority launch done)) (ofExcept option.validate)
      (fun _ ↦ At (Checked R authority launch (done ++ [option])))
      (At (Believes R authority launch)) := by
  refine spec_ofExcept (fun _ hvalid _ _ hs ↦ ⟨fun other hother ↦ ?_, hs.believes⟩)
    fun _ _ h ↦ h.believes
  rcases List.mem_append.mp hother with hdone | hlast
  · exact hs.valid other hdone
  · rw [List.mem_singleton.mp hlast]
    exact hvalid

theorem spec_start (hserved : Served launch authority request) :
    Spec (At (Believes R authority launch)) (start R launch faults request)
      (fun _ s ↦ At (Believes R authority launch) s ∧
        Configured R authority launch request s.sent)
      (At (Believes R authority launch)) := by
  rw [start]
  refine Spec.bind (spec_checkpoint fun _ _ h ↦ h) fun _ ↦ ?_
  refine Spec.bind (Spec.weaken (Spec.each (I := fun done ↦ At (Checked R authority launch done))
    fun done option rest _ ↦ spec_validate done option)
    (fun s hs ↦ ⟨fun _ hmem ↦ absurd hmem List.not_mem_nil, hs⟩) (fun _ _ h ↦ h)
    fun _ h ↦ h) fun _ ↦ ?_
  refine Spec.bind (Spec.get (Q := fun a s ↦ At (Checked R authority launch
    (effectiveEngineOptions request.extraOptions)) s ∧ s.options = a.options)
    fun _ hs ↦ ⟨hs, rfl⟩) fun a ↦ ?_
  by_cases hvalid : ∀ option ∈ effectiveEngineOptions request.extraOptions,
      option.validate = .ok ()
  · have hleased := fun option hmem ↦ hserved option hmem (hvalid option hmem)
    refine Spec.bind (Spec.weaken (Spec.each (I := fun done ↦ At (Restoring R authority launch
      (effectiveEngineOptions request.extraOptions)
      (effectiveEngineOptions a.options.extraOptions) done))
      fun done option rest _ ↦ spec_restoreDefault option)
      (fun s hs ↦ ⟨hs.1.believes, fun name option hlast ↦ ?_,
        fun _ hmem ↦ absurd hmem List.not_mem_nil⟩) (fun _ _ h ↦ h) fun _ h ↦ h) fun _ ↦ ?_
    · rw [hs.2, ← named_effective] at hlast
      exact ⟨option, mem_of_named hlast, name_of_named hlast⟩
    · refine Spec.bind (spec_ofExcept
        (Q := fun resolved options sent ↦
          Resolves launch authority (effectiveEngineOptions request.extraOptions) resolved ∧
            Believes R authority launch options sent ∧
              Dropped (effectiveEngineOptions request.extraOptions) options)
        (fun resolved hresolved _ _ hs ↦ ⟨⟨uniqueNames_effective _, hleased,
          forall₂_of_mapM hresolved⟩, hs.believes, hs.dropped⟩)
        fun _ _ h ↦ h.believes) fun resolved ↦ ?_
      by_cases hresolves : Resolves launch authority
          (effectiveEngineOptions request.extraOptions) resolved
      · refine Spec.bind (Spec.weaken (spec_setOptionsInner hresolves) (fun _ hs ↦ hs.2)
          (fun _ _ h ↦ h) fun _ h ↦ h) fun _ ↦ ?_
        exact spec_checkpoint (P := fun options sent ↦ Believes R authority launch options sent ∧
          Configured R authority launch request sent) fun _ _ h ↦ h.1
      · intro s hs
        exact absurd hs.1 hresolves
  · intro s hs
    exact absurd hs.1.valid hvalid

end

/-! ## Runs -/

theorem leased_of_resolved {options : List EngineOption} {option : EngineOption}
    {resolved : List ResolvedEngineOption}
    (hresolved : resolveEngineOptionLeases authority options = .ok resolved)
    (defaults : String → Option String) (hmem : option ∈ effectiveEngineOptions options) :
    Leased ⟨resolved, defaults⟩ authority option := by
  have hpairs := forall₂_of_mapM hresolved
  obtain ⟨out, hout, hresolve⟩ := exists_right hpairs hmem
  have hname := name_of_resolveEngineOption hresolve
  refine ⟨out, ?_, hresolve⟩
  cases option with
  | string name value =>
      obtain ⟨-, -, hvalue⟩ := bind_eq_ok hresolve
      exact hvalue
  | resource name resources =>
      cases hfind : resolved.find? fun resolved ↦ resolved.name = name with
      | none =>
          have hne := List.find?_eq_none.mp hfind out hout
          rw [decide_eq_true_eq] at hne
          exact absurd hname hne
      | some found =>
          have hfound := List.find?_some hfind
          rw [decide_eq_true_eq] at hfound
          obtain ⟨other, hother, hresolve'⟩ := exists_left hpairs (List.mem_of_find?_eq_some hfind)
          have hnames : other.name = (EngineOption.resource name resources).name := by
            rw [← name_of_resolveEngineOption hresolve', hfound]
            rfl
          cases List.inj_on_of_nodup_map (uniqueNames_effective options) hother hmem hnames
          rw [leaseOption, hfind]
          exact hresolve'.symm.trans hresolve

theorem served_of_resolved {options : EngineOptions} {resolved : List ResolvedEngineOption}
    (hresolved : resolveEngineOptionLeases authority options.extraOptions = .ok resolved)
    (defaults : String → Option String) :
    Served ⟨resolved, defaults⟩ authority options :=
  fun _ hmem _ ↦ leased_of_resolved hresolved defaults hmem

theorem mem_of_mem_resourceOptions {options : List EngineOption} {option : EngineOption}
    (h : option ∈ WarmEngine.resourceOptions options) : option ∈ options := by
  rw [WarmEngine.resourceOptions, List.mem_mergeSort] at h
  exact List.mem_of_mem_filter h

/-- The resources of a reused process are those the belief already has. -/
theorem served_of_canReuse {s : WarmEngine} {request : EngineOptions}
    (h : At (Believes R authority launch) s) (hreuse : s.canReuse launch request = true) :
    Served launch authority request := by
  intro option hmem hvalid
  cases option with
  | string name value => exact Leased.string hvalid
  | resource name resources =>
      simp only [WarmEngine.canReuse, Bool.and_eq_true, decide_eq_true_eq,
        List.all_eq_true] at hreuse
      obtain ⟨⟨hlength, hsame⟩, -⟩ := hreuse
      have hresource : EngineOption.resource name resources ∈
          WarmEngine.resourceOptions (effectiveEngineOptions request.extraOptions) := by
        rw [WarmEngine.resourceOptions, List.mem_mergeSort, List.mem_filter]
        exact ⟨hmem, rfl⟩
      obtain ⟨i, hi, hget⟩ := List.getElem_of_mem hresource
      have hi' : i < (WarmEngine.resourceOptions
          (effectiveEngineOptions s.options.extraOptions)).length := hlength ▸ hi
      have hpair := hsame (_, _) (List.mem_iff_getElem.mpr ⟨i, by
        rw [List.length_zip]
        exact lt_min hi' hi, List.getElem_zip⟩)
      rw [hget] at hpair
      have hprevious := mem_of_mem_resourceOptions (List.getElem_mem hi')
      have hlast := (uniqueNames_effective s.options.extraOptions).named_of_mem hprevious
      rw [named_effective] at hlast
      exact Leased.of_hasSameValue hpair (h.leased _ _ hlast)

/-- A start is that of the launch, or admitted for reuse by the process as it stands. -/
def Admitted (launched : EngineOptions) (launch : Launch) (s : WarmEngine)
    (request : EngineOptions) : Prop :=
  s = .launched ∧ request = launched ∨ s.canReuse launch request = true

/-- The process after any number of admitted starts, each reaching its `go` or failing. -/
inductive Reachable (R : EngineRules) (launch : Launch) (faults : ℕ → Option Error)
    (launched : EngineOptions) : WarmEngine → Prop where
  | launched : Reachable R launch faults launched .launched
  | start {s : WarmEngine} {request : EngineOptions} :
      Reachable R launch faults launched s → Admitted launched launch s request →
      Reachable R launch faults launched (start R launch faults request s).2

/-- The value an option has in the engine: what it last received, else its own. -/
def engineValue (initial : String → Option String) (sent : List EngineWrite) (name : String) :
    Option String :=
  (lastOption sent name).or (initial name)

section

variable {faults faults' : ℕ → Option Error} {launched request : EngineOptions}
  {resolved resolved' : List ResolvedEngineOption} {defaults initial : String → Option String}
  {s s' fresh : WarmEngine}

theorem served_of_admitted
    (hresolved : resolveEngineOptionLeases authority launched.extraOptions = .ok resolved)
    (h : At (Believes R authority ⟨resolved, defaults⟩) s)
    (hadmitted : Admitted launched ⟨resolved, defaults⟩ s request) :
    Served ⟨resolved, defaults⟩ authority request := by
  rcases hadmitted with ⟨-, rfl⟩ | hreuse
  · exact served_of_resolved hresolved defaults
  · exact served_of_canReuse h hreuse

theorem Reachable.believes
    (hresolved : resolveEngineOptionLeases authority launched.extraOptions = .ok resolved)
    (h : Reachable R ⟨resolved, defaults⟩ faults launched s) :
    At (Believes R authority ⟨resolved, defaults⟩) s := by
  induction h with
  | launched => exact believes_launched
  | @start s request _ hadmitted ih =>
      have hserved := served_of_admitted hresolved ih hadmitted
      obtain ⟨hok, herror⟩ := spec_start hserved s ih
      cases hrun : Engine.start R ⟨resolved, defaults⟩ faults request s with
      | mk result s' =>
          cases result with
          | ok a => exact (hok a s' hrun).1
          | error e => exact herror e s' hrun

theorem Configured.engineValue_eq {launch' : Launch} {sent' : List EngineWrite}
    (h : Configured R authority launch request sent)
    (h' : Configured R authority launch' request sent')
    (hinitial : ∀ name value, launch.defaults name = some value → initial name = some value)
    (hinitial' : ∀ name value, launch'.defaults name = some value → initial name = some value)
    (name : String) :
    engineValue initial sent name = engineValue initial sent' name := by
  by_cases hname : name = "UCI_Chess960"
  · obtain ⟨canonical, hcanonical, hmode, -⟩ := h.position
    obtain ⟨canonical', hcanonical', hmode', -⟩ := h'.position
    cases Except.ok.inj (hcanonical.symm.trans hcanonical')
    rw [hname, engineValue, engineValue, hmode, hmode']
  · cases hlast : lastNamed request.extraOptions name with
    | some option =>
        rw [← named_effective] at hlast
        obtain rfl := name_of_named hlast
        obtain ⟨out, hout, hsent⟩ := h.requested option (mem_of_named hlast) hname
        obtain ⟨out', hout', hsent'⟩ := h'.requested option (mem_of_named hlast) hname
        cases Except.ok.inj (hout.symm.trans hout')
        rw [engineValue, engineValue, hsent, hsent']
    | none =>
        have hvalue : ∀ {launch : Launch} {sent : List EngineWrite},
            Configured R authority launch request sent →
              (∀ name value, launch.defaults name = some value → initial name = some value) →
                engineValue initial sent name = initial name := by
          intro launch sent hconfigured hdefaults
          rw [engineValue]
          cases hsent : lastOption sent name with
          | none => rfl
          | some value =>
              rw [hdefaults name value (hconfigured.restored name hname hlast value hsent)]
              rfl
        rw [hvalue h hinitial, hvalue h' hinitial']

/-- A reused engine that reaches its `go` is configured like a fresh one. -/
theorem warm_start_configured
    (config : List UciOptionConfig)
    (hresolved : resolveEngineOptionLeases authority launched.extraOptions = .ok resolved)
    (hs : Reachable R ⟨resolved, advertisedDefault config⟩ faults launched s)
    (hadmitted : Admitted launched ⟨resolved, advertisedDefault config⟩ s request)
    (hstart : start R ⟨resolved, advertisedDefault config⟩ faults request s = (.ok .unit, s')) :
    Configured R authority ⟨resolved, advertisedDefault config⟩ request s'.sent ∧
      ∀ faults' resolved' fresh initial,
        resolveEngineOptionLeases authority request.extraOptions = .ok resolved' →
        start R ⟨resolved', advertisedDefault config⟩ faults' request .launched = (.ok .unit, fresh) →
        (∀ name value, advertisedDefault config name = some value → initial name = some value) →
          (∀ name, engineValue initial s'.sent name = engineValue initial fresh.sent name) ∧
            lastPosition s'.sent = lastPosition fresh.sent := by
  have hbelieves := hs.believes hresolved
  have hserved := served_of_admitted hresolved hbelieves hadmitted
  have hconfigured := ((spec_start hserved s hbelieves).1 _ _ hstart).2
  refine ⟨hconfigured, fun faults' resolved' fresh initial hresolved' hfresh hinitial ↦ ?_⟩
  have hfreshConfigured :
      Configured R authority ⟨resolved', advertisedDefault config⟩ request fresh.sent :=
    ((spec_start (served_of_resolved hresolved' _) .launched believes_launched).1 _ _
      hfresh).2
  refine ⟨hconfigured.engineValue_eq hfreshConfigured hinitial hinitial, ?_⟩
  obtain ⟨canonical, hcanonical, -, hplaced⟩ := hconfigured.position
  obtain ⟨canonical', hcanonical', -, hplaced'⟩ := hfreshConfigured.position
  cases Except.ok.inj (hcanonical.symm.trans hcanonical')
  rw [hplaced, hplaced']

end

/-! ## A small instance -/

namespace PawnEnding

open EnCroissant.PawnEnding

abbrev engineRules : EngineRules where
  toGameRules := rules
  isChess960 := fun _ ↦ false
  wireFen := fen
  uciFromMove := fun m _ ↦ ((uciMoves.find? fun entry ↦ entry.2 = m).map Prod.fst).getD ""

def plainAuthority : PathAuthority := ⟨fun id _ ↦ .ok id, ":"⟩

def engineConfig : List UciOptionConfig := [.spin "Hash" (some 16), .spin "Skill Level" (some 20)]

def noFaults : ℕ → Option Error := fun _ ↦ none

def weak : EngineOptions :=
  ⟨fen .start, [], [.string "Hash" "64", .string "Skill Level" "3"]⟩

def strong : EngineOptions := ⟨fen .start, ["h2h4"], [.string "Hash" "64"]⟩

def weakLaunch : Launch :=
  ⟨[⟨"Hash", "64", []⟩, ⟨"Skill Level", "3", []⟩], advertisedDefault engineConfig⟩

theorem resolve_weak :
    resolveEngineOptionLeases plainAuthority weak.extraOptions = .ok weakLaunch.resolved := by
  decide

/-- The process after the search that weakened it. -/
def afterWeak : WarmEngine := (start engineRules weakLaunch noFaults weak .launched).2

theorem warm_start_configured_strong :
    ∃ s', start engineRules weakLaunch noFaults strong afterWeak = (.ok .unit, s') ∧
      lastOption s'.sent "Skill Level" = some "20" ∧
        Configured engineRules plainAuthority weakLaunch strong s'.sent ∧
          ∀ faults' resolved' fresh initial,
            resolveEngineOptionLeases plainAuthority strong.extraOptions = .ok resolved' →
            start engineRules ⟨resolved', advertisedDefault engineConfig⟩ faults' strong .launched =
              (.ok .unit, fresh) →
            (∀ name value, advertisedDefault engineConfig name = some value →
              initial name = some value) →
              (∀ name, engineValue initial s'.sent name = engineValue initial fresh.sent name) ∧
                lastPosition s'.sent = lastPosition fresh.sent := by
  have hreached : Reachable engineRules weakLaunch noFaults weak afterWeak :=
    .start .launched (.inl ⟨rfl, rfl⟩)
  have hreuse : afterWeak.canReuse weakLaunch strong = true := by decide +kernel
  have hstart : start engineRules weakLaunch noFaults strong afterWeak =
      (.ok .unit, (start engineRules weakLaunch noFaults strong afterWeak).2) := rfl
  refine ⟨_, hstart, by decide, ?_⟩
  exact warm_start_configured engineConfig resolve_weak hreached (.inr hreuse) hstart

/-- A request that names the flag itself, for a standard position. -/
def variantRequest : EngineOptions := ⟨fen .start, [], [.string "UCI_Chess960" "true"]⟩

def variantLaunch : Launch := ⟨[⟨"UCI_Chess960", "true", []⟩], advertisedDefault engineConfig⟩

/-- The flag follows the position, whatever the request says. -/
theorem chess960_request_overruled :
    EngineOption.string "UCI_Chess960" "true" ∈
        effectiveEngineOptions variantRequest.extraOptions ∧
      ∃ s, start engineRules variantLaunch noFaults variantRequest .launched = (.ok .unit, s) ∧
        lastOption s.sent "UCI_Chess960" = some "false" := by
  refine ⟨by decide, _, rfl, ?_⟩
  decide

end PawnEnding

end EnCroissant.Engine
