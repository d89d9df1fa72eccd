import EnCroissant.Tree.StoredFacts
import EnCroissant.Tree.TabStorage

/-!
# What the storage of tab trees keeps

A write is let through only where a read found a tree or nothing.  So bytes that are no tree are
never overwritten, whatever calls of the session storage throw, and what was accepted is read
until it is replaced.
-/

namespace EnCroissant.TabStorage

variable {τ ρ σ : Type}

/-! ## The read gate -/

section

variable {env : TabStorageEnv τ ρ σ}

theorem decode_serialize (value : StoredTree ρ σ) :
    decodeLegacyOrCompressed env (env.serialize value) = gate env value := by
  rw [decodeLegacyOrCompressed, env.lossless, Option.bind_some]

theorem Final.repaired {value repaired : StoredTree ρ σ} (h : Final env value)
    (hgate : gate env value = some repaired) : Final env repaired := by
  intro again hagain
  obtain rfl : repaired = again := Option.some.inj ((h repaired hgate).symm.trans hagain)
  exact hagain

theorem parseTree_idle (syn : CommentSyntax) (value : StoredTree ρ σ) :
    parseTree syn { value with inProgress := some false, operationId := none } =
      (parseTree syn value).map fun state ↦ { state with report := ⟨false, none⟩ } := by
  rw [parseTree, parseTree, acceptTree, acceptTree]
  split_ifs with hidle hbounds hbounds
  · dsimp only [migrateTreeForStorage]
    cases treeNodeSchema (migrateLegacyNode syn 0 value.root) with
    | none => rfl
    | some root => rfl
  · exact absurd hidle hbounds
  · exact absurd hbounds hidle
  · rfl

/-- The gate leaves an analysis that is over as it is. -/
theorem gate_idle {value repaired : StoredTree ρ σ} (h : gate env value = some repaired) :
    gate env { value with inProgress := some false, operationId := none } =
      some { repaired with inProgress := some false, operationId := none } := by
  obtain ⟨state, hstate, rfl⟩ := Option.map_eq_some_iff.mp h
  rw [gate, parseTree_idle, hstate]
  rfl

theorem final_validatedClone {value copy : StoredTree ρ σ} (hfinal : Final env value)
    (h : validatedClone env value = some copy) : Final env copy := by
  rw [validatedClone, decode_serialize] at h
  obtain ⟨repaired, hrepaired, rfl⟩ := Option.map_eq_some_iff.mp h
  have hidle := gate_idle (hfinal repaired hrepaired)
  intro again hagain
  obtain rfl := Option.some.inj (hidle.symm.trans hagain)
  exact hidle

end

/-! ## One key -/

namespace TabSlot

variable (env : TabStorageEnv τ ρ σ) (reserved : Bool) in
/-- No bytes are there that are no tree. -/
def Free (slot : TabSlot τ ρ σ) : Prop :=
  ∀ raw, slot.bytes = some raw → (decodeLegacyOrCompressed env raw).isSome

variable (env : TabStorageEnv τ ρ σ) (reserved : Bool) in
/-- What waits under a key can be stored there, and an open gate stands in front of trees. -/
structure Sound (slot : TabSlot τ ρ σ) : Prop where
  stored : reserved = false → ∀ raw tree, slot.bytes = some raw → env.parse raw = some tree →
    Final env tree
  pending : ∀ value, slot.pending = some value → reserved = false ∧ Final env value
  free : (slot.pending ≠ none ∨ slot.status = .absent ∨ slot.status = .available) →
    reserved = false → slot.Free env

variable (env : TabStorageEnv τ ρ σ) (reserved : Bool) in
/-- Bytes that are overwritten are those of a tree, and so are the new ones. -/
def Overwrites (slot slot' : TabSlot τ ρ σ) : Prop :=
  slot'.bytes = slot.bytes ∨ reserved = false ∧ slot.Free env ∧ slot'.Free env

variable (env : TabStorageEnv τ ρ σ) (reserved : Bool) in
/-- The value is there, as it was handed over or as the gate repairs it. -/
def Holds (value : StoredTree ρ σ) (slot : TabSlot τ ρ σ) : Prop :=
  reserved = false ∧ (slot.pending = some value ∨ slot.pending = none ∧ ∃ raw repaired,
    slot.bytes = some raw ∧ decodeLegacyOrCompressed env raw = some repaired ∧
      gate env value = some repaired)

variable (env : TabStorageEnv τ ρ σ) (reserved : Bool) in
/-- What a step does to a key: it keeps what is there, or has a new value for it, or removes it. -/
structure Step (targeted removed : Prop) (slot slot' : TabSlot τ ρ σ) : Prop where
  sound : slot'.Sound env reserved
  bytes : slot.Overwrites env reserved slot' ∨ removed ∧ slot'.bytes = none
  holds : ¬targeted → ∀ value, slot.Holds env reserved value → slot'.Holds env reserved value

variable {env : TabStorageEnv τ ρ σ} {reserved : Bool} {slot slot' slot'' : TabSlot τ ρ σ}
  {targeted removed : Prop}

theorem Free.of_bytes (h : slot.Free env) (hbytes : slot'.bytes = slot.bytes) :
    slot'.Free env := by
  intro raw hraw
  exact h raw (hbytes ▸ hraw)

theorem free_of_decodes {raw : τ} (hraw : slot.bytes = some raw) {value : StoredTree ρ σ}
    (hvalue : decodeLegacyOrCompressed env raw = some value) : slot.Free env := by
  intro raw' hraw'
  obtain rfl := Option.some.inj (hraw.symm.trans hraw')
  rw [hvalue]
  rfl

theorem free_serialize {value repaired : StoredTree ρ σ}
    (hbytes : slot.bytes = some (env.serialize value)) (h : gate env value = some repaired) :
    slot.Free env := free_of_decodes hbytes ((decode_serialize value).trans h)

/-- A value that does not wait is stored. -/
theorem Holds.stored {value : StoredTree ρ σ} (h : slot.Holds env reserved value)
    (hpending : slot.pending = none) : reserved = false ∧ ∃ raw repaired,
      slot.bytes = some raw ∧ decodeLegacyOrCompressed env raw = some repaired ∧
        gate env value = some repaired := by
  obtain ⟨hreserved, hwaits | ⟨-, hstored⟩⟩ := h
  · cases hpending.symm.trans hwaits
  · exact ⟨hreserved, hstored⟩

theorem Overwrites.trans (h : slot.Overwrites env reserved slot')
    (h' : slot'.Overwrites env reserved slot'') : slot.Overwrites env reserved slot'' := by
  rcases h with h | ⟨hreserved, hfree, hfree'⟩
  · rcases h' with h' | ⟨hreserved, hfree, hfree'⟩
    · exact .inl (h'.trans h)
    · exact .inr ⟨hreserved, hfree.of_bytes h.symm, hfree'⟩
  · rcases h' with h' | ⟨-, -, hfree''⟩
    · exact .inr ⟨hreserved, hfree, hfree'.of_bytes h'⟩
    · exact .inr ⟨hreserved, hfree, hfree''⟩

theorem Step.refl (h : slot.Sound env reserved) : slot.Step env reserved targeted removed slot :=
  ⟨h, .inl (.inl rfl), fun _ _ ↦ id⟩

/-- A step that keeps what is there, and then another one. -/
theorem Step.trans (h : slot.Step env reserved False False slot')
    (h' : slot'.Step env reserved targeted removed slot'') :
    slot.Step env reserved targeted removed slot'' := by
  have hfirst := h.bytes.resolve_right fun hremoved ↦ hremoved.1
  refine ⟨h'.sound, ?_, fun htargeted value hvalue ↦ ?_⟩
  · rcases h'.bytes with hnext | hremoved
    · exact .inl (hfirst.trans hnext)
    · exact .inr hremoved
  · exact h'.holds htargeted value (h.holds not_false value hvalue)

theorem Step.weaken (h : slot.Step env reserved False False slot') :
    slot.Step env reserved targeted removed slot' :=
  h.trans (.refl h.sound)

/-- A value that is read is final. -/
theorem Sound.final (h : slot.Sound env reserved) (hreserved : reserved = false) {raw : τ}
    (hraw : slot.bytes = some raw) {value : StoredTree ρ σ}
    (hvalue : decodeLegacyOrCompressed env raw = some value) :
    gate env value = some value ∧ Final env value := by
  obtain ⟨tree, htree, hgate⟩ := Option.bind_eq_some_iff.mp hvalue
  have hfinal := h.stored hreserved raw tree hraw htree
  exact ⟨hfinal value hgate, hfinal.repaired hgate⟩

theorem sound_accept (h : slot.Sound env reserved) (hreserved : reserved = false)
    (hfree : slot.Free env) {value : StoredTree ρ σ} (hfinal : Final env value) :
    (slot.accept value).Sound env reserved := by
  refine ⟨h.stored, ?_, fun _ _ ↦ hfree⟩
  rintro _ ⟨⟩
  exact ⟨hreserved, hfinal⟩

theorem sound_persist {value repaired : StoredTree ρ σ} (hgate : gate env value = some repaired)
    (hfinal : Final env value) : (slot.persist env value).Sound env reserved := by
  refine ⟨?_, ?_, fun _ _ ↦ free_serialize rfl hgate⟩
  · rintro - raw tree ⟨⟩ htree
    obtain rfl := Option.some.inj ((env.lossless value).symm.trans htree)
    exact hfinal
  · rintro _ ⟨⟩

/-! ## Flushes and removals -/

theorem step_flush (h : slot.Sound env reserved) (setFails : Bool) :
    slot.Step env reserved targeted removed (slot.flush env setFails).2 := by
  rw [flush]
  cases hpending : slot.pending with
  | none => exact .refl h
  | some value =>
      dsimp only
      split
      · exact .refl h
      · next hfails =>
        rw [Bool.or_eq_true, not_or, Bool.not_eq_true, Bool.not_eq_false', canRehydrate] at hfails
        obtain ⟨repaired, hgate⟩ := Option.isSome_iff_exists.mp hfails.1
        obtain ⟨hreserved, hfinal⟩ := h.pending value hpending
        have hfree : slot.Free env := h.free (.inl (by simp [hpending])) hreserved
        have hsound : (slot.persist env value).Sound env reserved := sound_persist hgate hfinal
        refine ⟨hsound, .inl (.inr ⟨hreserved, hfree, free_serialize rfl hgate⟩), ?_⟩
        rintro - held ⟨-, hheld | ⟨hnone, -⟩⟩
        · obtain rfl := Option.some.inj (hpending.symm.trans hheld)
          refine ⟨hreserved, .inr ⟨rfl, _, repaired, rfl, ?_, hgate⟩⟩
          rw [decode_serialize, hgate]
        · cases hpending.symm.trans hnone

theorem sound_empty (status : TabTreeStorageStatus τ) :
    (⟨none, none, status⟩ : TabSlot τ ρ σ).Sound env reserved := by
  refine ⟨?_, ?_, ?_⟩
  · rintro - raw tree ⟨⟩
  · rintro value ⟨⟩
  · rintro - - raw ⟨⟩

theorem step_remove (h : slot.Sound env reserved) (removeFails : Bool) (htargeted : targeted)
    (hremoved : removed) : slot.Step env reserved targeted removed (slot.remove removeFails) := by
  rw [remove]
  split
  · refine ⟨⟨h.stored, ?_, ?_⟩, .inl (.inl rfl), fun hnot ↦ absurd htargeted hnot⟩
    · rintro value ⟨⟩
    · rintro (hpending | hstatus)
      · exact absurd rfl hpending
      · exact h.free (.inr hstatus)
  · exact ⟨sound_empty _, .inr ⟨hremoved, rfl⟩, fun hnot ↦ absurd htargeted hnot⟩

theorem step_discardUnreadable (h : slot.Sound env reserved) (removeFails getFails : Bool)
    (htargeted : targeted) (hremoved : removed) :
    slot.Step env reserved targeted removed (slot.discardUnreadable removeFails getFails) := by
  rw [discardUnreadable]
  split
  · split
    · exact .refl h
    · split
      · refine ⟨⟨?_, h.pending, ?_⟩, .inr ⟨hremoved, rfl⟩, fun hnot ↦ absurd htargeted hnot⟩
        · rintro - raw tree ⟨⟩
        · rintro - - raw ⟨⟩
      · exact ⟨sound_empty _, .inr ⟨hremoved, rfl⟩, fun hnot ↦ absurd htargeted hnot⟩
  · exact .refl h

/-! ## Reading -/

variable [DecidableEq τ]

variable (env reserved) in
/-- What a read finds. -/
structure Finds (getFails : Bool) (slot : TabSlot τ ρ σ) (result : TabTreeReadResult τ ρ σ)
    (bytes : Option τ) : Prop where
  bytes : bytes = slot.bytes ∨ reserved = false ∧ slot.pending = none ∧ ∃ raw value,
    slot.bytes = some raw ∧ decodeLegacyOrCompressed env raw = some value ∧
      bytes = some (env.serialize value)
  free : result.status = .absent ∨ result.status = .available → reserved = false →
    slot.pending ≠ none ∨ slot.Free env
  value : ∀ value, result = .available value → slot.pending = some value ∨
    reserved = false ∧ ∃ raw, slot.bytes = some raw ∧
      decodeLegacyOrCompressed env raw = some value
  held : ∀ value, slot.Holds env reserved value → result = .available value ∨
    (∃ repaired, gate env value = some repaired ∧ result = .available repaired) ∨
      getFails = true ∧ result = .unavailable

theorem finds_readValue (slot : TabSlot τ ρ σ) (requireExisting migrate : Bool)
    (faults : ReadFaults) :
    slot.Finds env reserved faults.getItem
      (slot.readValue env reserved requireExisting migrate faults).1
      (slot.readValue env reserved requireExisting migrate faults).2 := by
  rw [readValue]
  cases hpending : slot.pending with
  | some value =>
      refine ⟨.inl rfl, fun _ _ ↦ .inl ?_, ?_, ?_⟩
      · simp [hpending]
      · rintro _ ⟨⟩
        exact .inl hpending
      · rintro held ⟨-, hheld | ⟨hnone, -⟩⟩
        · obtain rfl := Option.some.inj (hpending.symm.trans hheld)
          exact .inl rfl
        · cases hpending.symm.trans hnone
  | none =>
      dsimp only
      split
      · next hreserved =>
        refine ⟨.inl rfl, fun _ hfalse ↦ ?_, ?_, fun held hheld ↦ ?_⟩
        · cases hreserved.symm.trans hfalse
        · rintro _ ⟨⟩
        · cases hreserved.symm.trans (hheld.stored hpending).1
      · next hreserved =>
        have hreserved : reserved = false := Bool.eq_false_iff.mpr hreserved
        split
        · next hfails =>
          refine ⟨.inl rfl, ?_, ?_, fun _ _ ↦ .inr (.inr ⟨hfails, rfl⟩)⟩
          · rintro (hstatus | hstatus) <;> cases hstatus
          · rintro _ ⟨⟩
        · cases hbytes : slot.bytes with
          | none =>
              refine ⟨.inl hbytes.symm, fun _ _ ↦ .inr ?_, ?_, fun held hheld ↦ ?_⟩
              · intro raw hraw
                cases hbytes.symm.trans hraw
              · dsimp only
                split <;> rintro _ ⟨⟩
              · obtain ⟨-, raw, -, hraw, -⟩ := hheld.stored hpending
                cases hbytes.symm.trans hraw
          | some raw =>
              dsimp only
              cases hdecode : decodeLegacyOrCompressed env raw with
              | none =>
                  refine ⟨.inl hbytes.symm, ?_, ?_, fun held hheld ↦ ?_⟩
                  · rintro (hstatus | hstatus) <;> cases hstatus
                  · rintro _ ⟨⟩
                  · obtain ⟨-, raw', repaired, hraw, hrepaired, -⟩ := hheld.stored hpending
                    obtain rfl := Option.some.inj (hbytes.symm.trans hraw)
                    cases hdecode.symm.trans hrepaired
              | some decoded =>
                  refine ⟨?_, fun _ _ ↦ .inr ?_, ?_, fun held hheld ↦ ?_⟩
                  · dsimp only
                    split
                    · exact .inr ⟨hreserved, hpending, raw, decoded, hbytes, hdecode, rfl⟩
                    · exact .inl hbytes.symm
                  · exact free_of_decodes hbytes hdecode
                  · rintro _ ⟨⟩
                    exact .inr ⟨hreserved, raw, hbytes, hdecode⟩
                  · obtain ⟨-, raw', repaired, hraw, hrepaired, hgate⟩ := hheld.stored hpending
                    obtain rfl := Option.some.inj (hbytes.symm.trans hraw)
                    obtain rfl := Option.some.inj (hdecode.symm.trans hrepaired)
                    exact .inr (.inl ⟨decoded, hgate, rfl⟩)

theorem step_readTreeValue (h : slot.Sound env reserved)
    (requireExisting migrate recordStatus : Bool) (faults : ReadFaults) :
    slot.Step env reserved False False
      (slot.readTreeValue env reserved requireExisting migrate recordStatus faults).2 := by
  have hfinds : slot.Finds env reserved faults.getItem _ _ :=
    finds_readValue slot requireExisting migrate faults
  rw [readTreeValue]
  generalize slot.readValue env reserved requireExisting migrate faults = found at hfinds ⊢
  obtain ⟨result, bytes⟩ := found
  dsimp only at hfinds ⊢
  have hopen : slot.pending ≠ none ∨ (if recordStatus then result.status else slot.status) =
      .absent ∨ (if recordStatus then result.status else slot.status) = .available →
        reserved = false → slot.Free env := by
    rintro hopen hreserved
    cases recordStatus with
    | false => exact h.free hopen hreserved
    | true =>
        rcases hopen with hpending | hstatus
        · exact h.free (.inl hpending) hreserved
        · rcases hfinds.free hstatus hreserved with hpending | hfree
          · exact h.free (.inl hpending) hreserved
          · exact hfree
  rcases hfinds.bytes with hbytes | ⟨hreserved, hpending, raw, value, hraw, hvalue, hbytes⟩
  · subst hbytes
    exact ⟨⟨h.stored, h.pending, hopen⟩, .inl (.inl rfl), fun _ _ ↦ id⟩
  · subst hbytes
    obtain ⟨hgate, hfinal⟩ := h.final hreserved hraw hvalue
    have hfree : slot.Free env := free_of_decodes hraw hvalue
    refine ⟨⟨?_, h.pending, fun _ _ ↦ free_serialize rfl hgate⟩,
      .inl (.inr ⟨hreserved, hfree, free_serialize rfl hgate⟩), ?_⟩
    · rintro - raw' tree ⟨⟩ htree
      obtain rfl := Option.some.inj ((env.lossless value).symm.trans htree)
      exact hfinal
    · intro _ held hheld
      obtain ⟨-, raw', repaired, hraw', hrepaired, hheld⟩ := hheld.stored hpending
      obtain rfl := Option.some.inj (hraw.symm.trans hraw')
      obtain rfl := Option.some.inj (hvalue.symm.trans hrepaired)
      refine ⟨hreserved, .inr ⟨hpending, _, value, rfl, ?_, hheld⟩⟩
      rw [decode_serialize, hgate]

/-- An open gate stands in front of a tree or of nothing. -/
theorem writeBlocker_spec (h : slot.Sound env reserved) (faults : ReadFaults) :
    slot.Step env reserved False False (slot.writeBlocker env reserved faults).2 ∧
      ((slot.writeBlocker env reserved faults).1 = false → reserved = false ∧
        (slot.writeBlocker env reserved faults).2.Free env) := by
  rw [writeBlocker]
  split
  · refine ⟨.refl h, ?_⟩
    rintro ⟨⟩
  · next hreserved =>
    have hreserved : reserved = false := Bool.eq_false_iff.mpr hreserved
    have hread : slot.Step env reserved False False
        (if slot.status = .notRead then (slot.readTree env reserved false faults).2 else slot) ∧
          (if slot.status = .notRead then (slot.readTree env reserved false faults).2
            else slot).status ≠ .notRead := by
      split
      · refine ⟨step_readTreeValue h false true true faults, ?_⟩
        change (slot.readValue env reserved false true faults).1.status ≠ .notRead
        cases (slot.readValue env reserved false true faults).1 <;> rintro ⟨⟩
      · next hstatus => exact ⟨.refl h, hstatus⟩
    obtain ⟨hstep, hstatus⟩ := hread
    generalize (if slot.status = .notRead then (slot.readTree env reserved false faults).2
      else slot) = slot' at hstep hstatus ⊢
    refine ⟨hstep, fun hopen ↦ ⟨hreserved, hstep.sound.free ?_ hreserved⟩⟩
    dsimp only at hopen
    cases hcase : slot'.status with
    | notRead => exact absurd hcase hstatus
    | absent => exact .inr (.inl rfl)
    | available => exact .inr (.inr rfl)
    | unreadable raw =>
        rw [hcase] at hopen
        cases hopen
    | unavailable =>
        rw [hcase] at hopen
        cases hopen

/-! ## Writing -/

theorem step_write (h : slot.Sound env reserved) {value : StoredTree ρ σ}
    (hfinal : Final env value) (faults : ReadFaults)
    (htargeted : (slot.write env reserved value faults).1 = true → targeted) :
    slot.Step env reserved targeted removed (slot.write env reserved value faults).2 := by
  obtain ⟨hstep, hopen⟩ := writeBlocker_spec h faults
  revert htargeted
  rw [write]
  cases hblocked : (slot.writeBlocker env reserved faults).1 with
  | true => exact fun _ ↦ hstep.weaken
  | false =>
      intro htargeted
      obtain ⟨hreserved, hfree⟩ := hopen hblocked
      exact hstep.trans ⟨sound_accept hstep.sound hreserved hfree hfinal, .inl (.inl rfl),
        fun hnot ↦ absurd (htargeted rfl) hnot⟩

theorem holds_write (h : slot.Sound env reserved) {value : StoredTree ρ σ} {faults : ReadFaults}
    (haccepted : (slot.write env reserved value faults).1 = true) :
    (slot.write env reserved value faults).2.Holds env reserved value := by
  obtain ⟨-, hopen⟩ := writeBlocker_spec h faults
  revert haccepted
  rw [write]
  cases hblocked : (slot.writeBlocker env reserved faults).1 with
  | true => rintro ⟨⟩
  | false => exact fun _ ↦ ⟨(hopen hblocked).1, .inl rfl⟩

theorem step_seed (h : slot.Sound env reserved) {value : StoredTree ρ σ}
    (hfinal : Final env value) (faults : ReadFaults) (setFails : Bool)
    (htargeted : (slot.seed env reserved value faults setFails).1 = true → targeted) :
    slot.Step env reserved targeted removed
      (slot.seed env reserved value faults setFails).2 := by
  obtain ⟨hstep, hopen⟩ := writeBlocker_spec h faults
  revert htargeted
  rw [seed]
  cases hgate : gate env value with
  | none => exact fun _ ↦ .refl h
  | some repaired =>
      dsimp only
      split
      · exact fun _ ↦ hstep.weaken
      · next hblocked =>
        intro htargeted
        rw [Bool.or_eq_true, not_or, Bool.not_eq_true] at hblocked
        obtain ⟨hreserved, hfree⟩ := hopen hblocked.1
        have hagain := hfinal repaired hgate
        have hsound : ((slot.writeBlocker env reserved faults).2.persist env repaired).Sound env
            reserved := sound_persist hagain (hfinal.repaired hgate)
        exact hstep.trans ⟨hsound, .inl (.inr ⟨hreserved, hfree, free_serialize rfl hagain⟩),
          fun hnot ↦ absurd (htargeted rfl) hnot⟩

theorem holds_seed (h : slot.Sound env reserved) {value : StoredTree ρ σ}
    (hfinal : Final env value) {faults : ReadFaults} {setFails : Bool}
    (haccepted : (slot.seed env reserved value faults setFails).1 = true) :
    (slot.seed env reserved value faults setFails).2.Holds env reserved value := by
  obtain ⟨-, hopen⟩ := writeBlocker_spec h faults
  revert haccepted
  rw [seed]
  cases hgate : gate env value with
  | none => rintro ⟨⟩
  | some repaired =>
      dsimp only
      split
      · rintro ⟨⟩
      · next hblocked =>
        rw [Bool.or_eq_true, not_or, Bool.not_eq_true] at hblocked
        refine fun _ ↦ ⟨(hopen hblocked.1).1, .inr ⟨rfl, _, repaired, rfl, ?_, hgate⟩⟩
        rw [decode_serialize, hfinal repaired hgate]

/-! ## Copies -/

theorem final_readTreeValue (h : slot.Sound env reserved)
    {requireExisting migrate recordStatus : Bool} {faults : ReadFaults} {value : StoredTree ρ σ}
    (hvalue : (slot.readTreeValue env reserved requireExisting migrate recordStatus faults).1 =
      .available value) : Final env value := by
  rcases (finds_readValue slot requireExisting migrate faults).value value hvalue with
    hpending | ⟨hreserved, raw, hraw, hdecode⟩
  · exact (h.pending value hpending).2
  · exact (h.final hreserved hraw hdecode).2

theorem step_readForClone (h : slot.Sound env reserved) (requireExisting : Bool)
    (faults : ReadFaults) :
    slot.Step env reserved False False
      (slot.readForClone env reserved requireExisting faults).2 := by
  rw [readForClone]
  split
  · exact .refl h
  · exact .refl h
  · exact step_readTreeValue h requireExisting false true faults

theorem final_readForClone (h : slot.Sound env reserved) (requireExisting : Bool)
    (faults : ReadFaults) (copy : StoredTree ρ σ)
    (hcopy : (slot.readForClone env reserved requireExisting faults).1 = some copy) :
    Final env copy := by
  rw [readForClone] at hcopy
  split at hcopy
  · cases hcopy
  · cases hcopy
  · dsimp only at hcopy
    cases hfound : (slot.readTreeValue env reserved requireExisting false true faults).1 with
    | available value =>
        rw [hfound] at hcopy
        exact final_validatedClone (final_readTreeValue h hfound) hcopy
    | absent | unreadable _ | unavailable =>
        rw [hfound] at hcopy
        cases hcopy

end TabSlot

/-! ## All keys -/

section

variable [DecidableEq τ] {env : TabStorageEnv τ ρ σ} {s s' : TabSlots τ ρ σ}

variable (env) in
def Sound (s : TabSlots τ ρ σ) : Prop := ∀ key, (s key).Sound env (isReserved key)

variable (env) in
/-- What a step does to every key. -/
def Steps (replaces removes : String → Prop) (s s' : TabSlots τ ρ σ) : Prop :=
  ∀ key, (s key).Step env (isReserved key) (replaces key) (removes key) (s' key)

omit [DecidableEq τ] in
theorem Steps.sound {replaces removes : String → Prop} (h : Steps env replaces removes s s') :
    Sound env s' := fun key ↦ (h key).sound

omit [DecidableEq τ] in
theorem steps_update {replaces removes : String → Prop} (h : Sound env s) {tabId : String}
    {slot : TabSlot τ ρ σ}
    (hslot : (s tabId).Step env (isReserved tabId) (replaces tabId) (removes tabId) slot) :
    Steps env replaces removes s (Function.update s tabId slot) := by
  intro key
  by_cases hkey : key = tabId
  · subst hkey
    rw [Function.update_self]
    exact hslot
  · rw [Function.update_of_ne hkey]
    exact .refl (h key)

theorem steps_clone (h : Sound env s) {replaces removes : String → Prop}
    {sourceTabId targetTabId : String} {requireExisting : Bool}
    {sourceFaults targetFaults : ReadFaults}
    (hreplaces : ∀ copy, (clone env s sourceTabId targetTabId requireExisting sourceFaults
      targetFaults).1 = some copy → replaces targetTabId) :
    Steps env replaces removes s
      (clone env s sourceTabId targetTabId requireExisting sourceFaults targetFaults).2 := by
  revert hreplaces
  rw [clone]
  have hsource : Steps env (fun _ ↦ False) (fun _ ↦ False) s (Function.update s sourceTabId _) :=
    steps_update h (TabSlot.step_readTreeValue (h sourceTabId) requireExisting true true
      sourceFaults)
  cases hfound : ((s sourceTabId).readTree env (isReserved sourceTabId) requireExisting
      sourceFaults).1 with
  | absent | unreadable _ | unavailable => exact fun _ key ↦ (hsource key).weaken
  | available value =>
      dsimp only
      cases hcopy : validatedClone env value with
      | none => exact fun _ key ↦ (hsource key).weaken
      | some copy =>
          intro hreplaces key
          have hfinal : Final env copy :=
            final_validatedClone (TabSlot.final_readTreeValue (h sourceTabId) hfound) hcopy
          have htarget : Steps env replaces removes (Function.update s sourceTabId _)
              (Function.update _ targetTabId _) :=
            steps_update hsource.sound (TabSlot.step_write (hsource.sound targetTabId) hfinal
              targetFaults fun haccepted ↦ hreplaces copy (if_pos haccepted))
          exact (hsource key).trans (htarget key)

theorem steps_cloneDurable (h : Sound env s) {replaces removes : String → Prop}
    {sourceTabId targetTabId : String} {requireExisting setFails : Bool}
    {sourceFaults targetFaults : ReadFaults}
    (hreplaces : ∀ copy, (cloneDurable env s sourceTabId targetTabId requireExisting sourceFaults
      targetFaults setFails).1 = some copy → replaces targetTabId) :
    Steps env replaces removes s (cloneDurable env s sourceTabId targetTabId requireExisting
      sourceFaults targetFaults setFails).2 := by
  revert hreplaces
  rw [cloneDurable]
  have hsource : Steps env (fun _ ↦ False) (fun _ ↦ False) s (Function.update s sourceTabId _) :=
    steps_update h (TabSlot.step_readForClone (h sourceTabId) requireExisting sourceFaults)
  have hfinal : ∀ copy, ((s sourceTabId).readForClone env (isReserved sourceTabId) requireExisting
      sourceFaults).1 = some copy → Final env copy :=
    TabSlot.final_readForClone (h sourceTabId) requireExisting sourceFaults
  cases hfound : ((s sourceTabId).readForClone env (isReserved sourceTabId) requireExisting
      sourceFaults).1 with
  | none => exact fun _ key ↦ (hsource key).weaken
  | some copy =>
      intro hreplaces key
      have htarget : Steps env replaces removes (Function.update s sourceTabId _)
          (Function.update _ targetTabId _) :=
        steps_update hsource.sound (TabSlot.step_seed (hsource.sound targetTabId)
          (hfinal copy hfound) targetFaults setFails
            fun haccepted ↦ hreplaces copy (if_pos haccepted))
      exact (hsource key).trans (htarget key)

/-- Every call keeps what is there, or replaces it. -/
theorem TabAction.steps (h : Sound env s) {action : TabAction ρ σ}
    (hpromised : action.Promised env) :
    Steps env (action.Replaces env s) (action.Removes ·) s (action.run env s).2 := by
  cases action with
  | readTree tabId requireExisting faults =>
      exact steps_update h
        (TabSlot.step_readTreeValue (h tabId) requireExisting true true faults).weaken
  | inspectTree tabId requireExisting faults =>
      exact steps_update h
        (TabSlot.step_readTreeValue (h tabId) requireExisting false false faults).weaken
  | write tabId value faults =>
      refine steps_update h (TabSlot.step_write (h tabId) hpromised faults fun haccepted ↦ ?_)
      exact .inr ⟨value, if_pos haccepted⟩
  | seed tabId value faults setFails =>
      refine steps_update h
        (TabSlot.step_seed (h tabId) hpromised faults setFails fun haccepted ↦ ?_)
      exact .inr ⟨value, if_pos haccepted⟩
  | clone sourceTabId targetTabId requireExisting sourceFaults targetFaults =>
      refine steps_clone h fun copy hcopy ↦ .inr ⟨copy, ?_⟩
      exact Option.map_eq_some_iff.mpr ⟨copy, hcopy, rfl⟩
  | cloneDurable sourceTabId targetTabId requireExisting sourceFaults targetFaults setFails =>
      refine steps_cloneDurable h fun copy hcopy ↦ .inr ⟨copy, ?_⟩
      exact Option.map_eq_some_iff.mpr ⟨copy, hcopy, rfl⟩
  | flush setFails => exact fun key ↦ TabSlot.step_flush (h key) (setFails key)
  | remove tabId removeFails =>
      exact steps_update h (TabSlot.step_remove (h tabId) removeFails (.inl rfl) rfl)
  | discardUnreadable tabId removeFails getFails =>
      exact steps_update h
        (TabSlot.step_discardUnreadable (h tabId) removeFails getFails (.inl rfl) rfl)

theorem holds_clone (h : Sound env s) {sourceTabId targetTabId : String} {requireExisting : Bool}
    {sourceFaults targetFaults : ReadFaults} {copy : StoredTree ρ σ}
    (hcopy : (clone env s sourceTabId targetTabId requireExisting sourceFaults targetFaults).1 =
      some copy) :
    ((clone env s sourceTabId targetTabId requireExisting sourceFaults targetFaults).2
      targetTabId).Holds env (isReserved targetTabId) copy := by
  revert hcopy
  rw [clone]
  have hsource : Steps env (fun _ ↦ False) (fun _ ↦ False) s (Function.update s sourceTabId _) :=
    steps_update h (TabSlot.step_readTreeValue (h sourceTabId) requireExisting true true
      sourceFaults)
  cases ((s sourceTabId).readTree env (isReserved sourceTabId) requireExisting sourceFaults).1 with
  | absent | unreadable _ | unavailable => rintro ⟨⟩
  | available value =>
      dsimp only
      cases validatedClone env value with
      | none => rintro ⟨⟩
      | some cloned =>
          dsimp only
          split_ifs with haccepted
          · rintro ⟨⟩
            rw [Function.update_self]
            exact TabSlot.holds_write (hsource.sound targetTabId) haccepted
          · rintro ⟨⟩

theorem holds_cloneDurable (h : Sound env s) {sourceTabId targetTabId : String}
    {requireExisting setFails : Bool} {sourceFaults targetFaults : ReadFaults}
    {copy : StoredTree ρ σ}
    (hcopy : (cloneDurable env s sourceTabId targetTabId requireExisting sourceFaults
      targetFaults setFails).1 = some copy) :
    ((cloneDurable env s sourceTabId targetTabId requireExisting sourceFaults targetFaults
      setFails).2 targetTabId).Holds env (isReserved targetTabId) copy := by
  revert hcopy
  rw [cloneDurable]
  have hsource : Steps env (fun _ ↦ False) (fun _ ↦ False) s (Function.update s sourceTabId _) :=
    steps_update h (TabSlot.step_readForClone (h sourceTabId) requireExisting sourceFaults)
  cases hfound : ((s sourceTabId).readForClone env (isReserved sourceTabId) requireExisting
      sourceFaults).1 with
  | none => rintro ⟨⟩
  | some cloned =>
      dsimp only
      split_ifs with haccepted
      · rintro ⟨⟩
        rw [Function.update_self]
        exact TabSlot.holds_seed (hsource.sound targetTabId) (TabSlot.final_readForClone
          (h sourceTabId) requireExisting sourceFaults _ hfound) haccepted
      · rintro ⟨⟩

/-- What a call accepts is there after it. -/
theorem TabAction.holds (h : Sound env s) {action : TabAction ρ σ}
    (hpromised : action.Promised env) {key : String} {value : StoredTree ρ σ}
    (haccepted : (action.run env s).1 = some (key, value)) :
    ((action.run env s).2 key).Holds env (isReserved key) value := by
  cases action with
  | readTree | inspectTree | flush | remove | discardUnreadable => cases haccepted
  | write tabId given faults =>
      obtain ⟨hwritten, hgiven⟩ := Option.ite_none_right_eq_some.mp haccepted
      cases hgiven
      have hholds := TabSlot.holds_write (h _) hwritten
      dsimp only [TabAction.run]
      rwa [Function.update_self]
  | seed tabId given faults setFails =>
      obtain ⟨hseeded, hgiven⟩ := Option.ite_none_right_eq_some.mp haccepted
      cases hgiven
      have hholds := TabSlot.holds_seed (h _) hpromised hseeded
      dsimp only [TabAction.run]
      rwa [Function.update_self]
  | clone sourceTabId targetTabId requireExisting sourceFaults targetFaults =>
      obtain ⟨copy, hcopy, hgiven⟩ := Option.map_eq_some_iff.mp haccepted
      cases hgiven
      exact holds_clone h hcopy
  | cloneDurable sourceTabId targetTabId requireExisting sourceFaults targetFaults setFails =>
      obtain ⟨copy, hcopy, hgiven⟩ := Option.map_eq_some_iff.mp haccepted
      cases hgiven
      exact holds_cloneDurable h hcopy

theorem tabStorageMachine_invariant :
    (tabStorageMachine env).Invariant (fun _ action ↦ action.Promised env) (Sound env) := by
  constructor
  · intro s hinit key
    obtain ⟨hpending, hstatus, hbytes⟩ := hinit key
    refine ⟨fun _ ↦ hbytes, fun value hvalue ↦ ?_, ?_⟩
    · cases hpending.symm.trans hvalue
    · rintro (hnot | hnot | hnot)
      · exact absurd hpending hnot
      · cases hstatus.symm.trans hnot
      · cases hstatus.symm.trans hnot
  · rintro s action s' h hpromised rfl
    exact (TabAction.steps h hpromised).sound

/-- A value that is there is read until a call replaces it. -/
theorem holds_run (h : Sound env s) {key : String} {value : StoredTree ρ σ}
    (hholds : (s key).Holds env (isReserved key) value)
    (hrun : (tabStorageMachine env).RunOf
      (fun s action ↦ action.Promised env ∧ ¬action.Replaces env s key) s s') :
    Sound env s' ∧ (s' key).Holds env (isReserved key) value := by
  induction hrun with
  | refl => exact ⟨h, hholds⟩
  | tail _ hstep ih =>
      obtain ⟨action, ⟨hpromised, hnot⟩, rfl⟩ := hstep
      have hsteps := TabAction.steps ih.1 hpromised
      exact ⟨hsteps.sound, (hsteps key).holds hnot value ih.2⟩

end

namespace Sample

/-- The text of a tree, or another one. -/
def env : TabStorageEnv (StoredTree Unit Unit ⊕ Text) Unit Unit where
  serialize := .inl
  parse := Sum.getLeft?
  lossless _ := rfl
  syn := NestedClock.clockSyntax

noncomputable instance : DecidableEq (StoredTree Unit Unit ⊕ Text) := Classical.decEq _

def tree : StoredTree Unit Unit := (NestedClock.stateOf ['o', 'k'] none []).stored

/-- A tree was cut short under the key `b`. -/
def page : TabSlots (StoredTree Unit Unit ⊕ Text) Unit Unit := fun key ↦
  ⟨if key = "b" then some (.inr ['?']) else none, none, .notRead⟩

theorem gate_tree : gate env tree = some tree := by rfl

end Sample

end EnCroissant.TabStorage
