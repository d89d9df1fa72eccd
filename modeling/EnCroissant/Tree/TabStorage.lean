import EnCroissant.Library.Machine
import EnCroissant.Tree.Stored

/-!
# The storage of tab trees

The repository of tab trees has, for every key, the bytes of the session storage, a frame that
waits for a flush, and what the last read found.  Every call of the session storage may throw.
-/

namespace EnCroissant

variable {τ ρ σ : Type}

/-- The text of a tree: JSON and its compression, which lose nothing. -/
structure TreeText (τ ρ σ : Type) where
  serialize : StoredTree ρ σ → τ
  parse : τ → Option (StoredTree ρ σ)
  lossless : ∀ tree, parse (serialize tree) = some tree

structure TabStorageEnv (τ ρ σ : Type) extends TreeText τ ρ σ where
  syn : CommentSyntax

namespace TabStorage

/-- `NON_TREE_SESSION_KEYS`. -/
def nonTreeSessionKeys : List String :=
  ["workspace", "tabs", "activeTab", "database-view", "expanded-directories"]

def isReserved (key : String) : Bool := nonTreeSessionKeys.contains key

inductive TabTreeStorageStatus (τ : Type) where
  | notRead
  | absent
  | available
  | unreadable (rawValue : τ)
  | unavailable
  deriving DecidableEq

inductive TabTreeReadResult (τ ρ σ : Type) where
  | absent
  | available (value : StoredTree ρ σ)
  | unreadable (rawValue : τ)
  | unavailable

def TabTreeReadResult.status : TabTreeReadResult τ ρ σ → TabTreeStorageStatus τ
  | absent => .absent
  | available _ => .available
  | unreadable rawValue => .unreadable rawValue
  | unavailable => .unavailable

/-- What there is under one key. -/
structure TabSlot (τ ρ σ : Type) where
  bytes : Option τ
  pending : Option (StoredTree ρ σ)
  status : TabTreeStorageStatus τ

/-- Which calls of a read throw. -/
structure ReadFaults where
  getItem : Bool
  setItem : Bool

section

variable [DecidableEq τ] (env : TabStorageEnv τ ρ σ)

/-- The read gate: `parseTree` of a value, as it is stored again. -/
def gate (value : StoredTree ρ σ) : Option (StoredTree ρ σ) :=
  (parseTree env.syn value).map PersistedTree.stored

def canRehydrate (value : StoredTree ρ σ) : Bool := (gate env value).isSome

def decodeLegacyOrCompressed (raw : τ) : Option (StoredTree ρ σ) :=
  (env.parse raw).bind (gate env)

/-- A copy for another tab, which must not share the analysis of the first one. -/
def validatedClone (source : StoredTree ρ σ) : Option (StoredTree ρ σ) :=
  (decodeLegacyOrCompressed env (env.serialize source)).map fun copy ↦
    { copy with inProgress := some false, operationId := none }

namespace TabSlot

/-- What a read finds, and the bytes it leaves. -/
def readValue (reserved requireExisting migrate : Bool) (faults : ReadFaults)
    (slot : TabSlot τ ρ σ) : TabTreeReadResult τ ρ σ × Option τ :=
  match slot.pending with
  | some value => (.available value, slot.bytes)
  | none =>
      if reserved then (.absent, slot.bytes)
      else if faults.getItem then (.unavailable, slot.bytes)
      else
        match slot.bytes with
        | none => (if requireExisting then .unavailable else .absent, none)
        | some raw =>
            match decodeLegacyOrCompressed env raw with
            | none => (.unreadable raw, some raw)
            | some decoded =>
                (.available decoded,
                  if migrate && decide (raw ≠ env.serialize decoded) && !faults.setItem then
                    some (env.serialize decoded)
                  else some raw)

def readTreeValue (reserved requireExisting migrate recordStatus : Bool) (faults : ReadFaults)
    (slot : TabSlot τ ρ σ) : TabTreeReadResult τ ρ σ × TabSlot τ ρ σ :=
  let found := readValue env reserved requireExisting migrate faults slot
  (found.1,
    { slot with
      bytes := found.2
      status := if recordStatus then found.1.status else slot.status })

def readTree (reserved requireExisting : Bool) (faults : ReadFaults) (slot : TabSlot τ ρ σ) :
    TabTreeReadResult τ ρ σ × TabSlot τ ρ σ :=
  readTreeValue env reserved requireExisting true true faults slot

def inspectTree (reserved requireExisting : Bool) (faults : ReadFaults) (slot : TabSlot τ ρ σ) :
    TabTreeReadResult τ ρ σ × TabSlot τ ρ σ :=
  readTreeValue env reserved requireExisting false false faults slot

/-- Whether a write is refused; a key that has not been read is read first. -/
def writeBlocker (reserved : Bool) (faults : ReadFaults) (slot : TabSlot τ ρ σ) :
    Bool × TabSlot τ ρ σ :=
  if reserved then (true, slot)
  else
    let slot := if slot.status = .notRead then (readTree env reserved false faults slot).2 else slot
    (match slot.status with
      | .unreadable _ | .unavailable => true
      | _ => false, slot)

/-- A frame that is to be flushed. -/
def accept (value : StoredTree ρ σ) (slot : TabSlot τ ρ σ) : TabSlot τ ρ σ :=
  { slot with pending := some value, status := .available }

/-- A frame that is stored at once. -/
def persist (value : StoredTree ρ σ) (slot : TabSlot τ ρ σ) : TabSlot τ ρ σ :=
  { slot with bytes := some (env.serialize value), pending := none, status := .available }

/-- A call that may be refused, and what it leaves. -/
def write (reserved : Bool) (value : StoredTree ρ σ) (faults : ReadFaults) (slot : TabSlot τ ρ σ) :
    Bool × TabSlot τ ρ σ :=
  let found := writeBlocker env reserved faults slot
  if found.1 then (false, found.2) else (true, accept value found.2)

def seed (reserved : Bool) (value : StoredTree ρ σ) (faults : ReadFaults) (setFails : Bool)
    (slot : TabSlot τ ρ σ) : Bool × TabSlot τ ρ σ :=
  match gate env value with
  | none => (false, slot)
  | some value =>
      let found := writeBlocker env reserved faults slot
      if found.1 || setFails then (false, found.2) else (true, persist env value found.2)

/-- A flush of one entry, and whether it is reported as failed. -/
def flush (setFails : Bool) (slot : TabSlot τ ρ σ) : Bool × TabSlot τ ρ σ :=
  match slot.pending with
  | none => (false, slot)
  | some value =>
      if !canRehydrate env value || setFails then (true, slot)
      else (false, persist env value slot)

def remove (removeFails : Bool) (slot : TabSlot τ ρ σ) : TabSlot τ ρ σ :=
  if removeFails then { slot with pending := none }
  else ⟨none, none, .notRead⟩

def discardUnreadable (removeFails getFails : Bool) (slot : TabSlot τ ρ σ) : TabSlot τ ρ σ :=
  match slot.status with
  | .unreadable _ =>
      if removeFails then slot
      else if getFails then { slot with bytes := none }
      else ⟨none, none, .absent⟩
  | _ => slot

/-- A read for a copy leaves a gate that is closed as it is. -/
def readForClone (reserved requireExisting : Bool) (faults : ReadFaults) (slot : TabSlot τ ρ σ) :
    Option (StoredTree ρ σ) × TabSlot τ ρ σ :=
  match slot.status with
  | .unreadable _ | .unavailable => (none, slot)
  | _ =>
      let found := readTreeValue env reserved requireExisting false true faults slot
      (match found.1 with
        | .available value => validatedClone env value
        | _ => none, found.2)

end TabSlot

/-! ## The repository -/

/-- The calls of the repository, with those of the session storage that throw. -/
inductive TabAction (ρ σ : Type) where
  | readTree (tabId : String) (requireExisting : Bool) (faults : ReadFaults)
  | inspectTree (tabId : String) (requireExisting : Bool) (faults : ReadFaults)
  | write (tabId : String) (value : StoredTree ρ σ) (faults : ReadFaults)
  | seed (tabId : String) (value : StoredTree ρ σ) (faults : ReadFaults) (setFails : Bool)
  | clone (sourceTabId targetTabId : String) (requireExisting : Bool)
      (sourceFaults targetFaults : ReadFaults)
  | cloneDurable (sourceTabId targetTabId : String) (requireExisting : Bool)
      (sourceFaults targetFaults : ReadFaults) (setFails : Bool)
  | flush (setFails : String → Bool)
  | remove (tabId : String) (removeFails : Bool)
  | discardUnreadable (tabId : String) (removeFails getFails : Bool)

abbrev TabSlots (τ ρ σ : Type) := String → TabSlot τ ρ σ

/-- A copy into a frame of the target, and what was copied. -/
def clone (s : TabSlots τ ρ σ) (sourceTabId targetTabId : String) (requireExisting : Bool)
    (sourceFaults targetFaults : ReadFaults) : Option (StoredTree ρ σ) × TabSlots τ ρ σ :=
  let source := (s sourceTabId).readTree env (isReserved sourceTabId) requireExisting sourceFaults
  let s := Function.update s sourceTabId source.2
  match source.1 with
  | .available value =>
      match validatedClone env value with
      | some copy =>
          let written := (s targetTabId).write env (isReserved targetTabId) copy targetFaults
          (if written.1 then some copy else none, Function.update s targetTabId written.2)
      | none => (none, s)
  | _ => (none, s)

/-- A copy that is stored at once. -/
def cloneDurable (s : TabSlots τ ρ σ) (sourceTabId targetTabId : String) (requireExisting : Bool)
    (sourceFaults targetFaults : ReadFaults) (setFails : Bool) :
    Option (StoredTree ρ σ) × TabSlots τ ρ σ :=
  let source :=
    (s sourceTabId).readForClone env (isReserved sourceTabId) requireExisting sourceFaults
  let s := Function.update s sourceTabId source.2
  match source.1 with
  | some copy =>
      let seeded := (s targetTabId).seed env (isReserved targetTabId) copy targetFaults setFails
      (if seeded.1 then some copy else none, Function.update s targetTabId seeded.2)
  | none => (none, s)

/-- The keys that are reported as failed, and what is left. -/
def flush (s : TabSlots τ ρ σ) (setFails : String → Bool) : (String → Bool) × TabSlots τ ρ σ :=
  (fun tabId ↦ ((s tabId).flush env (setFails tabId)).1,
    fun tabId ↦ ((s tabId).flush env (setFails tabId)).2)

/-- The value a call accepts for a key, and what the call leaves. -/
def TabAction.run (s : TabSlots τ ρ σ) :
    TabAction ρ σ → Option (String × StoredTree ρ σ) × TabSlots τ ρ σ
  | readTree tabId requireExisting faults =>
      (none, Function.update s tabId
        ((s tabId).readTree env (isReserved tabId) requireExisting faults).2)
  | inspectTree tabId requireExisting faults =>
      (none, Function.update s tabId
        ((s tabId).inspectTree env (isReserved tabId) requireExisting faults).2)
  | write tabId value faults =>
      let written := (s tabId).write env (isReserved tabId) value faults
      (if written.1 then some (tabId, value) else none, Function.update s tabId written.2)
  | seed tabId value faults setFails =>
      let seeded := (s tabId).seed env (isReserved tabId) value faults setFails
      (if seeded.1 then some (tabId, value) else none, Function.update s tabId seeded.2)
  | clone sourceTabId targetTabId requireExisting sourceFaults targetFaults =>
      let cloned := TabStorage.clone env s sourceTabId targetTabId requireExisting sourceFaults
        targetFaults
      (cloned.1.map (targetTabId, ·), cloned.2)
  | cloneDurable sourceTabId targetTabId requireExisting sourceFaults targetFaults setFails =>
      let cloned := TabStorage.cloneDurable env s sourceTabId targetTabId requireExisting
        sourceFaults targetFaults setFails
      (cloned.1.map (targetTabId, ·), cloned.2)
  | flush setFails => (none, (TabStorage.flush env s setFails).2)
  | remove tabId removeFails =>
      (none, Function.update s tabId ((s tabId).remove removeFails))
  | discardUnreadable tabId removeFails getFails =>
      (none, Function.update s tabId ((s tabId).discardUnreadable removeFails getFails))

def TabAction.Removes (key : String) : TabAction ρ σ → Prop
  | remove tabId _ => tabId = key
  | discardUnreadable tabId _ _ => tabId = key
  | _ => False

/-- A call that has a new value for the key, or removes what is there. -/
def TabAction.Replaces (s : TabSlots τ ρ σ) (action : TabAction ρ σ) (key : String) : Prop :=
  action.Removes key ∨ ∃ value, (action.run env s).1 = some (key, value)

/-- The read gate repairs a value once and for all, as it does unless a comment has a command inside
the name of another one. -/
def Final (value : StoredTree ρ σ) : Prop :=
  ∀ repaired, gate env value = some repaired → gate env repaired = some repaired

/-- Values that are handed over are repaired once and for all. -/
def TabAction.Promised : TabAction ρ σ → Prop
  | write _ value _ => Final env value
  | seed _ value _ _ => Final env value
  | _ => True

/-- A page that has just been loaded: nothing is read and nothing is waiting. -/
def tabStorageMachine : Machine (TabSlots τ ρ σ) (TabAction ρ σ) where
  init s := ∀ tabId, (s tabId).pending = none ∧ (s tabId).status = .notRead ∧
    ∀ raw tree, (s tabId).bytes = some raw → env.parse raw = some tree → Final env tree
  step s action s' := s' = (action.run env s).2

end

end TabStorage

end EnCroissant
