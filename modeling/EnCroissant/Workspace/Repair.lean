import Mathlib

/-!
# Repairing a stored workspace

Every tab has an id and owns a stored tree, under a key of its own or under its
id.  Loading a workspace gives new ids and keys to the tabs whose id is no UUID
or is taken, or whose key is taken, and says which trees are to be copied.
-/

namespace EnCroissant

def maxWorkspaceTabs : ℕ := 100

def maxActiveTabIdLength : ℕ := 128

/-- The length of a string in UTF-16 code units. -/
def utf16Length (text : String) : ℕ :=
  (text.toList.map fun c ↦ if c.toNat < 0x10000 then 1 else 2).sum

/-- What the repair uses of the runtime: the UUID check, `crypto.randomUUID` call by call, and
the keys of the session storage. -/
structure WorkspaceEnv where
  isUuid : String → Bool
  randomUUID : ℕ → String
  isStored : String → Bool

inductive TabType where
  | new
  | play
  | analysis
  | puzzles
  deriving DecidableEq, Repr

/-- A tab; `content` is its name and the origin of its game. -/
structure Tab (ρ : Type) where
  content : ρ
  value : String
  treeKey : Option String
  type : TabType
  deriving DecidableEq

def getTabTreeKey {ρ : Type} (tab : Tab ρ) : String := tab.treeKey.getD tab.value

structure Workspace (ρ : Type) where
  tabs : List (Tab ρ)
  activeTab : String
  deriving DecidableEq

structure CloneTarget where
  sourceId : String
  logicalId : String
  puzzle : Bool
  targetId : String
  requireExisting : Bool
  deriving DecidableEq

structure WorkspaceRepairPlan (ρ : Type) where
  workspace : Workspace ρ
  unrepairedWorkspace : Workspace ρ
  cloneTargets : List CloneTarget
  deriving DecidableEq

/-- A stored object with an array of tabs; an entry that has not the shape of a tab is `none`. -/
structure StoredWorkspace (ρ : Type) where
  tabs : List (Option (Tab ρ))
  activeTab : Option String

namespace WorkspaceEnv

variable {ρ : Type} (env : WorkspaceEnv) (newTabContent : ρ)

/-! ## The schemas -/

def tabSchema (tab : Tab ρ) : Bool := tab.treeKey.all env.isUuid

/-- `workspaceInputSchema`: invalid tabs are left out, too many entries are refused. -/
def workspaceInputSchema (stored : StoredWorkspace ρ) : Option (List (Tab ρ) × Option String) :=
  if maxWorkspaceTabs < stored.tabs.length then none
  else some (stored.tabs.filterMap fun entry ↦ entry.filter env.tabSchema,
    stored.activeTab.filter fun id ↦ decide (utf16Length id ≤ maxActiveTabIdLength))

/-! ## New ids -/

def newWorkspaceIdFrom (reserved : List String) : (attempts : ℕ) → (drawn : ℕ) →
    Except String (String × ℕ)
  | 0, _ => .error "Could not allocate a unique tab ID."
  | attempts + 1, drawn =>
      let id := env.randomUUID drawn
      if id ∉ reserved ∧ env.isStored id = false then .ok (id, drawn + 1)
      else newWorkspaceIdFrom reserved attempts (drawn + 1)

def newWorkspaceId (reserved : List String) (drawn : ℕ) : Except String (String × ℕ) :=
  env.newWorkspaceIdFrom reserved 32 drawn

def newTab (used : List String) (drawn : ℕ) : Except String (Tab ρ × ℕ) := do
  let (id, drawn) ← env.newWorkspaceId used drawn
  return (⟨newTabContent, id, none, .new⟩, drawn)

def defaultWorkspace (drawn : ℕ) : Except String (Workspace ρ × ℕ) := do
  let (first, drawn) ← env.newTab newTabContent [] drawn
  return (⟨[first], first.value⟩, drawn)

/-! ## The repair -/

/-- The ids and tree keys given so far, the copies to make, and how many UUIDs were drawn. -/
structure RepairState where
  ids : List String
  treeKeys : List String
  cloneTargets : List CloneTarget
  drawn : ℕ

def repairTab (reserved : List String) (s : RepairState) (tab : Tab ρ) :
    Except String (Tab ρ × RepairState) := do
  let sourceId := getTabTreeKey tab
  let validId := env.isUuid tab.value && decide (tab.value ∉ s.ids)
  if validId && decide (sourceId ∉ s.treeKeys) then
    return (tab, { s with ids := tab.value :: s.ids, treeKeys := sourceId :: s.treeKeys })
  let (migratedId, drawn) ← env.newWorkspaceId (reserved ++ s.ids ++ s.treeKeys) s.drawn
  let cloneTarget : CloneTarget :=
    { sourceId := sourceId
      logicalId := tab.value
      puzzle := decide (tab.type = .puzzles)
      targetId := migratedId
      requireExisting := tab.treeKey.isSome }
  let repaired : Tab ρ :=
    { tab with
      value := if validId then tab.value else migratedId
      treeKey := if validId then some migratedId else none }
  return (repaired,
    { ids := repaired.value :: s.ids
      treeKeys := migratedId :: s.treeKeys
      cloneTargets := s.cloneTargets ++ [cloneTarget]
      drawn := drawn })

def repairTabs (reserved : List String) :
    List (Tab ρ) → RepairState → Except String (List (Tab ρ) × RepairState)
  | [], s => .ok ([], s)
  | tab :: candidates, s => do
      let (tab, s) ← env.repairTab reserved s tab
      let (tabs, s) ← repairTabs reserved candidates s
      return (tab :: tabs, s)

def reservedIds (candidates : List (Tab ρ)) : List String :=
  candidates.flatMap fun tab ↦ [tab.value, getTabTreeKey tab]

def resolveActiveTab (tabs : List (Tab ρ)) (first : Tab ρ) (legacyActive : Option String) :
    String :=
  match tabs.find? fun tab ↦ decide (some tab.value = legacyActive) with
  | some tab => tab.value
  | none => first.value

/-- The id that the active tab has after the repair. -/
def repairedActiveTab (candidates tabs : List (Tab ρ)) (first : Tab ρ)
    (legacyActive : Option String) : String :=
  match candidates.findIdx? fun tab ↦ decide (some tab.value = legacyActive) with
  | some index => (tabs.getD index first).value
  | none => first.value

def planFor (candidates : List (Tab ρ)) (legacyActive : Option String) (drawn : ℕ) :
    Except String (WorkspaceRepairPlan ρ × ℕ) := do
  let (tabs, s) ← env.repairTabs (reservedIds candidates) candidates ⟨[], [], [], drawn⟩
  match tabs with
  | [] =>
      let (first, drawn) ← env.newTab newTabContent s.ids s.drawn
      let workspace : Workspace ρ := ⟨[first], first.value⟩
      return (⟨workspace, ⟨[first], resolveActiveTab [first] first legacyActive⟩, s.cloneTargets⟩,
        drawn)
  | first :: rest =>
      let workspace : Workspace ρ :=
        ⟨first :: rest, repairedActiveTab candidates (first :: rest) first legacyActive⟩
      let unrepaired : Workspace ρ :=
        ⟨candidates, resolveActiveTab candidates (candidates.headD first) legacyActive⟩
      return (⟨workspace, unrepaired, s.cloneTargets⟩, s.drawn)

/-- The plan for a stored value, `none` being one that is no such object. -/
def planWorkspaceRepair (input : Option (StoredWorkspace ρ)) (drawn : ℕ) :
    Except String (WorkspaceRepairPlan ρ × ℕ) :=
  match input.bind env.workspaceInputSchema with
  | none => do
      let (workspace, drawn) ← env.defaultWorkspace newTabContent drawn
      return (⟨workspace, workspace, []⟩, drawn)
  | some (candidates, legacyActive) => env.planFor newTabContent candidates legacyActive drawn

end WorkspaceEnv

/-- A workspace as it is stored. -/
def Workspace.stored {ρ : Type} (workspace : Workspace ρ) : StoredWorkspace ρ :=
  ⟨workspace.tabs.map some, some workspace.activeTab⟩

end EnCroissant
