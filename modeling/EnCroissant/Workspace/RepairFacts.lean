import EnCroissant.Workspace.Repair

/-!
# What the repair of a workspace keeps

Tab by tab: against the tabs before it a repaired tab has an id and a tree key
of its own, it is the stored tab where that one could keep both, and otherwise
what is new about it is new to the whole workspace.
-/

namespace EnCroissant

namespace WorkspaceEnv

variable {ρ : Type} {env : WorkspaceEnv}

/-! ## New ids -/

theorem newWorkspaceIdFrom_cases (env : WorkspaceEnv) (reserved : List String)
    (attempts drawn : ℕ) :
    (∃ n ≥ drawn, env.newWorkspaceIdFrom reserved attempts drawn =
        .ok (env.randomUUID n, n + 1) ∧ env.randomUUID n ∉ reserved) ∨
      env.newWorkspaceIdFrom reserved attempts drawn =
          .error "Could not allocate a unique tab ID." ∧
        ∀ i < attempts, env.randomUUID (drawn + i) ∈ reserved ∨
          env.isStored (env.randomUUID (drawn + i)) = true := by
  induction attempts generalizing drawn with
  | zero => exact .inr ⟨rfl, fun i hi ↦ absurd hi (Nat.not_lt_zero i)⟩
  | succ attempts ih =>
      rw [newWorkspaceIdFrom]
      split_ifs with hfree
      · exact .inl ⟨drawn, le_rfl, rfl, hfree.1⟩
      · rcases ih (drawn + 1) with ⟨n, hn, hok, hnew⟩ | ⟨herror, htaken⟩
        · exact .inl ⟨n, (Nat.le_succ drawn).trans hn, hok, hnew⟩
        · refine .inr ⟨herror, fun i hi ↦ ?_⟩
          cases i with
          | zero =>
              rw [not_and_or, not_not, Bool.not_eq_false] at hfree
              exact hfree
          | succ i =>
              have hlater := htaken i (Nat.lt_of_succ_lt_succ hi)
              rwa [Nat.add_right_comm] at hlater

/-- All of 32 UUIDs in a row are taken: by the stored workspace, by an earlier draw, or by a key
of the storage. -/
def Exhausted (env : WorkspaceEnv) (reserved : List String) (start : ℕ) : Prop :=
  ∃ n ≥ start, ∀ i < 32, env.randomUUID (n + i) ∈ reserved ∨
    (∃ m, start ≤ m ∧ m < n ∧ env.randomUUID m = env.randomUUID (n + i)) ∨
      env.isStored (env.randomUUID (n + i)) = true

/-! ## One tab -/

/-- A repaired tab after the tabs `done`. -/
structure RepairsTab (env : WorkspaceEnv) (reserved : List String) (done : List (Tab ρ))
    (tab tab' : Tab ρ) : Prop where
  content : tab'.content = tab.content
  type : tab'.type = tab.type
  uuid : env.isUuid tab'.value = true
  schema : env.tabSchema tab = true → env.tabSchema tab' = true
  value_new : tab'.value ∉ done.map Tab.value
  key_new : getTabTreeKey tab' ∉ done.map getTabTreeKey
  value_fresh : tab'.value = tab.value ∨ tab'.value ∉ reserved
  key_fresh : tab' = tab ∨ getTabTreeKey tab' ∉ reserved
  kept_value : env.isUuid tab.value = true → tab.value ∉ done.map Tab.value →
    tab'.value = tab.value
  kept : env.isUuid tab.value = true → tab.value ∉ done.map Tab.value →
    getTabTreeKey tab ∉ done.map getTabTreeKey → tab' = tab

/-- The copy to make for a repaired tab: none where it has its key still. -/
def cloneTargetOf (tab tab' : Tab ρ) : Option CloneTarget :=
  if getTabTreeKey tab' = getTabTreeKey tab then none
  else some
    { sourceId := getTabTreeKey tab
      logicalId := tab.value
      puzzle := decide (tab.type = .puzzles)
      targetId := getTabTreeKey tab'
      requireExisting := tab.treeKey.isSome }

/-- The state after the tabs `done`, of which the new ids are drawn from `start` on. -/
structure Tracks (env : WorkspaceEnv) (reserved : List String) (start : ℕ) (done : List (Tab ρ))
    (s : RepairState) : Prop where
  ids : ∀ id, id ∈ s.ids ↔ id ∈ done.map Tab.value
  treeKeys : ∀ id, id ∈ s.treeKeys ↔ id ∈ done.map getTabTreeKey
  le : start ≤ s.drawn
  drawn : ∀ id, id ∈ s.ids ∨ id ∈ s.treeKeys →
    id ∈ reserved ∨ ∃ m, start ≤ m ∧ m < s.drawn ∧ env.randomUUID m = id

variable {reserved : List String} {start : ℕ} {done : List (Tab ρ)} {s : RepairState}
  {tab : Tab ρ}

theorem Tracks.exhausted (h : Tracks env reserved start done s)
    (htaken : ∀ i < 32, env.randomUUID (s.drawn + i) ∈ reserved ++ s.ids ++ s.treeKeys ∨
      env.isStored (env.randomUUID (s.drawn + i)) = true) :
    env.Exhausted reserved start := by
  refine ⟨s.drawn, h.le, fun i hi ↦ ?_⟩
  rcases htaken i hi with hmem | hstored
  · rw [List.append_assoc, List.mem_append, List.mem_append] at hmem
    rcases hmem with hreserved | hgiven
    · exact .inl hreserved
    · rcases h.drawn _ hgiven with hreserved | ⟨m, hm, hlt, heq⟩
      · exact .inl hreserved
      · exact .inr (.inl ⟨m, hm, hlt, heq⟩)
  · exact .inr (.inr hstored)

/-- An id that is in use: one of the stored ones, or a drawn one. -/
def Given (env : WorkspaceEnv) (reserved : List String) (start drawn : ℕ) (id : String) : Prop :=
  id ∈ reserved ∨ ∃ m, start ≤ m ∧ m < drawn ∧ env.randomUUID m = id

theorem Tracks.push (h : Tracks env reserved start done s) {tab' : Tab ρ} {s' : RepairState}
    (hids : s'.ids = tab'.value :: s.ids) (hkeys : s'.treeKeys = getTabTreeKey tab' :: s.treeKeys)
    (hdrawn : s.drawn ≤ s'.drawn) (hvalue : env.Given reserved start s'.drawn tab'.value)
    (hkey : env.Given reserved start s'.drawn (getTabTreeKey tab')) :
    Tracks env reserved start (done ++ [tab']) s' := by
  refine ⟨fun id ↦ ?_, fun id ↦ ?_, h.le.trans hdrawn, ?_⟩
  · rw [hids, List.mem_cons, h.ids, List.map_append, List.mem_append, List.map_singleton,
      List.mem_singleton, or_comm]
  · rw [hkeys, List.mem_cons, h.treeKeys, List.map_append, List.mem_append, List.map_singleton,
      List.mem_singleton, or_comm]
  · have hlater : ∀ id, id ∈ s.ids ∨ id ∈ s.treeKeys → env.Given reserved start s'.drawn id := by
      intro id hid
      rcases h.drawn id hid with hreserved | ⟨m, hm, hlt, heq⟩
      · exact .inl hreserved
      · exact .inr ⟨m, hm, hlt.trans_le hdrawn, heq⟩
    rintro id (hid | hid)
    · rw [hids] at hid
      rcases List.mem_cons.mp hid with rfl | hid
      · exact hvalue
      · exact hlater id (.inl hid)
    · rw [hkeys] at hid
      rcases List.mem_cons.mp hid with rfl | hid
      · exact hkey
      · exact hlater id (.inr hid)

/-- The tab that is given a new key, and a new id where it cannot keep its own. -/
def migrated (s : RepairState) (env : WorkspaceEnv) (tab : Tab ρ) (migratedId : String) : Tab ρ :=
  let validId := env.isUuid tab.value && decide (tab.value ∉ s.ids)
  { tab with
    value := if validId then tab.value else migratedId
    treeKey := if validId then some migratedId else none }

theorem getTabTreeKey_migrated (s : RepairState) (tab : Tab ρ) (migratedId : String) :
    getTabTreeKey (migrated s env tab migratedId) = migratedId := by
  rw [migrated, getTabTreeKey]
  dsimp only
  split_ifs <;> rfl

/-- What a tab becomes that cannot stay as it is. -/
theorem repairsTab_migrated (h : Tracks env reserved start done s) {migratedId : String}
    (huuid : env.isUuid migratedId = true) (hnew : migratedId ∉ reserved ++ s.ids ++ s.treeKeys)
    (hkeep : ¬(env.isUuid tab.value && decide (tab.value ∉ s.ids) &&
      decide (getTabTreeKey tab ∉ s.treeKeys)) = true) :
    RepairsTab env reserved done tab (migrated s env tab migratedId) := by
  rw [List.mem_append, List.mem_append, not_or, not_or] at hnew
  obtain ⟨⟨hnew, hids⟩, hkeys⟩ := hnew
  have hvalid : ∀ {P : Prop}, (env.isUuid tab.value = true → tab.value ∉ done.map Tab.value → P) →
      (env.isUuid tab.value && decide (tab.value ∉ s.ids)) = true → P := by
    intro P hP hvalid
    rw [Bool.and_eq_true, decide_eq_true_iff, h.ids] at hvalid
    exact hP hvalid.1 hvalid.2
  have hinvalid : env.isUuid tab.value = true → tab.value ∉ done.map Tab.value →
      (env.isUuid tab.value && decide (tab.value ∉ s.ids)) = true := by
    intro huuid hvalue
    rw [Bool.and_eq_true, decide_eq_true_iff, h.ids]
    exact ⟨huuid, hvalue⟩
  constructor
  · rfl
  · rfl
  · rw [migrated]
    dsimp only
    split_ifs with hid
    · exact hvalid (fun huuid _ ↦ huuid) hid
    · exact huuid
  · intro _
    rw [migrated, tabSchema]
    dsimp only
    split_ifs
    · exact huuid
    · rfl
  · rw [migrated]
    dsimp only
    split_ifs with hid
    · exact hvalid (fun _ hvalue ↦ hvalue) hid
    · rwa [← h.ids]
  · rwa [getTabTreeKey_migrated, ← h.treeKeys]
  · rw [migrated]
    dsimp only
    split_ifs with hid
    · exact .inl rfl
    · exact .inr hnew
  · rw [getTabTreeKey_migrated]
    exact .inr hnew
  · intro huuid hvalue
    rw [migrated]
    dsimp only
    rw [if_pos (hinvalid huuid hvalue)]
  · intro huuid hvalue hkey
    refine absurd ?_ hkeep
    rw [hinvalid huuid hvalue, Bool.true_and, decide_eq_true_iff, h.treeKeys]
    exact hkey

/-- What a tab becomes, and what is recorded of it. -/
theorem repairTab_cases (hrandom : ∀ n, env.isUuid (env.randomUUID n) = true)
    (hreserved : tab.value ∈ reserved ∧ getTabTreeKey tab ∈ reserved)
    (h : Tracks env reserved start done s) :
    (∃ tab' s', env.repairTab reserved s tab = .ok (tab', s') ∧
        RepairsTab env reserved done tab tab' ∧ Tracks env reserved start (done ++ [tab']) s' ∧
        s'.cloneTargets = s.cloneTargets ++ (cloneTargetOf tab tab').toList ∧
        (tab' = tab → s'.drawn = s.drawn)) ∨
      env.repairTab reserved s tab = .error "Could not allocate a unique tab ID." ∧
        env.Exhausted reserved start := by
  rw [repairTab]
  dsimp only
  by_cases hkeep : (env.isUuid tab.value && decide (tab.value ∉ s.ids) &&
      decide (getTabTreeKey tab ∉ s.treeKeys)) = true
  · rw [if_pos hkeep]
    rw [Bool.and_eq_true, Bool.and_eq_true, decide_eq_true_iff, decide_eq_true_iff, h.ids,
      h.treeKeys] at hkeep
    obtain ⟨⟨huuid, hvalue⟩, hkey⟩ := hkeep
    refine .inl ⟨tab, _, rfl, ?_, h.push rfl rfl le_rfl (.inl hreserved.1) (.inl hreserved.2),
      ?_,
      fun _ ↦ rfl⟩
    · exact ⟨rfl, rfl, huuid, id, hvalue, hkey, .inl rfl, .inl rfl, fun _ _ ↦ rfl,
        fun _ _ _ ↦ rfl⟩
    · rw [cloneTargetOf, if_pos rfl]
      exact (List.append_nil _).symm
  · rw [if_neg hkeep]
    rcases env.newWorkspaceIdFrom_cases (reserved ++ s.ids ++ s.treeKeys) 32 s.drawn with
      ⟨n, hn, hok, hnew⟩ | ⟨herror, htaken⟩
    · have hkey : getTabTreeKey (migrated s env tab (env.randomUUID n)) = env.randomUUID n :=
        getTabTreeKey_migrated s tab _
      have hrepairs := repairsTab_migrated h (hrandom n) hnew hkeep
      have hnot : env.randomUUID n ∉ reserved := fun hmem ↦
        hnew (List.mem_append_left _ (List.mem_append_left _ hmem))
      have hne : getTabTreeKey (migrated s env tab (env.randomUUID n)) ≠ getTabTreeKey tab := by
        rw [hkey]
        exact fun heq ↦ hnot (heq ▸ hreserved.2)
      have hgiven : env.Given reserved start (n + 1) (env.randomUUID n) :=
        .inr ⟨n, h.le.trans hn, Nat.lt_succ_self n, rfl⟩
      rw [newWorkspaceId, hok]
      refine .inl ⟨migrated s env tab (env.randomUUID n), _, rfl, hrepairs, ?_, ?_, ?_⟩
      · refine h.push rfl (by rw [hkey]) (hn.trans (Nat.le_succ n)) ?_ (by rw [hkey]; exact hgiven)
        rw [migrated]
        dsimp only
        split_ifs
        · exact .inl hreserved.1
        · exact hgiven
      · rw [cloneTargetOf, if_neg hne, hkey]
        rfl
      · exact fun heq ↦ absurd (congrArg getTabTreeKey heq) hne
    · rw [newWorkspaceId, herror]
      exact .inr ⟨rfl, h.exhausted htaken⟩

/-! ## All tabs -/

/-- Tab after tab is repaired, behind the tabs `done`. -/
inductive RepairsAll (env : WorkspaceEnv) (reserved : List String) :
    List (Tab ρ) → List (Tab ρ) → List (Tab ρ) → Prop
  | nil (done : List (Tab ρ)) : RepairsAll env reserved done [] []
  | cons {done : List (Tab ρ)} {tab tab' : Tab ρ} {candidates tabs : List (Tab ρ)} :
      RepairsTab env reserved done tab tab' →
      RepairsAll env reserved (done ++ [tab']) candidates tabs →
        RepairsAll env reserved done (tab :: candidates) (tab' :: tabs)

def cloneTargetsOf (candidates tabs : List (Tab ρ)) : List CloneTarget :=
  (candidates.zip tabs).filterMap fun pair ↦ cloneTargetOf pair.1 pair.2

theorem cloneTargetsOf_cons (tab tab' : Tab ρ) (candidates tabs : List (Tab ρ)) :
    cloneTargetsOf (tab :: candidates) (tab' :: tabs) =
      (cloneTargetOf tab tab').toList ++ cloneTargetsOf candidates tabs := by
  rw [cloneTargetsOf, List.zip_cons_cons, List.filterMap_cons]
  cases cloneTargetOf tab tab' with
  | none => rfl
  | some target => rfl

variable {candidates tabs : List (Tab ρ)}

theorem repairTabs_cases (hrandom : ∀ n, env.isUuid (env.randomUUID n) = true)
    (hreserved : ∀ tab ∈ candidates, tab.value ∈ reserved ∧ getTabTreeKey tab ∈ reserved)
    (h : Tracks env reserved start done s) :
    (∃ tabs s', env.repairTabs reserved candidates s = .ok (tabs, s') ∧
        RepairsAll env reserved done candidates tabs ∧
        Tracks env reserved start (done ++ tabs) s' ∧
        s'.cloneTargets = s.cloneTargets ++ cloneTargetsOf candidates tabs) ∨
      env.repairTabs reserved candidates s = .error "Could not allocate a unique tab ID." ∧
        env.Exhausted reserved start := by
  induction candidates generalizing done s with
  | nil =>
      refine .inl ⟨[], s, rfl, .nil done, ?_, (List.append_nil _).symm⟩
      rwa [List.append_nil]
  | cons tab candidates ih =>
      rw [repairTabs]
      rcases repairTab_cases hrandom (hreserved tab List.mem_cons_self) h with
        ⟨tab', s', hok, hrepairs, htracks, hclones, -⟩ | ⟨herror, hexhausted⟩
      · rw [hok]
        have hreserved' := fun tab htab ↦ hreserved tab (List.mem_cons_of_mem _ htab)
        rcases ih hreserved' htracks with
          ⟨tabs, s'', hok', hall, htracks', hclones'⟩ | ⟨herror, hexhausted⟩
        · refine .inl ⟨tab' :: tabs, s'', ?_, .cons hrepairs hall, ?_, ?_⟩
          · change (env.repairTabs reserved candidates s' >>= _) = _
            rw [hok']
            rfl
          · rwa [List.append_assoc] at htracks'
          · rw [hclones', hclones, cloneTargetsOf_cons, List.append_assoc]
        · refine .inr ⟨?_, hexhausted⟩
          change (env.repairTabs reserved candidates s' >>= _) = _
          rw [herror]
          rfl
      · rw [herror]
        exact .inr ⟨rfl, hexhausted⟩

/-- The tabs by their places: each is repaired behind the ones in front of it. -/
theorem RepairsAll.getElem? (h : RepairsAll env reserved done candidates tabs) :
    tabs.length = candidates.length ∧ ∀ i tab, candidates[i]? = some tab →
      ∃ tab', tabs[i]? = some tab' ∧ RepairsTab env reserved (done ++ tabs.take i) tab tab' := by
  induction h with
  | nil done => exact ⟨rfl, fun i tab hi ↦ by cases hi⟩
  | @cons done tab tab' candidates tabs hrepairs _ ih =>
      refine ⟨congrArg (· + 1) ih.1, fun i found hi ↦ ?_⟩
      cases i with
      | zero =>
          obtain rfl := Option.some.inj hi
          refine ⟨tab', rfl, ?_⟩
          rwa [List.take_zero, List.append_nil]
      | succ i =>
          obtain ⟨found', hfound', hrepairs'⟩ := ih.2 i found hi
          refine ⟨found', hfound', ?_⟩
          rwa [List.append_assoc] at hrepairs'

theorem RepairsAll.forall_mem (h : RepairsAll env reserved done candidates tabs) {P : Tab ρ → Prop}
    (hP : ∀ {done tab tab'}, tab ∈ candidates → RepairsTab env reserved done tab tab' → P tab') :
    ∀ tab ∈ tabs, P tab := by
  induction h with
  | nil done =>
      intro tab htab
      cases htab
  | @cons done tab tab' candidates tabs hrepairs _ ih =>
      intro found hfound
      rcases List.mem_cons.mp hfound with rfl | hfound
      · exact hP List.mem_cons_self hrepairs
      · exact ih (fun hmem ↦ hP (List.mem_cons_of_mem _ hmem)) found hfound

theorem nodup_concat {α : Type} {as : List α} {a : α} (h : as.Nodup) (ha : a ∉ as) :
    (as ++ [a]).Nodup := by
  rw [List.nodup_append]
  refine ⟨h, List.nodup_singleton a, ?_⟩
  rintro b hb c hc rfl
  obtain rfl := List.mem_singleton.mp hc
  exact ha hb

theorem RepairsAll.nodup (h : RepairsAll env reserved done candidates tabs)
    (hvalues : (done.map Tab.value).Nodup) (hkeys : (done.map getTabTreeKey).Nodup) :
    ((done ++ tabs).map Tab.value).Nodup ∧ ((done ++ tabs).map getTabTreeKey).Nodup := by
  induction h with
  | nil done =>
      rw [List.append_nil]
      exact ⟨hvalues, hkeys⟩
  | @cons done tab tab' candidates tabs hrepairs _ ih =>
      have hvalues' : ((done ++ [tab']).map Tab.value).Nodup := by
        rw [List.map_append]
        exact nodup_concat hvalues hrepairs.value_new
      have hkeys' : ((done ++ [tab']).map getTabTreeKey).Nodup := by
        rw [List.map_append]
        exact nodup_concat hkeys hrepairs.key_new
      have hall := ih hvalues' hkeys'
      rwa [List.append_assoc] at hall

theorem cloneTargetsOf_sublist (candidates tabs : List (Tab ρ)) :
    ((cloneTargetsOf candidates tabs).map CloneTarget.targetId).Sublist
      (tabs.map getTabTreeKey) := by
  induction candidates generalizing tabs with
  | nil => exact List.nil_sublist _
  | cons tab candidates ih =>
      cases tabs with
      | nil => exact List.nil_sublist _
      | cons tab' tabs =>
          rw [cloneTargetsOf_cons, List.map_append, List.map_cons, cloneTargetOf]
          split_ifs
          · exact (ih tabs).cons _
          · exact (ih tabs).cons_cons _

/-! ## A workspace that needs no repair -/

/-- What the repair leaves as it is. -/
structure Sound (env : WorkspaceEnv) (tabs : List (Tab ρ)) : Prop where
  uuids : ∀ tab ∈ tabs, env.isUuid tab.value = true
  values : (tabs.map Tab.value).Nodup
  keys : (tabs.map getTabTreeKey).Nodup

theorem repairTabs_of_sound (reserved : List String) (h : Sound env (done ++ candidates))
    (hids : ∀ id, id ∈ s.ids ↔ id ∈ done.map Tab.value)
    (hkeys : ∀ id, id ∈ s.treeKeys ↔ id ∈ done.map getTabTreeKey) :
    ∃ s', env.repairTabs reserved candidates s = .ok (candidates, s') ∧
      s'.cloneTargets = s.cloneTargets ∧ s'.drawn = s.drawn := by
  induction candidates generalizing done s with
  | nil => exact ⟨s, rfl, rfl, rfl⟩
  | cons tab candidates ih =>
      have hvalue : tab.value ∉ s.ids := by
        rw [hids]
        have hnodup := h.values
        rw [List.map_append, List.nodup_append] at hnodup
        exact fun hmem ↦ hnodup.2.2 _ hmem _ List.mem_cons_self rfl
      have hkey : getTabTreeKey tab ∉ s.treeKeys := by
        rw [hkeys]
        have hnodup := h.keys
        rw [List.map_append, List.nodup_append] at hnodup
        exact fun hmem ↦ hnodup.2.2 _ hmem _ List.mem_cons_self rfl
      have huuid := h.uuids tab (List.mem_append_right _ List.mem_cons_self)
      have hstep : env.repairTab reserved s tab = .ok (tab,
          { s with
            ids := tab.value :: s.ids
            treeKeys := getTabTreeKey tab :: s.treeKeys }) := by
        rw [repairTab]
        dsimp only
        rw [huuid, decide_eq_true hvalue, decide_eq_true hkey]
        rfl
      have happend : done ++ tab :: candidates = (done ++ [tab]) ++ candidates := by
        rw [List.append_assoc]
        rfl
      rw [happend] at h
      obtain ⟨s', hok, hclones, hdrawn⟩ := ih (s := { s with
          ids := tab.value :: s.ids
          treeKeys := getTabTreeKey tab :: s.treeKeys }) h
        (fun id ↦ by
          rw [List.mem_cons, hids, List.map_append, List.mem_append, List.map_singleton,
            List.mem_singleton, or_comm])
        (fun id ↦ by
          rw [List.mem_cons, hkeys, List.map_append, List.mem_append, List.map_singleton,
            List.mem_singleton, or_comm])
      refine ⟨s', ?_, hclones, hdrawn⟩
      rw [repairTabs, hstep]
      change (env.repairTabs reserved candidates _ >>= _) = _
      rw [hok]
      rfl

/-! ## The plan -/

/-- The tabs of a stored value that are valid on their own, none where the value is refused. -/
def candidatesOf (env : WorkspaceEnv) (input : Option (StoredWorkspace ρ)) : List (Tab ρ) :=
  ((input.bind env.workspaceInputSchema).map Prod.fst).getD []

theorem workspaceInputSchema_eq {stored : StoredWorkspace ρ}
    (hle : stored.tabs.length ≤ maxWorkspaceTabs) :
    env.workspaceInputSchema stored =
      some (stored.tabs.filterMap fun entry ↦ entry.filter env.tabSchema,
        stored.activeTab.filter fun id ↦ decide (utf16Length id ≤ maxActiveTabIdLength)) :=
  if_neg (not_lt.mpr hle)

/-- The schema takes a repaired workspace as it is. -/
theorem workspaceInputSchema_stored {workspace : Workspace ρ}
    (hle : workspace.tabs.length ≤ maxWorkspaceTabs)
    (hschema : ∀ tab ∈ workspace.tabs, env.tabSchema tab = true)
    (hactive : utf16Length workspace.activeTab ≤ maxActiveTabIdLength) :
    env.workspaceInputSchema workspace.stored =
      some (workspace.tabs, some workspace.activeTab) := by
  have hlen : workspace.stored.tabs.length ≤ maxWorkspaceTabs := by
    rw [Workspace.stored, List.length_map]
    exact hle
  have htabs : (workspace.tabs.map some).filterMap (fun entry ↦ entry.filter env.tabSchema) =
      workspace.tabs := by
    rw [List.filterMap_map]
    conv_rhs => rw [← List.filterMap_some (l := workspace.tabs)]
    refine List.filterMap_congr fun tab htab ↦ ?_
    rw [Function.comp_apply, Option.filter_some, if_pos (hschema tab htab)]
  rw [workspaceInputSchema_eq hlen]
  simp only [Workspace.stored, htabs, Option.filter_some, decide_eq_true hactive, if_true]

theorem exists_find?_of_mem {tabs : List (Tab ρ)} {id : String} (h : id ∈ tabs.map Tab.value) :
    ∃ tab, (tabs.find? fun tab ↦ decide (some tab.value = some id)) = some tab ∧
      tab.value = id := by
  obtain ⟨tab, htab, rfl⟩ := List.mem_map.mp h
  have hsome : (tabs.find? fun found ↦ decide (some found.value = some tab.value)).isSome :=
    List.find?_isSome.mpr ⟨tab, htab, decide_eq_true rfl⟩
  obtain ⟨found, hfound⟩ := Option.isSome_iff_exists.mp hsome
  have hvalue : decide (some found.value = some tab.value) = true :=
    List.find?_some (p := fun found : Tab ρ ↦ decide (some found.value = some tab.value)) hfound
  exact ⟨found, hfound, Option.some.inj (of_decide_eq_true hvalue)⟩

theorem repairedActiveTab_self {tabs : List (Tab ρ)} {id : String} (first : Tab ρ)
    (h : id ∈ tabs.map Tab.value) :
    repairedActiveTab tabs tabs first (some id) = id := by
  obtain ⟨tab, htab, rfl⟩ := List.mem_map.mp h
  have hsome : (tabs.findIdx? fun found ↦ decide (some found.value = some tab.value)).isSome := by
    rw [List.findIdx?_isSome, List.any_eq_true]
    exact ⟨tab, htab, decide_eq_true rfl⟩
  obtain ⟨index, hindex⟩ := Option.isSome_iff_exists.mp hsome
  obtain ⟨hlt, hfound, -⟩ := List.findIdx?_eq_some_iff_getElem.mp hindex
  rw [repairedActiveTab, hindex]
  dsimp only
  rw [List.getD_eq_getElem _ _ hlt]
  exact Option.some.inj (of_decide_eq_true hfound)

theorem repairedActiveTab_mem {candidates tabs : List (Tab ρ)} {first : Tab ρ}
    (hfirst : first ∈ tabs) (hlen : tabs.length = candidates.length)
    (legacyActive : Option String) :
    repairedActiveTab candidates tabs first legacyActive ∈ tabs.map Tab.value := by
  rw [repairedActiveTab]
  cases hindex : candidates.findIdx? fun tab ↦ decide (some tab.value = legacyActive) with
  | none => exact List.mem_map_of_mem hfirst
  | some index =>
      obtain ⟨hlt, -⟩ := List.findIdx?_eq_some_iff_getElem.mp hindex
      rw [← hlen] at hlt
      dsimp only
      rw [List.getD_eq_getElem _ _ hlt]
      exact List.mem_map_of_mem (List.getElem_mem hlt)

/-- A sound workspace is planned to stay as it is. -/
theorem planFor_of_sound (newTabContent : ρ) {first : Tab ρ} {rest : List (Tab ρ)} {id : String}
    (h : Sound env (first :: rest)) (hactive : id ∈ (first :: rest).map Tab.value) (drawn : ℕ) :
    env.planFor newTabContent (first :: rest) (some id) drawn =
      .ok (⟨⟨first :: rest, id⟩, ⟨first :: rest, id⟩, []⟩, drawn) := by
  have h' : Sound env ([] ++ first :: rest) := h
  obtain ⟨s', hok, hclones, hdrawn⟩ := repairTabs_of_sound (s := ⟨[], [], [], drawn⟩)
    (reservedIds (first :: rest)) h' (fun _ ↦ Iff.rfl) fun _ ↦ Iff.rfl
  obtain ⟨tab, hfind, hvalue⟩ := exists_find?_of_mem hactive
  rw [planFor, hok]
  change Except.ok (WorkspaceRepairPlan.mk ⟨first :: rest, repairedActiveTab (first :: rest)
    (first :: rest) first (some id)⟩ ⟨first :: rest, resolveActiveTab (first :: rest)
      ((first :: rest).headD first) (some id)⟩ s'.cloneTargets, s'.drawn) = _
  rw [repairedActiveTab_self first hactive, resolveActiveTab, hfind, hclones, hdrawn, ← hvalue]

/-- What the plan for a stored value promises. -/
structure ValidPlan (env : WorkspaceEnv) (newTabContent : ρ) (candidates : List (Tab ρ))
    (plan : WorkspaceRepairPlan ρ) : Prop where
  values : (plan.workspace.tabs.map Tab.value).Nodup
  keys : (plan.workspace.tabs.map getTabTreeKey).Nodup
  active : plan.workspace.activeTab ∈ plan.workspace.tabs.map Tab.value
  empty : candidates = [] →
    ∃ id, plan.workspace.tabs = [⟨newTabContent, id, none, .new⟩]
  length : candidates ≠ [] → plan.workspace.tabs.length = candidates.length
  tabs : ∀ i tab, candidates[i]? = some tab →
    ∃ tab', plan.workspace.tabs[i]? = some tab' ∧
      RepairsTab env (reservedIds candidates) (plan.workspace.tabs.take i) tab tab'
  clones : plan.cloneTargets = cloneTargetsOf candidates plan.workspace.tabs
  targets : (plan.cloneTargets.map CloneTarget.targetId).Nodup
  stays : ∀ drawn, env.planWorkspaceRepair newTabContent (some plan.workspace.stored) drawn =
    .ok (⟨plan.workspace, plan.workspace, []⟩, drawn)

section Plan

variable {newTabContent : ρ} {plan : WorkspaceRepairPlan ρ}

theorem stays_of_sound (hlength : ∀ id, env.isUuid id = true → utf16Length id ≤ 128)
    {first : Tab ρ} {rest : List (Tab ρ)} {id : String} (h : Sound env (first :: rest))
    (hactive : id ∈ (first :: rest).map Tab.value) (hle : (first :: rest).length ≤ maxWorkspaceTabs)
    (hschema : ∀ tab ∈ first :: rest, env.tabSchema tab = true) (drawn : ℕ) :
    env.planWorkspaceRepair newTabContent (some (Workspace.mk (first :: rest) id).stored) drawn =
      .ok (⟨⟨first :: rest, id⟩, ⟨first :: rest, id⟩, []⟩, drawn) := by
  obtain ⟨tab, htab, rfl⟩ := List.mem_map.mp hactive
  have hinput : env.workspaceInputSchema (Workspace.mk (first :: rest) tab.value).stored =
      some (first :: rest, some tab.value) :=
    workspaceInputSchema_stored hle hschema (hlength _ (h.uuids tab htab))
  rw [planWorkspaceRepair, Option.bind_some, hinput]
  exact planFor_of_sound newTabContent h hactive drawn

/-- The default workspace has one new tab. -/
theorem validPlan_newTab (hlength : ∀ id, env.isUuid id = true → utf16Length id ≤ 128)
    {id : String} (huuid : env.isUuid id = true) (unrepaired : Workspace ρ) :
    ValidPlan env newTabContent []
      ⟨⟨[⟨newTabContent, id, none, .new⟩], id⟩, unrepaired, []⟩ := by
  have hsound : Sound env [(⟨newTabContent, id, none, .new⟩ : Tab ρ)] := by
    refine ⟨fun tab htab ↦ ?_, List.nodup_singleton _, List.nodup_singleton _⟩
    obtain rfl := List.mem_singleton.mp htab
    exact huuid
  have hactive : id ∈ [(⟨newTabContent, id, none, .new⟩ : Tab ρ)].map Tab.value :=
    List.mem_singleton.mpr rfl
  have hschema : ∀ tab ∈ [(⟨newTabContent, id, none, .new⟩ : Tab ρ)],
      env.tabSchema tab = true := by
    intro tab htab
    obtain rfl := List.mem_singleton.mp htab
    rfl
  refine ⟨hsound.values, hsound.keys, hactive, fun _ ↦ ⟨id, rfl⟩, fun h ↦ absurd rfl h, ?_, rfl,
    List.nodup_nil, stays_of_sound hlength hsound hactive
      (by decide : 1 ≤ maxWorkspaceTabs) hschema⟩
  intro i tab hi
  cases hi

theorem validPlan_repaired (hlength : ∀ id, env.isUuid id = true → utf16Length id ≤ 128)
    {first : Tab ρ} {rest : List (Tab ρ)} (legacyActive : Option String)
    (unrepaired : Workspace ρ)
    (hall : RepairsAll env (reservedIds candidates) [] candidates (first :: rest))
    (hle : candidates.length ≤ maxWorkspaceTabs)
    (hschema : ∀ tab ∈ candidates, env.tabSchema tab = true) :
    ValidPlan env newTabContent candidates
      ⟨⟨first :: rest, repairedActiveTab candidates (first :: rest) first legacyActive⟩, unrepaired,
        cloneTargetsOf candidates (first :: rest)⟩ := by
  obtain ⟨hlen, hplaces⟩ := hall.getElem?
  obtain ⟨hvalues, hkeys⟩ := hall.nodup List.nodup_nil List.nodup_nil
  have huuids : ∀ tab ∈ first :: rest, env.isUuid tab.value = true :=
    hall.forall_mem fun _ hrepairs ↦ hrepairs.uuid
  have hschema' : ∀ tab ∈ first :: rest, env.tabSchema tab = true :=
    hall.forall_mem fun hmem hrepairs ↦ hrepairs.schema (hschema _ hmem)
  have hactive := repairedActiveTab_mem (List.mem_cons_self : first ∈ first :: rest) hlen
    legacyActive
  have hle' : (first :: rest).length ≤ maxWorkspaceTabs := hlen ▸ hle
  refine ⟨hvalues, hkeys, hactive, ?_, fun _ ↦ hlen, hplaces, rfl, ?_,
    stays_of_sound hlength ⟨huuids, hvalues, hkeys⟩ hactive hle' hschema'⟩
  · rintro rfl
    cases hlen
  · exact hkeys.sublist (cloneTargetsOf_sublist candidates (first :: rest))

end Plan

theorem newTab_cases (env : WorkspaceEnv) (newTabContent : ρ) (drawn : ℕ) :
    (∃ n, env.newTab newTabContent [] drawn =
        .ok (⟨newTabContent, env.randomUUID n, none, .new⟩, n + 1)) ∨
      env.newTab newTabContent [] drawn = .error "Could not allocate a unique tab ID." ∧
        env.Exhausted [] drawn := by
  rw [newTab, newWorkspaceId]
  rcases env.newWorkspaceIdFrom_cases [] 32 drawn with ⟨n, -, hok, -⟩ | ⟨herror, htaken⟩
  · rw [hok]
    exact .inl ⟨n, rfl⟩
  · rw [herror]
    refine .inr ⟨rfl, drawn, le_rfl, fun i hi ↦ ?_⟩
    rcases htaken i hi with hmem | hstored
    · cases hmem
    · exact .inr (.inr hstored)

theorem planFor_cases (hrandom : ∀ n, env.isUuid (env.randomUUID n) = true)
    (hlength : ∀ id, env.isUuid id = true → utf16Length id ≤ 128) (newTabContent : ρ)
    (hle : candidates.length ≤ maxWorkspaceTabs)
    (hschema : ∀ tab ∈ candidates, env.tabSchema tab = true) (legacyActive : Option String)
    (drawn : ℕ) :
    (∃ plan drawn', env.planFor newTabContent candidates legacyActive drawn = .ok (plan, drawn') ∧
        ValidPlan env newTabContent candidates plan) ∨
      env.planFor newTabContent candidates legacyActive drawn =
          .error "Could not allocate a unique tab ID." ∧
        env.Exhausted (reservedIds candidates) drawn := by
  have hreserved : ∀ tab ∈ candidates,
      tab.value ∈ reservedIds candidates ∧ getTabTreeKey tab ∈ reservedIds candidates := by
    intro tab htab
    exact ⟨List.mem_flatMap.mpr ⟨tab, htab, List.mem_cons_self⟩,
      List.mem_flatMap.mpr ⟨tab, htab, List.mem_cons_of_mem _ List.mem_cons_self⟩⟩
  have hstart : Tracks env (reservedIds candidates) drawn ([] : List (Tab ρ))
      ⟨[], [], [], drawn⟩ := by
    refine ⟨fun _ ↦ Iff.rfl, fun _ ↦ Iff.rfl, le_rfl, ?_⟩
    rintro id (hid | hid) <;> cases hid
  rw [planFor]
  rcases repairTabs_cases hrandom hreserved hstart with
    ⟨tabs, s', hok, hall, -, hclones⟩ | ⟨herror, hexhausted⟩
  · rw [hok]
    rw [List.nil_append] at hclones
    cases hall with
    | nil =>
        have hnone : s' = ⟨[], [], [], drawn⟩ := by
          cases hok
          rfl
        subst hnone
        rcases env.newTab_cases newTabContent drawn with ⟨n, hnew⟩ | ⟨herror, hexhausted⟩
        · have hplan : ValidPlan env newTabContent [] _ :=
            validPlan_newTab hlength (hrandom n)
              ⟨[⟨newTabContent, env.randomUUID n, none, .new⟩], resolveActiveTab
                [⟨newTabContent, env.randomUUID n, none, .new⟩]
                ⟨newTabContent, env.randomUUID n, none, .new⟩ legacyActive⟩
          refine .inl ⟨_, n + 1, ?_, hplan⟩
          change (env.newTab newTabContent [] drawn >>= _) = _
          rw [hnew]
          rfl
        · refine .inr ⟨?_, hexhausted⟩
          change (env.newTab newTabContent [] drawn >>= _) = _
          rw [herror]
          rfl
    | cons hrepairs hrest =>
        refine .inl ⟨_, _, rfl, ?_⟩
        rw [hclones]
        exact validPlan_repaired hlength legacyActive _ (.cons hrepairs hrest) hle hschema
  · rw [herror]
    exact .inr ⟨rfl, hexhausted⟩

/-- The plan for any stored value is valid, unless 32 random ids in a row are taken.  All tabs that
are valid on their own count, unless the value is refused for having too many. -/
theorem planWorkspaceRepair_valid (hrandom : ∀ n, env.isUuid (env.randomUUID n) = true)
    (hlength : ∀ id, env.isUuid id = true → utf16Length id ≤ 128) (newTabContent : ρ)
    (input : Option (StoredWorkspace ρ)) (drawn : ℕ) :
    (∀ stored, input = some stored → stored.tabs.length ≤ maxWorkspaceTabs →
      env.candidatesOf input = stored.tabs.filterMap fun entry ↦ entry.filter env.tabSchema) ∧
    ((∃ plan drawn', env.planWorkspaceRepair newTabContent input drawn = .ok (plan, drawn') ∧
        ValidPlan env newTabContent (env.candidatesOf input) plan) ∨
      env.planWorkspaceRepair newTabContent input drawn =
          .error "Could not allocate a unique tab ID." ∧
        env.Exhausted (reservedIds (env.candidatesOf input)) drawn) := by
  refine ⟨?_, ?_⟩
  · rintro stored rfl hle
    rw [candidatesOf, Option.bind_some, workspaceInputSchema_eq hle]
    rfl
  · rw [planWorkspaceRepair, candidatesOf]
    cases hinput : input.bind env.workspaceInputSchema with
    | none =>
        simp only [Option.map_none, Option.getD_none]
        rw [defaultWorkspace]
        rcases env.newTab_cases newTabContent drawn with ⟨n, hnew⟩ | ⟨herror, hexhausted⟩
        · rw [hnew]
          exact .inl ⟨_, _, rfl, validPlan_newTab hlength (hrandom n) _⟩
        · rw [herror]
          exact .inr ⟨rfl, hexhausted⟩
    | some parsed =>
        obtain ⟨candidates, legacyActive⟩ := parsed
        simp only [Option.map_some, Option.getD_some]
        obtain ⟨stored, -, hstored⟩ := Option.bind_eq_some_iff.mp hinput
        rw [workspaceInputSchema] at hstored
        split_ifs at hstored with htoo
        obtain ⟨rfl, rfl⟩ := Prod.mk.inj (Option.some.inj hstored)
        refine planFor_cases hrandom hlength newTabContent ?_ ?_ _ drawn
        · exact (List.length_filterMap_le _ _).trans (not_lt.mp htoo)
        · intro tab htab
          obtain ⟨entry, -, hentry⟩ := List.mem_filterMap.mp htab
          exact (Option.filter_eq_some_iff.mp hentry).2

end WorkspaceEnv

namespace TwoBoards

/-- Four UUIDs, drawn in turn. -/
def drawnUuid (n : ℕ) : String :=
  match n % 4 with
  | 0 => "0b9a4d7e-41c1-4f0e-9a54-6c2f1e7d8b30"
  | 1 => "1f3c5e79-8a2b-4d6c-b1e0-93f7a5c4d281"
  | 2 => "2d81b6f4-07e3-4a95-8c1d-5e9f3a7b6c02"
  | _ => "3e60c2a9-5b84-4e17-a2f3-0d7c8b1e9f46"

def env : WorkspaceEnv where
  isUuid id := decide (id ∈ [drawnUuid 0, drawnUuid 1, drawnUuid 2, drawnUuid 3])
  randomUUID := drawnUuid
  isStored _ := false

/-- Two boards under one id. -/
def twins : StoredWorkspace Unit :=
  ⟨[some ⟨(), drawnUuid 0, none, .analysis⟩, some ⟨(), drawnUuid 0, none, .play⟩],
    some (drawnUuid 0)⟩

theorem isUuid_drawnUuid (n : ℕ) : env.isUuid (drawnUuid n) = true := by
  have hmod : drawnUuid n = drawnUuid (n % 4) := by
    rw [drawnUuid, drawnUuid, Nat.mod_mod]
  have hlt : n % 4 < 4 := Nat.mod_lt n (by decide)
  rw [hmod]
  interval_cases n % 4 <;> decide

theorem utf16Length_of_isUuid (id : String) (h : env.isUuid id = true) :
    utf16Length id ≤ 128 := by
  have hmem : id ∈ [drawnUuid 0, drawnUuid 1, drawnUuid 2, drawnUuid 3] := of_decide_eq_true h
  fin_cases hmem <;> decide

theorem planWorkspaceRepair_valid_twins :
    (∃ plan drawn', env.planWorkspaceRepair () (some twins) 0 = .ok (plan, drawn') ∧
        WorkspaceEnv.ValidPlan env () (env.candidatesOf (some twins)) plan) ∨
      env.planWorkspaceRepair () (some twins) 0 =
          .error "Could not allocate a unique tab ID." ∧
        env.Exhausted (WorkspaceEnv.reservedIds (env.candidatesOf (some twins))) 0 :=
  (WorkspaceEnv.planWorkspaceRepair_valid isUuid_drawnUuid utf16Length_of_isUuid ()
    (some twins) 0).2

/-- One tab more than a workspace may hold. -/
def crowded : StoredWorkspace Unit :=
  ⟨List.replicate 101 (some ⟨(), drawnUuid 3, none, .analysis⟩), none⟩

/-- A stored value of 101 valid tabs is refused as a whole, and a new tab stands for all of them. -/
theorem planWorkspaceRepair_crowded :
    env.planWorkspaceRepair () (some crowded) 0 =
        .ok (⟨⟨[⟨(), drawnUuid 0, none, .new⟩], drawnUuid 0⟩,
          ⟨[⟨(), drawnUuid 0, none, .new⟩], drawnUuid 0⟩, []⟩, 1) ∧
      (∀ entry ∈ crowded.tabs, entry = some ⟨(), drawnUuid 3, none, .analysis⟩) ∧
      env.tabSchema (⟨(), drawnUuid 3, none, .analysis⟩ : Tab Unit) = true := by
  refine ⟨rfl, fun entry hentry ↦ List.eq_of_mem_replicate hentry, rfl⟩

end TwoBoards

end EnCroissant
