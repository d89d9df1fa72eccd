import EnCroissant.Game.Controller

/-!
# Engine options

Options as the renderer stores them, with their checks, the option that is in
effect for each name, and the values a launch resolved them to.
-/

namespace EnCroissant.Engine

inductive ResourceKind where
  | file
  | directory
  deriving DecidableEq, Repr

structure ResourceHandle where
  id : String
  kind : ResourceKind
  displayName : String
  deriving DecidableEq, Repr

inductive EngineOption where
  | string (name value : String)
  | resource (name : String) (resources : List ResourceHandle)
  deriving DecidableEq, Repr

structure ResolvedEngineOption where
  name : String
  value : String
  resourceValues : List String
  deriving DecidableEq, Repr

structure EngineOptions where
  fen : String
  moves : List String
  extraOptions : List EngineOption
  deriving DecidableEq, Repr

def EngineOptions.default : EngineOptions := ⟨"", [], []⟩

def maxEngineOptionResources : ℕ := 32

def toAsciiLowercase (text : String) : List Char := text.toList.map Char.toLower

def expectedResourceKind (name : String) : Option ResourceKind :=
  let name := toAsciiLowercase name
  if "path".toList <:+: name then some .directory
  else if "file".toList <:+: name then some .file
  else none

def isFilesystemPath (value : String) : Bool :=
  let value := trim value.toList
  ["/", "\\\\", "./", "../", ".\\", "..\\", "~/", "~\\"].any (fun start ↦
    start.toList.isPrefixOf value) ||
    match value with
    | drive :: ':' :: separator :: _ => drive.isAlpha && (separator = '/' || separator = '\\')
    | _ => false

namespace EngineOption

def name : EngineOption → String
  | string name _ => name
  | resource name _ => name

/-- Display names are not part of a resource's identity. -/
def hasSameValue : EngineOption → EngineOption → Bool
  | resource name resources, resource name' resources' =>
      name = name' && resources.map (fun r ↦ (r.id, r.kind)) = resources'.map fun r ↦ (r.id, r.kind)
  | option, option' => option = option'

def validate : EngineOption → Except Error Unit
  | string name value => do
      validateUciText "option name" name
      validateUciText "option value" value
      if isFilesystemPath value ∨ (expectedResourceKind name).isSome then
        throw (.invalidInput (name ++ " must use an opaque engine resource"))
  | resource name resources => do
      validateUciText "option name" name
      match expectedResourceKind name with
      | none => throw (.invalidInput (name ++ " is not a file or directory option"))
      | some expected =>
          if resources = [] ∨ maxEngineOptionResources < resources.length then
            throw (.resourceLimit ("engine resource option requires 1 to " ++
              maxEngineOptionResources.repr ++ " resources"))
          if resources.any fun resource ↦ resource.kind ≠ expected then
            throw (.invalidInput (name ++ " received the wrong engine resource kind"))

end EngineOption

/-- An option replaces an earlier one of its name, in that one's place. -/
def putOption (effective : List EngineOption) (option : EngineOption) : List EngineOption :=
  if effective.any fun previous ↦ previous.name = option.name then
    effective.map fun previous ↦ if previous.name = option.name then option else previous
  else effective ++ [option]

def effectiveEngineOptions (options : List EngineOption) : List EngineOption :=
  options.foldl putOption []

/-- The last option of a name. -/
def lastNamed (options : List EngineOption) (name : String) : Option EngineOption :=
  options.reverse.find? fun option ↦ option.name = name

/-- Every option of the list has a name of its own. -/
def UniqueNames (options : List EngineOption) : Prop :=
  (options.map EngineOption.name).Nodup

/-- The option of a name, where names are unique. -/
def named (options : List EngineOption) (name : String) : Option EngineOption :=
  options.find? fun option ↦ option.name = name

/-! ## The values of resources -/

/-- The native value of a resource, and the separator between several. -/
structure PathAuthority where
  uciValue : String → ResourceKind → Except Error String
  separator : String

def resolveEngineOption (authority : PathAuthority) (option : EngineOption) :
    Except Error ResolvedEngineOption := do
  option.validate
  match option with
  | .string name value => .ok ⟨name, value, []⟩
  | .resource name resources => do
      let values ← (resources.map fun r ↦ (r.id, r.kind)).mapM fun r ↦ authority.uciValue r.1 r.2
      .ok ⟨name, authority.separator.intercalate values, values⟩

def resolveEngineOptionLeases (authority : PathAuthority) (options : List EngineOption) :
    Except Error (List ResolvedEngineOption) :=
  (effectiveEngineOptions options).mapM (resolveEngineOption authority)

/-! ## Advertised defaults -/

inductive UciOptionConfig where
  | check (name : String) (default : Option Bool)
  | spin (name : String) (default : Option ℤ)
  | combo (name : String) (default : Option String)
  | string (name : String) (default : Option String)
  | button (name : String)
  deriving DecidableEq, Repr

namespace UciOptionConfig

def name : UciOptionConfig → String
  | check name _ => name
  | spin name _ => name
  | combo name _ => name
  | string name _ => name
  | button name => name

def defaultValue : UciOptionConfig → Option String
  | check _ default => default.map toString
  | spin _ default => default.map toString
  | combo _ default => default
  | string _ default => default
  | button _ => none

/-- The default, where it could be sent as an option. -/
def validDefault (config : UciOptionConfig) : Option String :=
  config.defaultValue.filter fun value ↦ (EngineOption.string config.name value).validate.isOk

end UciOptionConfig

/-- The collected map: a later option of a name replaces an earlier one. -/
def advertisedDefault (config : List UciOptionConfig) (name : String) : Option String :=
  (config.reverse.find? fun option ↦ option.name = name ∧ option.validDefault.isSome).bind
    UciOptionConfig.validDefault

/-! ## Effective options -/

section

variable {options effective : List EngineOption} {option : EngineOption} {name : String}

theorem name_of_named (h : named options name = some option) : option.name = name := by
  simpa only [decide_eq_true_eq] using List.find?_some h

theorem mem_of_named (h : named options name = some option) : option ∈ options :=
  List.mem_of_find?_eq_some h

theorem named_eq_none : named options name = none ↔ ∀ option ∈ options, option.name ≠ name := by
  rw [named, List.find?_eq_none]
  simp only [decide_eq_true_eq]

theorem UniqueNames.named_of_mem (h : UniqueNames options) (hmem : option ∈ options) :
    named options option.name = some option := by
  cases hnamed : named options option.name with
  | none => exact absurd rfl (named_eq_none.mp hnamed option hmem)
  | some found =>
      rw [List.inj_on_of_nodup_map h (mem_of_named hnamed) hmem (name_of_named hnamed)]

theorem name_replace (previous option : EngineOption) :
    (if previous.name = option.name then option else previous).name = previous.name := by
  split_ifs with h
  · exact h.symm
  · rfl

theorem any_name_iff :
    (effective.any fun previous ↦ previous.name = name) = true ↔
      name ∈ effective.map EngineOption.name := by
  rw [List.any_eq_true, List.mem_map]
  simp only [decide_eq_true_eq]

theorem names_putOption (effective : List EngineOption) (option : EngineOption) :
    (putOption effective option).map EngineOption.name =
      if option.name ∈ effective.map EngineOption.name then effective.map EngineOption.name
      else effective.map EngineOption.name ++ [option.name] := by
  rw [putOption]
  split_ifs with h h' h'
  · rw [List.map_map]
    exact List.map_congr_left fun previous _ ↦ name_replace previous option
  · exact absurd (any_name_iff.mp h) h'
  · exact absurd (any_name_iff.mpr h') h
  · rw [List.map_append]
    rfl

theorem UniqueNames.putOption (h : UniqueNames effective) (option : EngineOption) :
    UniqueNames (putOption effective option) := by
  rw [UniqueNames, names_putOption]
  split_ifs with hmem
  · exact h
  · refine List.nodup_append.mpr ⟨h, List.nodup_singleton _, fun a ha b hb ↦ ?_⟩
    rw [List.mem_singleton.mp hb]
    exact fun heq ↦ hmem (heq ▸ ha)

theorem named_putOption (effective : List EngineOption) (option : EngineOption) (name : String) :
    named (putOption effective option) name =
      if option.name = name then some option else named effective name := by
  rw [putOption]
  split_ifs with hany hname hname
  · have hfind : named (effective.map fun previous ↦
        if previous.name = option.name then option else previous) name =
        (named effective name).map fun previous ↦
          if previous.name = option.name then option else previous := by
      rw [named, List.find?_map]
      simp only [Function.comp_def, name_replace]
      rfl
    rw [hfind]
    obtain ⟨previous, hmem, hprevious⟩ := List.mem_map.mp (any_name_iff.mp hany)
    cases hnamed : named effective name with
    | none => exact absurd (hprevious.trans hname) (named_eq_none.mp hnamed previous hmem)
    | some found =>
        rw [Option.map_some, if_pos ((name_of_named hnamed).trans hname.symm)]
  · rw [named, List.find?_map]
    simp only [Function.comp_def, name_replace]
    change (named effective name).map _ = named effective name
    cases hnamed : named effective name with
    | none => rfl
    | some found =>
        have hfound : found.name ≠ option.name := by
          rw [name_of_named hnamed]
          exact fun heq ↦ hname heq.symm
        rw [Option.map_some, if_neg hfound]
  · have hnone : named effective name = none := by
      refine named_eq_none.mpr fun previous hmem hprevious ↦ hany (any_name_iff.mpr ?_)
      exact List.mem_map.mpr ⟨previous, hmem, hprevious.trans hname.symm⟩
    rw [named, List.find?_append, ← named, hnone]
    simp [hname]
  · rw [named, List.find?_append, ← named]
    simp [hname]

theorem uniqueNames_effective (options : List EngineOption) :
    UniqueNames (effectiveEngineOptions options) := by
  have hfold : ∀ effective, UniqueNames effective →
      UniqueNames (options.foldl EnCroissant.Engine.putOption effective) := by
    induction options with
    | nil => exact fun effective h ↦ h
    | cons option options ih => exact fun effective h ↦ ih _ (h.putOption option)
  exact hfold [] List.nodup_nil

theorem lastNamed_append (options : List EngineOption) (option : EngineOption) (name : String) :
    lastNamed (options ++ [option]) name =
      if option.name = name then some option else lastNamed options name := by
  rw [lastNamed, List.reverse_append]
  by_cases hname : option.name = name <;> simp [hname, lastNamed]

/-- The effective option of a name is the last one of that name. -/
theorem named_effective (options : List EngineOption) (name : String) :
    named (effectiveEngineOptions options) name = lastNamed options name := by
  induction options using List.reverseRecOn with
  | nil => rfl
  | append_singleton options option ih =>
      rw [effectiveEngineOptions, List.foldl_append, List.foldl_cons, List.foldl_nil,
        named_putOption, ← effectiveEngineOptions, ih, lastNamed_append]

theorem lastNamed_filter (options : List EngineOption) (dropped name : String) :
    lastNamed (options.filter fun option ↦ option.name ≠ dropped) name =
      if name = dropped then none else lastNamed options name := by
  rw [lastNamed, ← List.filter_reverse, lastNamed]
  induction options.reverse with
  | nil => simp
  | cons option rest ih =>
      by_cases hdropped : option.name = dropped
      · rw [List.filter_cons_of_neg (by simpa using hdropped), ih]
        split_ifs with hname
        · rfl
        · rw [List.find?_cons_of_neg]
          simpa [hdropped] using fun heq : dropped = name ↦ hname heq.symm
      · rw [List.filter_cons_of_pos (by simpa using hdropped)]
        by_cases hname : option.name = name
        · have hne : name ≠ dropped := hname ▸ hdropped
          simp [hname, hne]
        · rw [List.find?_cons_of_neg (by simpa using hname),
            List.find?_cons_of_neg (by simpa using hname), ih]

theorem EngineOption.name_of_hasSameValue {option' : EngineOption}
    (h : option.hasSameValue option' = true) : option.name = option'.name := by
  cases option with
  | string name value =>
      have heq : EngineOption.string name value = option' := by
        simpa [EngineOption.hasSameValue] using h
      rw [heq]
  | resource name resources =>
      cases option' with
      | string name' value' => simp [EngineOption.hasSameValue] at h
      | resource name' resources' =>
          simp only [EngineOption.hasSameValue, Bool.and_eq_true, decide_eq_true_eq] at h
          exact h.1

/-- The identities of resources. -/
def resourceKeys (resources : List ResourceHandle) : List (String × ResourceKind) :=
  resources.map fun r ↦ (r.id, r.kind)

theorem validate_resource (name : String) {resources resources' : List ResourceHandle}
    (h : resourceKeys resources = resourceKeys resources') :
    (EngineOption.resource name resources).validate =
      (EngineOption.resource name resources').validate := by
  have hlength : resources.length = resources'.length := by
    simpa only [resourceKeys, List.length_map] using congrArg List.length h
  have hnil : resources = [] ↔ resources' = [] := by
    rw [← List.length_eq_zero_iff, hlength, List.length_eq_zero_iff]
  have hany : ∀ expected, (resources.any fun r ↦ r.kind ≠ expected) =
      resources'.any fun r ↦ r.kind ≠ expected := by
    intro expected
    have hkeys := congrArg (List.any · fun key ↦ key.2 ≠ expected) h
    simpa only [resourceKeys, List.any_map, Function.comp_def] using hkeys
  simp only [EngineOption.validate, hlength, hnil, hany]

theorem resolveEngineOption_of_hasSameValue {authority : PathAuthority} {option' : EngineOption}
    (h : option.hasSameValue option' = true) :
    resolveEngineOption authority option = resolveEngineOption authority option' := by
  cases option with
  | string name value =>
      have heq : EngineOption.string name value = option' := by
        simpa [EngineOption.hasSameValue] using h
      rw [heq]
  | resource name resources =>
      cases option' with
      | string name' value' => simp [EngineOption.hasSameValue] at h
      | resource name' resources' =>
          simp only [EngineOption.hasSameValue, Bool.and_eq_true, decide_eq_true_eq] at h
          obtain ⟨rfl, hkeys⟩ := h
          simp only [resolveEngineOption, validate_resource name hkeys, hkeys]

theorem name_of_resolveEngineOption {authority : PathAuthority} {resolved : ResolvedEngineOption}
    (h : resolveEngineOption authority option = .ok resolved) :
    resolved.name = option.name := by
  obtain ⟨-, -, hvalue⟩ := bind_eq_ok h
  cases option with
  | string name value =>
      cases hvalue
      rfl
  | resource name resources =>
      obtain ⟨values, -, hok⟩ := bind_eq_ok hvalue
      cases hok
      rfl

theorem name_of_lastNamed (h : lastNamed options name = some option) : option.name = name := by
  simpa only [decide_eq_true_eq] using List.find?_some h

end

end EnCroissant.Engine
