import Mathlib

/-!
# Memoised recursion with a seeded memo

A recursive function over a graph remembers its results.  Before it computes a
key it stores a seed for it, so a call that comes back to the key ends.  The
body of the function is a tree of calls: what it calls next may depend on the
results so far.

Keys that cannot reach a cycle get their exact value whatever was computed
before; a key on a cycle may see the seed of another one.
-/

/-- A computation that calls the function at some keys and then returns. -/
inductive Body (κ β : Type*) where
  | done (value : β)
  | call (key : κ) (next : β → Body κ β)

namespace MemoRecursion

variable {κ β : Type*}

abbrev Memo (κ β : Type*) := κ → Option β

/-- The keys a body may call. -/
inductive Calls : Body κ β → κ → Prop where
  | head (key : κ) (next : β → Body κ β) : Calls (.call key next) key
  | tail {key key' : κ} {next : β → Body κ β} (value : β) :
      Calls (next value) key' → Calls (.call key next) key'

/-- One step of the recursion, from a key to one it may call. -/
def Edge (body : κ → Body κ β) (key key' : κ) : Prop := Calls (body key) key'

/-- Runs a body with a function that reads and extends the memo. -/
def run (call : Memo κ β → κ → Option (Memo κ β × β)) :
    Body κ β → Memo κ β → Option (Memo κ β × β)
  | .done value, memo => some (memo, value)
  | .call key next, memo =>
      (call memo key).bind fun result ↦ run call (next result.2) result.1

/-- The result of a body when the calls return the values of an oracle. -/
def valueWith (oracle : κ → β) : Body κ β → β
  | .done value => value
  | .call key next => valueWith oracle (next (oracle key))

/-! ## The memo only grows -/

def Extends (memo memo' : Memo κ β) : Prop := ∀ key, memo key ≠ none → memo' key ≠ none

theorem run_extends {call : Memo κ β → κ → Option (Memo κ β × β)}
    (hcall : ∀ memo key result, call memo key = some result → Extends memo result.1)
    {b : Body κ β} {memo : Memo κ β} {result : Memo κ β × β}
    (h : run call b memo = some result) :
    Extends memo result.1 := by
  induction b generalizing memo with
  | done value =>
      rw [run] at h
      cases h
      exact fun _ hkey ↦ hkey
  | call key next ih =>
      rw [run, Option.bind_eq_some_iff] at h
      obtain ⟨first, hfirst, hrest⟩ := h
      exact fun k hk ↦ ih _ hrest k (hcall _ _ _ hfirst k hk)

/-- The number of keys without a stored value. -/
def missing (keys : Finset κ) (memo : Memo κ β) : ℕ :=
  (keys.filter fun key ↦ (memo key).isNone).card

theorem missing_mono (keys : Finset κ) {memo memo' : Memo κ β} (h : Extends memo memo') :
    missing keys memo' ≤ missing keys memo := by
  apply Finset.card_le_card
  intro key hkey
  rw [Finset.mem_filter, Option.isNone_iff_eq_none] at hkey ⊢
  refine ⟨hkey.1, ?_⟩
  by_contra hne
  exact h key hne hkey.2

theorem run_isSome {call : Memo κ β → κ → Option (Memo κ β × β)} (keys : Finset κ)
    (bound : ℕ)
    (hextends : ∀ memo key result, call memo key = some result → Extends memo result.1)
    (hcall : ∀ memo key, key ∈ keys → missing keys memo < bound → (call memo key).isSome)
    {b : Body κ β} (hcalls : ∀ key, Calls b key → key ∈ keys) {memo : Memo κ β}
    (hbound : missing keys memo < bound) :
    (run call b memo).isSome := by
  induction b generalizing memo with
  | done value => rfl
  | call key next ih =>
      have hfirst := hcall memo key (hcalls key (.head key next)) hbound
      obtain ⟨result, hresult⟩ := Option.isSome_iff_exists.mp hfirst
      rw [run, hresult, Option.bind_some]
      apply ih
      · exact fun k hk ↦ hcalls k (.tail _ hk)
      · have hmono := missing_mono keys (hextends memo key result hresult)
        omega

section Eval

variable [DecidableEq κ] (seed : β) (body : κ → Body κ β)

/-- The memoised recursion; it fails when the depth of the calls exceeds the
fuel. -/
def eval : ℕ → Memo κ β → κ → Option (Memo κ β × β)
  | 0, _, _ => none
  | fuel + 1, memo, key =>
      match memo key with
      | some value => some (memo, value)
      | none =>
          (run (eval fuel) (body key) (Function.update memo key (some seed))).map fun result ↦
            (Function.update result.1 key (some result.2), result.2)

/-- Evaluates the keys of a list one after the other. -/
def evalAll (fuel : ℕ) : List κ → Memo κ β → Option (Memo κ β)
  | [], memo => some memo
  | key :: keys, memo =>
      (eval seed body fuel memo key).bind fun result ↦ evalAll fuel keys result.1

variable {seed body}

theorem eval_memo {fuel : ℕ} {memo : Memo κ β} {key : κ} {value : β}
    (h : memo key = some value) :
    eval seed body (fuel + 1) memo key = some (memo, value) := by
  rw [eval, h]

theorem eval_fresh {fuel : ℕ} {memo memo' : Memo κ β} {key : κ} {value : β}
    (hfresh : memo key = none) (h : eval seed body (fuel + 1) memo key = some (memo', value)) :
    ∃ inner, run (eval seed body fuel) (body key) (Function.update memo key (some seed)) =
        some (inner, value) ∧ memo' = Function.update inner key (some value) := by
  rw [eval, hfresh, Option.map_eq_some_iff] at h
  obtain ⟨result, hrun, hresult⟩ := h
  cases hresult
  exact ⟨result.1, hrun, rfl⟩

theorem eval_extends (fuel : ℕ) {memo : Memo κ β} {key : κ} {result : Memo κ β × β}
    (h : eval seed body fuel memo key = some result) :
    Extends memo result.1 ∧ result.1 key = some result.2 := by
  induction fuel generalizing memo key result with
  | zero => cases h
  | succ fuel ih =>
      obtain ⟨memo', value⟩ := result
      cases hkey : memo key with
      | some stored =>
          rw [eval_memo hkey] at h
          cases h
          exact ⟨fun _ hk ↦ hk, hkey⟩
      | none =>
          obtain ⟨inner, hrun, rfl⟩ := eval_fresh hkey h
          refine ⟨?_, Function.update_self ..⟩
          intro k hk
          simp only
          by_cases hkk : k = key
          · rw [hkk, Function.update_self]
            exact Option.some_ne_none value
          · rw [Function.update_of_ne hkk]
            apply run_extends (fun memo key result hcall ↦ (ih hcall).1) hrun
            rw [Function.update_of_ne hkk]
            exact hk

/-! ## Enough fuel -/

theorem missing_update {keys : Finset κ} {memo : Memo κ β} {key : κ} (value : β)
    (hmem : key ∈ keys) (hkey : memo key = none) :
    missing keys (Function.update memo key (some value)) < missing keys memo := by
  apply Finset.card_lt_card
  rw [Finset.ssubset_iff_of_subset]
  · refine ⟨key, ?_, ?_⟩
    · rw [Finset.mem_filter, hkey]
      exact ⟨hmem, rfl⟩
    · rw [Finset.mem_filter, Function.update_self]
      rintro ⟨-, h⟩
      cases h
  · intro k hk
    rw [Finset.mem_filter] at hk ⊢
    refine ⟨hk.1, ?_⟩
    by_cases hkk : k = key
    · rw [hkk, hkey]
      rfl
    · have hnone := hk.2
      rw [Function.update_of_ne hkk] at hnone
      exact hnone

/-- With more fuel than there are keys to store, the recursion returns. -/
theorem eval_isSome {keys : Finset κ}
    (hkeys : ∀ key ∈ keys, ∀ key', Edge body key key' → key' ∈ keys) (fuel : ℕ)
    {memo : Memo κ β} {key : κ} (hmem : key ∈ keys) (hfuel : missing keys memo < fuel) :
    (eval seed body fuel memo key).isSome := by
  induction fuel generalizing memo key with
  | zero => omega
  | succ fuel ih =>
      cases hkey : memo key with
      | some value =>
          rw [eval_memo hkey]
          rfl
      | none =>
          have hless := missing_update seed hmem hkey
          have hbound : missing keys (Function.update memo key (some seed)) < fuel := by omega
          rw [eval, hkey, Option.isSome_map]
          exact run_isSome keys fuel (fun _ _ _ h ↦ (eval_extends fuel h).1)
            (fun memo key hk hb ↦ ih hk hb) (hkeys key hmem) hbound

theorem evalAll_isSome {keys : Finset κ}
    (hkeys : ∀ key ∈ keys, ∀ key', Edge body key key' → key' ∈ keys) {fuel : ℕ}
    {order : List κ} (horder : ∀ key ∈ order, key ∈ keys) {memo : Memo κ β}
    (hfuel : missing keys memo < fuel) :
    (evalAll seed body fuel order memo).isSome := by
  induction order generalizing memo with
  | nil => rfl
  | cons key order ih =>
      have hfirst : (eval seed body fuel memo key).isSome :=
        eval_isSome hkeys fuel (horder key List.mem_cons_self) hfuel
      obtain ⟨result, hresult⟩ := Option.isSome_iff_exists.mp hfirst
      rw [evalAll, hresult, Option.bind_some]
      apply ih (fun k hk ↦ horder k (List.mem_cons_of_mem key hk))
      have hmono := missing_mono keys (eval_extends fuel hresult).1
      omega

/-! ## Exact values -/

/-- The key cannot be called again below itself, however deep. -/
abbrev Grounded (body : κ → Body κ β) (key : κ) : Prop :=
  Acc (fun key' key ↦ Edge body key key') key

omit [DecidableEq κ] in
theorem Grounded.of_edge {key key' : κ} (h : Grounded body key) (hedge : Edge body key key') :
    Grounded body key' :=
  Acc.inv h hedge

omit [DecidableEq κ] in
theorem Grounded.not_cycle {key : κ} (h : Grounded body key) :
    ¬ Relation.TransGen (Edge body) key key := by
  induction h with
  | intro key _ ih =>
      intro hcycle
      obtain ⟨key', hedge, hback⟩ := Relation.TransGen.head'_iff.mp hcycle
      exact ih key' hedge (Relation.TransGen.tail' hback hedge)

omit [DecidableEq κ] in
/-- On finitely many keys, a key that reaches no cycle is grounded. -/
theorem grounded_of_no_cycle {keys : Finset κ} {key : κ}
    (hkeys : ∀ key ∈ keys, ∀ key', Edge body key key' → key' ∈ keys) (hmem : key ∈ keys)
    (hcycle : ∀ key', Relation.ReflTransGen (Edge body) key key' →
      ¬ Relation.TransGen (Edge body) key' key') :
    Grounded body key := by
  have hreach : ∀ key', Relation.ReflTransGen (Edge body) key key' → key' ∈ keys := by
    intro key' h
    induction h with
    | refl => exact hmem
    | tail _ hedge ih => exact hkeys _ ih _ hedge
  let Below := {key' // Relation.ReflTransGen (Edge body) key key'}
  let r : Below → Below → Prop := fun a b ↦ Relation.TransGen (Edge body) b.1 a.1
  have hfinite : Finite Below := (keys.finite_toSet.subset hreach).to_subtype
  have htrans : IsTrans Below r := ⟨fun a b c hab hbc ↦ Relation.TransGen.trans hbc hab⟩
  have hirrefl : Std.Irrefl r := ⟨fun a ↦ hcycle a.1 a.2⟩
  have hwf : WellFounded r := Finite.wellFounded_of_trans_of_irrefl r
  have hgrounded : ∀ a : Below, Grounded body a.1 := by
    intro a
    induction a using hwf.induction with
    | _ a ih =>
        apply Acc.intro
        intro key' hedge
        exact ih ⟨key', a.2.tail hedge⟩ (.single hedge)
  exact hgrounded ⟨key, .refl⟩

open Classical in
/-- The value of a grounded key, computed without a memo. -/
noncomputable def exactValue (seed : β) (body : κ → Body κ β) (key : κ) : β :=
  if h : Grounded body key then
    WellFounded.fixF
      (fun key value ↦
        valueWith (fun key' ↦ if hedge : Edge body key key' then value key' hedge else seed)
          (body key))
      key h
  else seed

omit [DecidableEq κ] in
theorem valueWith_congr {oracle oracle' : κ → β} {b : Body κ β}
    (h : ∀ key, Calls b key → oracle key = oracle' key) :
    valueWith oracle b = valueWith oracle' b := by
  induction b with
  | done value => rfl
  | call key next ih =>
      rw [valueWith, valueWith, ← h key (.head key next)]
      exact ih _ fun k hk ↦ h k (.tail _ hk)

omit [DecidableEq κ] in
theorem exactValue_eq {key : κ} (h : Grounded body key) :
    exactValue seed body key = valueWith (exactValue seed body) (body key) := by
  rw [exactValue, dif_pos h, WellFounded.fixF_eq]
  apply valueWith_congr
  intro key' hedge
  have hedge' : Edge body key key' := hedge
  rw [dif_pos hedge', exactValue, dif_pos (h.of_edge hedge')]

/-- The stored values of grounded keys are exact, those in progress apart. -/
def Sound (seed : β) (body : κ → Body κ β) (inProgress : Set κ) (memo : Memo κ β) : Prop :=
  ∀ key, Grounded body key → key ∉ inProgress → ∀ value, memo key = some value →
    value = exactValue seed body key

omit [DecidableEq κ] in
theorem run_sound {call : Memo κ β → κ → Option (Memo κ β × β)} {inProgress : Set κ}
    {b : Body κ β}
    (hcall : ∀ memo key result, Calls b key → Sound seed body inProgress memo →
      call memo key = some result → Sound seed body inProgress result.1 ∧
        (Grounded body key → result.2 = exactValue seed body key))
    {memo : Memo κ β} {result : Memo κ β × β} (hsound : Sound seed body inProgress memo)
    (h : run call b memo = some result) :
    Sound seed body inProgress result.1 ∧
      ((∀ key, Calls b key → Grounded body key) →
        result.2 = valueWith (exactValue seed body) b) := by
  induction b generalizing memo with
  | done value =>
      rw [run] at h
      cases h
      exact ⟨hsound, fun _ ↦ rfl⟩
  | call key next ih =>
      rw [run, Option.bind_eq_some_iff] at h
      obtain ⟨first, hfirst, hrest⟩ := h
      obtain ⟨hsound', hvalue⟩ := hcall memo key first (.head key next) hsound hfirst
      obtain ⟨hsound'', hvalue'⟩ := ih first.2
        (fun memo k result hk ↦ hcall memo k result (.tail _ hk)) hsound' hrest
      refine ⟨hsound'', fun hgrounded ↦ ?_⟩
      rw [valueWith, ← hvalue (hgrounded key (.head key next))]
      exact hvalue' fun k hk ↦ hgrounded k (.tail _ hk)

/-- Evaluating a key keeps the memo sound, and gives a grounded key its exact
value, as long as no grounded key in progress can be reached. -/
theorem eval_sound (fuel : ℕ) {inProgress : Set κ} {memo : Memo κ β} {key : κ}
    {result : Memo κ β × β}
    (hprogress : ∀ k ∈ inProgress, Grounded body k →
      ¬ Relation.ReflTransGen (Edge body) key k)
    (hsound : Sound seed body inProgress memo)
    (h : eval seed body fuel memo key = some result) :
    Sound seed body inProgress result.1 ∧
      (Grounded body key → result.2 = exactValue seed body key) := by
  induction fuel generalizing inProgress memo key result with
  | zero => cases h
  | succ fuel ih =>
      obtain ⟨memo', value⟩ := result
      cases hkey : memo key with
      | some stored =>
          rw [eval_memo hkey] at h
          cases h
          refine ⟨hsound, fun hgrounded ↦ ?_⟩
          apply hsound key hgrounded _ _ hkey
          intro hmem
          exact hprogress key hmem hgrounded .refl
      | none =>
          obtain ⟨inner, hrun, rfl⟩ := eval_fresh hkey h
          have hsound' : Sound seed body (insert key inProgress)
              (Function.update memo key (some seed)) := by
            intro k hk hnot v hv
            rw [Set.mem_insert_iff, not_or] at hnot
            rw [Function.update_of_ne hnot.1] at hv
            exact hsound k hk hnot.2 v hv
          have hcall : ∀ m k r, Calls (body key) k →
              Sound seed body (insert key inProgress) m →
              eval seed body fuel m k = some r →
              Sound seed body (insert key inProgress) r.1 ∧
                (Grounded body k → r.2 = exactValue seed body k) := by
            intro m k r hk hm hr
            apply ih _ hm hr
            intro i hi hgrounded hreach
            rcases Set.mem_insert_iff.mp hi with rfl | hi
            · exact hgrounded.not_cycle (Relation.TransGen.head' hk hreach)
            · exact hprogress i hi hgrounded (.head hk hreach)
          obtain ⟨hinner, hvalue⟩ := run_sound hcall hsound' hrun
          have hexact : Grounded body key → value = exactValue seed body key := by
            intro hgrounded
            rw [exactValue_eq hgrounded]
            exact hvalue fun k hk ↦ hgrounded.of_edge hk
          refine ⟨?_, hexact⟩
          intro k hk hnot v hv
          simp only at hv
          by_cases hkk : k = key
          · subst hkk
            rw [Function.update_self, Option.some.injEq] at hv
            rw [← hv]
            exact hexact hk
          · rw [Function.update_of_ne hkk] at hv
            apply hinner k hk _ v hv
            rw [Set.mem_insert_iff, not_or]
            exact ⟨hkk, hnot⟩

theorem evalAll_sound {fuel : ℕ} {order : List κ} {memo memo' : Memo κ β}
    (hsound : Sound seed body ∅ memo) (h : evalAll seed body fuel order memo = some memo') :
    Sound seed body ∅ memo' ∧ Extends memo memo' ∧ ∀ key ∈ order, memo' key ≠ none := by
  induction order generalizing memo with
  | nil =>
      rw [evalAll] at h
      cases h
      exact ⟨hsound, fun _ hk ↦ hk, fun _ hk ↦ by cases hk⟩
  | cons first order ih =>
      rw [evalAll, Option.bind_eq_some_iff] at h
      obtain ⟨result, hresult, hrest⟩ := h
      have hnone : ∀ k ∈ (∅ : Set κ), Grounded body k →
          ¬ Relation.ReflTransGen (Edge body) first k := fun k hk ↦ absurd hk (Set.notMem_empty k)
      obtain ⟨hsound', -⟩ := eval_sound fuel hnone hsound hresult
      obtain ⟨hextends, hfirst⟩ := eval_extends fuel hresult
      obtain ⟨hsound'', hextends', hstored⟩ := ih hsound' hrest
      refine ⟨hsound'', fun k hk ↦ hextends' k (hextends k hk), ?_⟩
      intro key hkey
      rcases List.mem_cons.mp hkey with rfl | hkey
      · apply hextends' key
        rw [hfirst]
        exact Option.some_ne_none _
      · exact hstored key hkey

/-- After the keys of a list were evaluated, in whatever order, the grounded
ones have their exact values. -/
theorem evalAll_exact {fuel : ℕ} {order : List κ} {memo : Memo κ β}
    (h : evalAll seed body fuel order (fun _ ↦ none) = some memo)
    {key : κ} (hmem : key ∈ order) (hgrounded : Grounded body key) :
    memo key = some (exactValue seed body key) := by
  have hempty : Sound seed body ∅ (fun _ ↦ none) := by
    intro k _ _ value hvalue
    cases hvalue
  obtain ⟨hsound, -, hstored⟩ := evalAll_sound hempty h
  obtain ⟨value, hvalue⟩ := Option.ne_none_iff_exists'.mp (hstored key hmem)
  rw [hvalue, hsound key hgrounded (Set.notMem_empty key) value hvalue]

/-! ## What is stored -/

omit [DecidableEq κ] in
/-- A result of a body, whatever its calls return. -/
inductive Yields : Body κ β → β → Prop where
  | done (value : β) : Yields (.done value) value
  | call (key : κ) {next : β → Body κ β} (answer : β) {value : β} :
      Yields (next answer) value → Yields (.call key next) value

/-- The stored values are results of their bodies, those in progress apart. -/
def Stores (body : κ → Body κ β) (inProgress : Set κ) (memo : Memo κ β) : Prop :=
  ∀ key, key ∉ inProgress → ∀ value, memo key = some value → Yields (body key) value

omit [DecidableEq κ] in
theorem run_stores {call : Memo κ β → κ → Option (Memo κ β × β)} {inProgress : Set κ}
    (hcall : ∀ memo key result, Stores body inProgress memo → call memo key = some result →
      Stores body inProgress result.1)
    {b : Body κ β} {memo : Memo κ β} {result : Memo κ β × β}
    (hstores : Stores body inProgress memo) (h : run call b memo = some result) :
    Stores body inProgress result.1 ∧ Yields b result.2 := by
  induction b generalizing memo with
  | done value =>
      rw [run] at h
      cases h
      exact ⟨hstores, .done value⟩
  | call key next ih =>
      rw [run, Option.bind_eq_some_iff] at h
      obtain ⟨first, hfirst, hrest⟩ := h
      obtain ⟨hstores', hyields⟩ := ih first.2 (hcall _ _ _ hstores hfirst) hrest
      exact ⟨hstores', .call key first.2 hyields⟩

theorem eval_stores (fuel : ℕ) {inProgress : Set κ} {memo : Memo κ β} {key : κ}
    {result : Memo κ β × β} (hstores : Stores body inProgress memo)
    (h : eval seed body fuel memo key = some result) :
    Stores body inProgress result.1 := by
  induction fuel generalizing inProgress memo key result with
  | zero => cases h
  | succ fuel ih =>
      obtain ⟨memo', value⟩ := result
      cases hkey : memo key with
      | some stored =>
          rw [eval_memo hkey] at h
          cases h
          exact hstores
      | none =>
          obtain ⟨inner, hrun, rfl⟩ := eval_fresh hkey h
          have hstores' : Stores body (insert key inProgress)
              (Function.update memo key (some seed)) := by
            intro k hk v hv
            rw [Set.mem_insert_iff, not_or] at hk
            rw [Function.update_of_ne hk.1] at hv
            exact hstores k hk.2 v hv
          obtain ⟨hinner, hyields⟩ := run_stores (fun _ _ _ hm hr ↦ ih hm hr) hstores' hrun
          intro k hk v hv
          dsimp only at hv
          by_cases hkk : k = key
          · subst hkk
            rw [Function.update_self, Option.some.injEq] at hv
            exact hv ▸ hyields
          · rw [Function.update_of_ne hkk] at hv
            refine hinner k ?_ v hv
            rw [Set.mem_insert_iff, not_or]
            exact ⟨hkk, hk⟩

/-- After an evaluation every stored value is a result of its body. -/
theorem evalAll_stores {fuel : ℕ} {order : List κ} {memo memo' : Memo κ β}
    (hstores : Stores body ∅ memo) (h : evalAll seed body fuel order memo = some memo') :
    Stores body ∅ memo' := by
  induction order generalizing memo with
  | nil =>
      rw [evalAll] at h
      cases h
      exact hstores
  | cons first order ih =>
      rw [evalAll, Option.bind_eq_some_iff] at h
      obtain ⟨result, hresult, hrest⟩ := h
      exact ih (eval_stores fuel hstores hresult) hrest

theorem evalAll_yields {fuel : ℕ} {order : List κ} {memo : Memo κ β}
    (h : evalAll seed body fuel order (fun _ ↦ none) = some memo) {key : κ} {value : β}
    (hvalue : memo key = some value) :
    Yields (body key) value :=
  evalAll_stores (fun _ _ _ hnone ↦ by cases hnone) h key (Set.notMem_empty key) value hvalue

theorem evalAll_ne_none {fuel : ℕ} {order : List κ} {memo : Memo κ β}
    (h : evalAll seed body fuel order (fun _ ↦ none) = some memo) {key : κ} (hkey : key ∈ order) :
    memo key ≠ none :=
  (evalAll_sound (fun _ _ _ _ hnone ↦ by cases hnone) h).2.2 key hkey

end Eval

end MemoRecursion
