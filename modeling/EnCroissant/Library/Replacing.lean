import Mathlib

/-!
# Replacing a pattern in a list

A list is split at the matches of a pattern, from the left and without overlap,
and joined again with something else.  A list that shares nothing with what is
put in can occur in the result only where it has occurred before.
-/

namespace Replacing

variable {α : Type*} [DecidableEq α]

/-- The parts between the matches of a pattern that is not empty; `skip` counts what is left of
the match that the walk is in. -/
def splitFrom (value : List α) : ℕ → List α → List (List α)
  | _, [] => [[]]
  | skip + 1, _ :: text => splitFrom value skip text
  | 0, a :: text =>
      if value.isPrefixOf (a :: text) then [] :: splitFrom value (value.length - 1) text
      else
        match splitFrom value 0 text with
        | [] => [[a]]
        | part :: parts => (a :: part) :: parts

/-- An empty pattern matches in front of everything and at the end. -/
def split (value text : List α) : List (List α) :=
  if value = [] then [] :: (text.map fun a ↦ [a]) ++ [[]] else splitFrom value 0 text

def replace (value mark text : List α) : List α :=
  mark.intercalate (split value text)

/-! ## The parts of a split -/

variable {value text : List α}

theorem splitFrom_ne_nil (value : List α) (skip : ℕ) (text : List α) :
    splitFrom value skip text ≠ [] := by
  fun_induction splitFrom value skip text with
  | case1 => exact List.cons_ne_nil _ _
  | case2 skip a text ih => exact ih
  | case3 a text hstart ih => exact List.cons_ne_nil _ _
  | case4 a text hstart hnil ih => exact List.cons_ne_nil _ _
  | case5 a text hstart part parts hparts ih => exact List.cons_ne_nil _ _

omit [DecidableEq α] in
theorem intercalate_cons_cons (mark : List α) (a : α) (part : List α) (parts : List (List α)) :
    mark.intercalate ((a :: part) :: parts) = a :: mark.intercalate (part :: parts) := by
  cases parts with
  | nil => rfl
  | cons part' parts => rfl

omit [DecidableEq α] in
theorem intercalate_nil_cons (mark : List α) {parts : List (List α)} (hparts : parts ≠ []) :
    mark.intercalate ([] :: parts) = mark ++ mark.intercalate parts := by
  cases parts with
  | nil => exact absurd rfl hparts
  | cons part parts => rfl

/-- The parts joined with the pattern are the list again. -/
theorem intercalate_splitFrom (hvalue : value ≠ []) {skip : ℕ} (hskip : skip ≤ text.length) :
    value.intercalate (splitFrom value skip text) = text.drop skip := by
  fun_induction splitFrom value skip text with
  | case1 skip =>
      rw [List.drop_nil]
      rfl
  | case2 skip a text ih =>
      rw [List.drop_succ_cons]
      exact ih (Nat.le_of_succ_le_succ hskip)
  | case3 a text hstart ih =>
      obtain ⟨rest, hrest⟩ := List.isPrefixOf_iff_prefix.mp hstart
      have hlen := congrArg List.length hrest
      rw [List.length_append, List.length_cons] at hlen
      have hpos := List.length_pos_iff.mpr hvalue
      have hdrop : text.drop (value.length - 1) = rest := by
        have hdrop' := congrArg (List.drop value.length) hrest
        rw [List.drop_left] at hdrop'
        rw [hdrop', ← Nat.sub_add_cancel hpos, List.drop_succ_cons, Nat.add_sub_cancel]
      rw [intercalate_nil_cons _ (splitFrom_ne_nil _ _ _), ih (by omega), hdrop, hrest,
        List.drop_zero]
  | case4 a text hstart hnil ih => exact absurd hnil (splitFrom_ne_nil _ _ _)
  | case5 a text hstart part parts hparts ih =>
      have hjoin := ih (Nat.zero_le _)
      rw [hparts, List.drop_zero] at hjoin
      rw [intercalate_cons_cons, hjoin, List.drop_zero]

omit [DecidableEq α] in
theorem head_prefix_intercalate (mark part : List α) (parts : List (List α)) :
    part <+: mark.intercalate (part :: parts) := by
  cases parts with
  | nil => exact ⟨[], by simp [List.intercalate]⟩
  | cons part' parts => exact ⟨mark ++ mark.intercalate (part' :: parts), rfl⟩

/-- No part has a match. -/
theorem not_infix_of_mem_splitFrom (hvalue : value ≠ []) {skip : ℕ} {part : List α}
    (hpart : part ∈ splitFrom value skip text) :
    ¬value <:+: part := by
  fun_induction splitFrom value skip text generalizing part with
  | case1 =>
      obtain rfl := List.mem_singleton.mp hpart
      exact fun h ↦ hvalue (List.infix_nil.mp h)
  | case2 skip a text ih => exact ih hpart
  | case3 a text hstart ih =>
      rcases List.mem_cons.mp hpart with rfl | hpart
      · exact fun h ↦ hvalue (List.infix_nil.mp h)
      · exact ih hpart
  | case4 a text hstart hnil ih => exact absurd hnil (splitFrom_ne_nil _ _ _)
  | case5 a text hstart first parts hparts ih =>
      rcases List.mem_cons.mp hpart with rfl | hpart
      · intro h
        rcases List.infix_cons_iff.mp h with hfirst | hinner
        · have hjoin := intercalate_splitFrom hvalue (Nat.zero_le text.length)
          rw [hparts, List.drop_zero] at hjoin
          have hhead := head_prefix_intercalate value first parts
          rw [hjoin] at hhead
          have hall : value <+: a :: text := hfirst.trans (List.cons_prefix_cons.mpr ⟨rfl, hhead⟩)
          exact hstart (List.isPrefixOf_iff_prefix.mpr hall)
        · exact ih (hparts ▸ List.mem_cons_self) hinner
      · exact ih (hparts ▸ List.mem_cons_of_mem first hpart)

/-! ## What a mark leaves alone -/

omit [DecidableEq α] in
theorem infix_intercalate_of_mem (mark : List α) {part : List α} {parts : List (List α)}
    (h : part ∈ parts) :
    part <:+: mark.intercalate parts := by
  induction parts with
  | nil => cases h
  | cons first parts ih =>
      rcases List.mem_cons.mp h with rfl | h
      · exact (head_prefix_intercalate mark part parts).isInfix
      · cases parts with
        | nil => cases h
        | cons next parts =>
            have hrest : mark.intercalate (first :: next :: parts) =
                first ++ (mark ++ mark.intercalate (next :: parts)) := rfl
            rw [hrest]
            exact List.infix_append_of_infix_right
              (List.infix_append_of_infix_right (ih h))

/-- Neither lies in the other, and no end of one is a start of the other. -/
structure Apart (value mark : List α) : Prop where
  not_infix : ¬value <:+: mark
  not_contains : ¬mark <:+: value
  not_before : ∀ part, part ≠ [] → part <:+ value → ¬part <+: mark
  not_behind : ∀ part, part ≠ [] → part <+: value → ¬part <:+ mark

namespace Apart

variable {mark p s : List α}

omit [DecidableEq α] in
theorem ne_nil (h : Apart value mark) : value ≠ [] := by
  rintro rfl
  exact h.not_infix (List.nil_infix)

omit [DecidableEq α] in
/-- A start of what follows that reaches into the mark is none of the value's ends. -/
theorem not_prefix_append (h : Apart value mark) {part : List α} (hne : part ≠ [])
    (hsuffix : part <:+ value) :
    ¬part <+: mark ++ s := by
  intro hstart
  rcases List.prefix_or_prefix_of_prefix hstart (List.prefix_append mark s) with hle | hge
  · exact h.not_before part hne hsuffix hle
  · exact h.not_contains (hge.isInfix.trans hsuffix.isInfix)

omit [DecidableEq α] in
/-- What occurs around a mark occurs on one side of it. -/
theorem infix_of_infix_append (h : Apart value mark) (hinner : value <:+: p ++ (mark ++ s)) :
    value <:+: p ∨ value <:+: s := by
  rcases List.infix_append_iff_ne_nil.mp hinner with hp | hms | ⟨a, b, ha, hb, rfl, -, hb'⟩
  · exact .inl hp
  · rcases List.infix_append_iff_ne_nil.mp hms with hm | hs | ⟨a, b, ha, hb, rfl, ha', -⟩
    · exact absurd hm h.not_infix
    · exact .inr hs
    · exact absurd ha' (h.not_behind a ha (List.prefix_append a b))
  · exact absurd hb' (h.not_prefix_append hb (List.suffix_append a b))

omit [DecidableEq α] in
theorem infix_of_infix_intercalate (h : Apart value mark) {parts : List (List α)}
    (hinner : value <:+: mark.intercalate parts) :
    ∃ part ∈ parts, value <:+: part := by
  induction parts with
  | nil => exact absurd (List.infix_nil.mp hinner) h.ne_nil
  | cons first parts ih =>
      cases parts with
      | nil =>
          have hone : mark.intercalate [first] = first := by simp [List.intercalate]
          rw [hone] at hinner
          exact ⟨first, List.mem_singleton.mpr rfl, hinner⟩
      | cons next parts =>
          rcases h.infix_of_infix_append hinner with hfirst | hrest
          · exact ⟨first, List.mem_cons_self, hfirst⟩
          · obtain ⟨part, hpart, hin⟩ := ih hrest
            exact ⟨part, List.mem_cons_of_mem first hpart, hin⟩

end Apart

theorem split_of_ne_nil (hvalue : value ≠ []) : split value text = splitFrom value 0 text :=
  if_neg hvalue

/-- What has been replaced is gone. -/
theorem not_infix_replace {mark : List α} (h : Apart value mark) (text : List α) :
    ¬value <:+: replace value mark text := by
  intro hinner
  obtain ⟨part, hpart, hin⟩ := h.infix_of_infix_intercalate hinner
  rw [split_of_ne_nil h.ne_nil] at hpart
  exact not_infix_of_mem_splitFrom h.ne_nil hpart hin

/-- Replacing one value creates no occurrence of another. -/
theorem infix_of_infix_replace {mark other : List α} (hvalue : value ≠ [])
    (h : Apart other mark) (hinner : other <:+: replace value mark text) :
    other <:+: text := by
  obtain ⟨part, hpart, hin⟩ := h.infix_of_infix_intercalate hinner
  rw [split_of_ne_nil hvalue] at hpart
  have hjoin := intercalate_splitFrom hvalue (Nat.zero_le text.length)
  rw [List.drop_zero] at hjoin
  have hpart' := infix_intercalate_of_mem value hpart
  rw [hjoin] at hpart'
  exact hin.trans hpart'

/-! ## Replacing from the left -/

theorem splitFrom_eq_drop (value : List α) (skip : ℕ) (text : List α) :
    splitFrom value skip text = splitFrom value 0 (text.drop skip) := by
  induction skip generalizing text with
  | zero => rw [List.drop_zero]
  | succ skip ih =>
      cases text with
      | nil => rfl
      | cons a text =>
          rw [splitFrom, List.drop_succ_cons]
          exact ih text

theorem replace_nil (hvalue : value ≠ []) (mark : List α) : replace value mark [] = [] := by
  rw [replace, split_of_ne_nil hvalue]
  rfl

theorem replace_append (hvalue : value ≠ []) (mark rest : List α) :
    replace value mark (value ++ rest) = mark ++ replace value mark rest := by
  rw [replace, replace, split_of_ne_nil hvalue, split_of_ne_nil hvalue]
  cases value with
  | nil => exact absurd rfl hvalue
  | cons a value =>
      have hstart : (a :: value).isPrefixOf (a :: (value ++ rest)) = true :=
        List.isPrefixOf_iff_prefix.mpr ⟨rest, rfl⟩
      rw [List.cons_append, splitFrom, if_pos hstart, splitFrom_eq_drop, List.length_cons,
        Nat.add_sub_cancel, List.drop_left, intercalate_nil_cons _ (splitFrom_ne_nil _ _ _)]

theorem replace_cons_of_not_match (hvalue : value ≠ []) {a : α}
    (hstart : ¬value <+: a :: text) (mark : List α) :
    replace value mark (a :: text) = a :: replace value mark text := by
  rw [replace, replace, split_of_ne_nil hvalue, split_of_ne_nil hvalue, splitFrom,
    if_neg fun h ↦ hstart (List.isPrefixOf_iff_prefix.mp h)]
  cases hparts : splitFrom value 0 text with
  | nil => exact absurd hparts (splitFrom_ne_nil _ _ _)
  | cons part parts => exact intercalate_cons_cons mark a part parts

theorem replace_of_not_infix (hvalue : value ≠ []) (hinner : ¬value <:+: text) (mark : List α) :
    replace value mark text = text := by
  induction text with
  | nil => exact replace_nil hvalue mark
  | cons a text ih =>
      rw [replace_cons_of_not_match hvalue (fun h ↦ hinner h.isInfix),
        ih fun h ↦ hinner (List.infix_cons_iff.mpr (.inr h))]

/-- No match starts in a mark. -/
theorem replace_mark_append {mark : List α} (h : Apart value mark) (rest : List α) :
    replace value mark (mark ++ rest) = mark ++ replace value mark rest := by
  have htail : ∀ tail, tail <:+ mark →
      replace value mark (tail ++ rest) = tail ++ replace value mark rest := by
    intro tail htail
    induction tail with
    | nil => rfl
    | cons a tail ih =>
        have hstart : ¬value <+: a :: (tail ++ rest) := by
          intro hstart
          rcases List.prefix_or_prefix_of_prefix hstart
            (List.prefix_append (a :: tail) rest) with hle | hge
          · exact h.not_infix (hle.isInfix.trans htail.isInfix)
          · exact h.not_behind _ (List.cons_ne_nil a tail) hge htail
        rw [List.cons_append, replace_cons_of_not_match h.ne_nil hstart,
          ih ((List.suffix_cons a tail).trans htail), List.cons_append]
  exact htail mark List.suffix_rfl

end Replacing
