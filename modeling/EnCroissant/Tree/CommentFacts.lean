import EnCroissant.Tree.Comments

/-!
# Commands that do not nest

A comment is a sequence of commands and of characters outside them.  Taking
commands out of it leaves the same sequence without them, unless one of them
stands directly behind the name of another that ends later.
-/

namespace EnCroissant

/-! ## Characters -/

theorem isWordChar_of_isSpace {c : Char} (h : Text.isSpace c = true) : isWordChar c = false := by
  have hval : c.val.toNat ≤ 32 ∨ 160 ≤ c.val.toNat := by
    rw [Text.isSpace] at h
    simp only [Bool.or_eq_true, Bool.and_eq_true, decide_eq_true_eq, beq_iff_eq,
      UInt32.le_iff_toNat_le, ← UInt32.toNat_inj, UInt32.reduceToNat] at h
    omega
  cases hword : isWordChar c with
  | false => rfl
  | true =>
      have hA : 'A'.val.toNat = 65 := rfl
      have hZ : 'Z'.val.toNat = 90 := rfl
      have ha : 'a'.val.toNat = 97 := rfl
      have hz : 'z'.val.toNat = 122 := rfl
      have h0 : '0'.val.toNat = 48 := rfl
      have h9 : '9'.val.toNat = 57 := rfl
      have hbar : '_'.val.toNat = 95 := rfl
      simp only [isWordChar, Char.isAlphanum, Char.isAlpha, Char.isUpper, Char.isLower,
        Char.isDigit, Bool.or_eq_true, Bool.and_eq_true, decide_eq_true_eq, beq_iff_eq,
        UInt32.le_iff_toNat_le, ge_iff_le, Char.ext_iff, ← UInt32.toNat_inj] at hword
      omega

theorem isWordChar_bracket : isWordChar ']' = false := by decide

theorem not_isSpace_bracket : Text.isSpace ']' = false := by decide

theorem not_isSpace_open : Text.isSpace '[' = false := by decide

theorem ne_open_of_isSpace {c : Char} (h : Text.isSpace c = true) : c ≠ '[' := by
  rintro rfl
  exact absurd h (by decide)

theorem ne_close_of_isSpace {c : Char} (h : Text.isSpace c = true) : c ≠ ']' := by
  rintro rfl
  exact absurd h (by decide)

theorem not_isSpace_of_isWordChar {c : Char} (h : isWordChar c = true) :
    Text.isSpace c = false := by
  cases hspace : Text.isSpace c with
  | false => rfl
  | true => rw [isWordChar_of_isSpace hspace] at h; exact absurd h (by decide)

theorem ne_open_of_isWordChar {c : Char} (h : isWordChar c = true) : c ≠ '[' := by
  rintro rfl
  exact absurd h (by decide)

theorem ne_close_of_isWordChar {c : Char} (h : isWordChar c = true) : c ≠ ']' := by
  rintro rfl
  exact absurd h (by decide)

theorem isSpace_blank : Text.isSpace ' ' = true := by decide

theorem isSpace_of_mem_blanks {c : Char} (h : c ∈ [' ', ' ']) : Text.isSpace c = true := by
  rcases List.mem_pair.mp h with rfl | rfl <;> exact isSpace_blank

/-! ## One command -/

structure CommandCore.WellFormed (core : CommandCore) : Prop where
  name_ne : core.name ≠ []
  name : ∀ c ∈ core.name, isWordChar c = true
  body : ∀ body, core.body = some body →
    ∃ c inner, body = c :: inner ∧ Text.isSpace c = true ∧ ']' ∉ inner

theorem takeWhile_append_cons {p : Char → Bool} {name : Text} {c : Char} (text : Text)
    (hname : ∀ d ∈ name, p d = true) (hc : p c = false) :
    (name ++ c :: text).takeWhile p = name := by
  rw [List.takeWhile_append_of_pos hname, List.takeWhile_cons, hc]
  exact List.append_nil name

theorem dropWhile_append_cons {p : Char → Bool} {name : Text} {c : Char} (text : Text)
    (hname : ∀ d ∈ name, p d = true) (hc : p c = false) :
    (name ++ c :: text).dropWhile p = c :: text := by
  rw [List.dropWhile_append_of_pos hname, List.dropWhile_cons, hc]
  rfl

/-- How a command starts. -/
theorem coreAt_isSome_iff (text : Text) :
    (coreAt text).isSome ↔ ∃ name c tail, text = '[' :: '%' :: (name ++ c :: tail) ∧ name ≠ [] ∧
      (∀ d ∈ name, isWordChar d = true) ∧ (c = ']' ∨ Text.isSpace c = true ∧ ']' ∈ tail) := by
  constructor
  · intro h
    rw [coreAt.eq_def] at h
    split at h
    · rename_i text
      split_ifs at h with hname
      · cases h
      rw [Option.isSome_map] at h
      have htext : text = text.takeWhile isWordChar ++ text.dropWhile isWordChar :=
        (List.takeWhile_append_dropWhile).symm
      have hword : ∀ d ∈ text.takeWhile isWordChar, isWordChar d = true :=
        fun d hd ↦ List.mem_takeWhile_imp hd
      generalize hdrop : text.dropWhile isWordChar = rest at h htext
      cases rest with
      | nil => cases h
      | cons c rest =>
          refine ⟨text.takeWhile isWordChar, c, rest, by rw [← htext], hname, hword, ?_⟩
          rw [bodyAt] at h
          split_ifs at h with hclose hspace
          · exact .inl hclose
          · refine .inr ⟨hspace, ?_⟩
            by_contra hmem
            have hnone : rest.dropWhile (· ≠ ']') = [] := by
              rw [List.dropWhile_eq_nil_iff]
              intro d hd
              exact decide_eq_true fun heq ↦ hmem (heq ▸ hd)
            rw [hnone] at h
            cases h
          · cases h
    · cases h
  · rintro ⟨name, c, tail, rfl, hne, hname, hc⟩
    have hword : isWordChar c = false := by
      rcases hc with rfl | ⟨hspace, -⟩
      · exact isWordChar_bracket
      · exact isWordChar_of_isSpace hspace
    rw [coreAt, takeWhile_append_cons tail hname hword, dropWhile_append_cons tail hname hword,
      if_neg hne, Option.isSome_map, bodyAt]
    rcases hc with rfl | ⟨hspace, hmem⟩
    · rw [if_pos rfl]
      rfl
    · rw [if_neg (ne_close_of_isSpace hspace), if_pos hspace]
      cases hrest : tail.dropWhile (· ≠ ']') with
      | nil =>
          rw [List.dropWhile_eq_nil_iff] at hrest
          exact absurd rfl (of_decide_eq_true (hrest _ hmem))
      | cons d rest => rfl

theorem coreAt_text {core : CommandCore} (h : core.WellFormed) (rest : Text) :
    coreAt (core.text ++ rest) = some (core, rest) := by
  obtain ⟨name, body⟩ := core
  obtain ⟨hne, hname, hbody⟩ := h
  dsimp only at hne hname hbody
  cases body with
  | none =>
      have htext : CommandCore.text ⟨name, none⟩ ++ rest = '[' :: '%' :: (name ++ ']' :: rest) := by
        simp [CommandCore.text]
      rw [htext, coreAt, takeWhile_append_cons rest hname isWordChar_bracket,
        dropWhile_append_cons rest hname isWordChar_bracket, if_neg hne, bodyAt, if_pos rfl]
      rfl
  | some body =>
      obtain ⟨c, inner, rfl, hspace, hinner⟩ := hbody body rfl
      have htext : CommandCore.text ⟨name, some (c :: inner)⟩ ++ rest =
          '[' :: '%' :: (name ++ c :: (inner ++ ']' :: rest)) := by
        simp [CommandCore.text]
      have hword := isWordChar_of_isSpace hspace
      have hclose : ∀ d ∈ inner, decide (d ≠ ']') = true :=
        fun d hd ↦ decide_eq_true fun heq ↦ hinner (heq ▸ hd)
      rw [htext, coreAt, takeWhile_append_cons _ hname hword,
        dropWhile_append_cons _ hname hword, if_neg hne, bodyAt,
        if_neg (ne_close_of_isSpace hspace), if_pos hspace,
        dropWhile_append_cons rest hclose (by decide),
        takeWhile_append_cons rest hclose (by decide)]
      rfl

theorem coreAt_eq_some {text rest : Text} {core : CommandCore}
    (h : coreAt text = some (core, rest)) :
    core.WellFormed ∧ text = core.text ++ rest := by
  obtain ⟨name, c, tail, rfl, hne, hname, hc⟩ :=
    (coreAt_isSome_iff text).mp (by rw [h]; rfl)
  rcases hc with rfl | ⟨hspace, hmem⟩
  · have hwf : CommandCore.WellFormed ⟨name, none⟩ := ⟨hne, hname, fun _ hbody ↦ by cases hbody⟩
    have htext : '[' :: '%' :: (name ++ ']' :: tail) = CommandCore.text ⟨name, none⟩ ++ tail := by
      simp [CommandCore.text]
    rw [htext, coreAt_text hwf] at h
    obtain ⟨rfl, rfl⟩ := Prod.mk.inj (Option.some.inj h)
    exact ⟨hwf, htext⟩
  · obtain ⟨inner, after, rfl, hinner⟩ := List.eq_append_cons_of_mem hmem
    have hwf : CommandCore.WellFormed ⟨name, some (c :: inner)⟩ :=
      ⟨hne, hname, fun body hbody ↦ ⟨c, inner, (Option.some.inj hbody).symm, hspace, hinner⟩⟩
    have htext : '[' :: '%' :: (name ++ c :: (inner ++ ']' :: after)) =
        CommandCore.text ⟨name, some (c :: inner)⟩ ++ after := by
      simp [CommandCore.text]
    rw [htext, coreAt_text hwf] at h
    obtain ⟨rfl, rfl⟩ := Prod.mk.inj (Option.some.inj h)
    exact ⟨hwf, htext⟩

theorem close_mem_text (core : CommandCore) : ']' ∈ core.text := by
  rw [CommandCore.text]
  exact List.mem_cons_of_mem _ (List.mem_cons_of_mem _
    (List.mem_append_right _ (List.mem_singleton.mpr rfl)))

/-! ## Comments as sequences of commands and characters -/

abbrev Skeleton := List (Char ⊕ CommandCore)

namespace Skeleton

def flat : Skeleton → Text
  | [] => []
  | .inl c :: parts => c :: flat parts
  | .inr core :: parts => core.text ++ flat parts

def plain (text : Text) : Skeleton := text.map .inl

def cores (parts : Skeleton) : List CommandCore := parts.filterMap Sum.getRight?

/-- The characters outside the commands that are no white space. -/
def prose (parts : Skeleton) : Text :=
  (parts.filterMap Sum.getLeft?).filter fun c ↦ !Text.isSpace c

/-- A command stands directly behind the start of another one, and a bracket closes later. -/
def Nested (parts : Skeleton) : Prop :=
  ∃ before name core after,
    parts = before ++ .inl '[' :: .inl '%' :: (plain name ++ .inr core :: after) ∧
      name ≠ [] ∧ (∀ c ∈ name, isWordChar c = true) ∧ ']' ∈ flat after

/-- No command starts outside the commands of the sequence. -/
def Settled : Skeleton → Prop
  | [] => True
  | .inl c :: parts => coreAt (c :: flat parts) = none ∧ Settled parts
  | .inr core :: parts => core.WellFormed ∧ Settled parts

variable {ps qs : Skeleton}

theorem flat_append (ps qs : Skeleton) : flat (ps ++ qs) = flat ps ++ flat qs := by
  induction ps with
  | nil => rfl
  | cons part ps ih =>
      cases part with
      | inl c => rw [List.cons_append, flat, flat, ih, List.cons_append]
      | inr core => rw [List.cons_append, flat, flat, ih, List.append_assoc]

theorem flat_plain (text : Text) : flat (plain text) = text := by
  induction text with
  | nil => rfl
  | cons c text ih =>
      rw [plain, List.map_cons, flat]
      exact congrArg (c :: ·) ih

theorem plain_append (text text' : Text) : plain (text ++ text') = plain text ++ plain text' :=
  List.map_append

theorem cores_append (ps qs : Skeleton) : cores (ps ++ qs) = cores ps ++ cores qs :=
  List.filterMap_append

theorem prose_append (ps qs : Skeleton) : prose (ps ++ qs) = prose ps ++ prose qs := by
  rw [prose, List.filterMap_append, List.filter_append]
  rfl

theorem cores_plain (text : Text) : cores (plain text) = [] := by
  rw [cores, plain, List.filterMap_map]
  exact List.filterMap_eq_nil_iff.mpr fun _ _ ↦ rfl

theorem prose_plain_of_isSpace {text : Text} (h : ∀ c ∈ text, Text.isSpace c = true) :
    prose (plain text) = [] := by
  induction text with
  | nil => rfl
  | cons c text ih =>
      have hc : (!Text.isSpace c) = false := by rw [h c List.mem_cons_self]; rfl
      change List.filter _ (c :: _) = []
      rw [List.filter_cons, hc]
      exact ih fun d hd ↦ h d (List.mem_cons_of_mem c hd)

theorem cores_cons_inl (c : Char) (ps : Skeleton) : cores (.inl c :: ps) = cores ps := rfl

theorem cores_cons_inr (core : CommandCore) (ps : Skeleton) :
    cores (.inr core :: ps) = core :: cores ps := rfl

theorem prose_cons_inr (core : CommandCore) (ps : Skeleton) :
    prose (.inr core :: ps) = prose ps := rfl

theorem prose_cons_inl (c : Char) {ps qs : Skeleton} (h : prose ps = prose qs) :
    prose (.inl c :: ps) = prose (.inl c :: qs) := by
  change List.filter _ (c :: _) = List.filter _ (c :: _)
  rw [List.filter_cons, List.filter_cons]
  change (if _ then c :: prose ps else prose ps) = if _ then c :: prose qs else prose qs
  rw [h]

theorem exists_of_flat_eq_cons {c : Char} {text : Text} (h : flat ps = c :: text) (hc : c ≠ '[') :
    ∃ ps', ps = .inl c :: ps' ∧ flat ps' = text := by
  cases ps with
  | nil => cases h
  | cons part ps =>
      cases part with
      | inl d =>
          obtain ⟨rfl, rfl⟩ := List.cons.inj h
          exact ⟨ps, rfl, rfl⟩
      | inr core =>
          rw [flat, CommandCore.text] at h
          exact absurd (List.cons.inj h).1.symm hc

theorem exists_of_flat_eq_append {word text : Text} (hword : ∀ c ∈ word, isWordChar c = true)
    (h : flat ps = word ++ text) :
    ∃ ps', ps = plain word ++ ps' ∧ flat ps' = text := by
  induction word generalizing ps with
  | nil => exact ⟨ps, rfl, h⟩
  | cons c word ih =>
      obtain ⟨ps', rfl, hps'⟩ := exists_of_flat_eq_cons h
        (ne_open_of_isWordChar (hword c List.mem_cons_self))
      obtain ⟨ps'', rfl, hps''⟩ := ih (fun d hd ↦ hword d (List.mem_cons_of_mem c hd)) hps'
      exact ⟨ps'', rfl, hps''⟩

theorem Nested.cons (h : Nested ps) (part : Char ⊕ CommandCore) : Nested (part :: ps) := by
  obtain ⟨before, name, core, after, rfl, hname⟩ := h
  exact ⟨part :: before, name, core, after, rfl, hname⟩

theorem Nested.append (h : Nested ps) (qs : Skeleton) : Nested (qs ++ ps) := by
  induction qs with
  | nil => exact h
  | cons part qs ih => exact ih.cons part

theorem Nested.cases {part : Char ⊕ CommandCore} (h : Nested (part :: ps)) :
    Nested ps ∨ ∃ name core after,
      part = .inl '[' ∧ ps = .inl '%' :: (plain name ++ .inr core :: after) ∧
        name ≠ [] ∧ (∀ c ∈ name, isWordChar c = true) ∧ ']' ∈ flat after := by
  obtain ⟨before, name, core, after, hps, hname⟩ := h
  cases before with
  | nil =>
      obtain ⟨rfl, rfl⟩ := List.cons.inj hps
      exact .inr ⟨name, core, after, rfl, rfl, hname⟩
  | cons part' before =>
      obtain ⟨rfl, rfl⟩ := List.cons.inj hps
      exact .inl ⟨before, name, core, after, rfl, hname⟩

theorem Nested.of_append {marks : Text} (hmarks : ∀ c ∈ marks, Text.isSpace c = true)
    (h : Nested (plain marks ++ ps)) : Nested ps := by
  induction marks with
  | nil => exact h
  | cons d marks ih =>
      rcases Nested.cases h with hrest | ⟨_, _, _, hpart, -⟩
      · exact ih (fun e he ↦ hmarks e (List.mem_cons_of_mem d he)) hrest
      · obtain rfl := Sum.inl.inj hpart
        exact absurd (hmarks _ List.mem_cons_self) (by decide)

theorem coreAt_of_ne {c : Char} (h : c ≠ '[') (text : Text) : coreAt (c :: text) = none := by
  rw [← Option.not_isSome_iff_eq_none, coreAt_isSome_iff]
  rintro ⟨name, d, tail, heq, -⟩
  exact h (List.cons.inj heq).1

theorem Settled.of_append (h : Settled (ps ++ qs)) : Settled qs := by
  induction ps with
  | nil => exact h
  | cons part ps ih =>
      cases part with
      | inl c => exact ih h.2
      | inr core => exact ih h.2

theorem Settled.append_left {text : Text} (htext : ∀ c ∈ text, c ≠ '[') (h : Settled ps) :
    Settled (plain text ++ ps) := by
  induction text with
  | nil => exact h
  | cons c text ih =>
      exact ⟨coreAt_of_ne (htext c List.mem_cons_self) _,
        ih fun d hd ↦ htext d (List.mem_cons_of_mem c hd)⟩

/-! ## Taking commands out -/

/-- Some commands are changed, and some give way to white space, together with a character of
white space on either side. -/
inductive Blanks (act : CommandCore → Option CommandCore) : Skeleton → Skeleton → Prop
  | nil : Blanks act [] []
  | plain (c : Char) {ps qs : Skeleton} : Blanks act ps qs →
      Blanks act (.inl c :: ps) (.inl c :: qs)
  | kept {core core' : CommandCore} {ps qs : Skeleton} : act core = some core' →
      core'.WellFormed → Blanks act ps qs → Blanks act (.inr core :: ps) (.inr core' :: qs)
  | blank {core : CommandCore} {lead trail : Option Char} {marks : Text} {ps qs : Skeleton} :
      act core = none → (∀ c ∈ lead, Text.isSpace c = true) → (∀ c ∈ trail, Text.isSpace c = true) →
      marks ≠ [] → (∀ c ∈ marks, Text.isSpace c = true) → Blanks act ps qs →
      Blanks act (Skeleton.plain lead.toList ++ .inr core :: (Skeleton.plain trail.toList ++ ps))
        (Skeleton.plain marks ++ qs)

namespace Blanks

variable {act : CommandCore → Option CommandCore}

theorem forall_toList {lead : Option Char} (h : ∀ c ∈ lead, Text.isSpace c = true) :
    ∀ c ∈ lead.toList, Text.isSpace c = true := by
  intro c hc
  exact h c (Option.mem_toList.mp hc)

theorem cores_eq (h : Blanks act ps qs) : cores qs = (cores ps).filterMap act := by
  induction h with
  | nil => rfl
  | plain c _ ih => exact ih
  | kept hact _ _ ih =>
      rw [cores_cons_inr, cores_cons_inr, List.filterMap_cons_some hact, ih]
  | blank hact _ _ _ _ _ ih =>
      rw [cores_append, cores_append, cores_plain, cores_plain, cores_cons_inr, cores_append,
        cores_plain, List.nil_append, List.nil_append, List.filterMap_cons_none hact,
        List.nil_append, ih]

theorem prose_eq (h : Blanks act ps qs) : prose qs = prose ps := by
  induction h with
  | nil => rfl
  | plain c _ ih => exact prose_cons_inl c ih
  | kept _ _ _ ih => exact ih
  | blank _ hlead htrail _ hmarks _ ih =>
      rw [prose_append, prose_append, prose_cons_inr, prose_append,
        prose_plain_of_isSpace hmarks, prose_plain_of_isSpace (forall_toList hlead),
        prose_plain_of_isSpace (forall_toList htrail), ih]
      rfl

theorem close_mem (h : Blanks act ps qs) (hclose : ']' ∈ flat qs) : ']' ∈ flat ps := by
  induction h with
  | nil => exact hclose
  | plain c _ ih =>
      rw [flat] at hclose ⊢
      rcases List.mem_cons.mp hclose with heq | hmem
      · exact heq ▸ List.mem_cons_self
      · exact List.mem_cons_of_mem c (ih hmem)
  | @kept core core' ps qs _ _ _ _ =>
      rw [flat]
      exact List.mem_append_left _ (close_mem_text core)
  | blank _ _ _ _ _ _ _ =>
      rw [flat_append, flat]
      exact List.mem_append_right _ (List.mem_append_left _ (close_mem_text _))

theorem inl_inv {c : Char} (h : Blanks act ps (.inl c :: qs)) (hc : Text.isSpace c = false) :
    ∃ ps', ps = .inl c :: ps' ∧ Blanks act ps' qs := by
  generalize hqs : (.inl c :: qs : Skeleton) = qs' at h
  cases h with
  | nil => cases hqs
  | plain d hblanks =>
      obtain ⟨hd, rfl⟩ := List.cons.inj hqs
      obtain rfl := Sum.inl.inj hd
      exact ⟨_, rfl, hblanks⟩
  | kept _ _ _ => cases (List.cons.inj hqs).1
  | @blank core lead trail marks ps qs' _ _ _ hne hmarks _ =>
      cases marks with
      | nil => exact absurd rfl hne
      | cons d marks =>
          obtain rfl := Sum.inl.inj (List.cons.inj hqs).1
          rw [hmarks _ List.mem_cons_self] at hc
          cases hc

theorem inr_inv {core' : CommandCore} (h : Blanks act ps (.inr core' :: qs)) :
    ∃ core ps', ps = .inr core :: ps' ∧ Blanks act ps' qs := by
  generalize hqs : (.inr core' :: qs : Skeleton) = qs' at h
  cases h with
  | nil => cases hqs
  | plain d hblanks => cases (List.cons.inj hqs).1
  | kept _ _ hblanks =>
      obtain ⟨-, rfl⟩ := List.cons.inj hqs
      exact ⟨_, _, rfl, hblanks⟩
  | @blank core lead trail marks ps qs' _ _ _ hne _ _ =>
      cases marks with
      | nil => exact absurd rfl hne
      | cons d marks => cases (List.cons.inj hqs).1

theorem plain_inv {word : Text} (hword : ∀ c ∈ word, Text.isSpace c = false)
    (h : Blanks act ps (Skeleton.plain word ++ qs)) :
    ∃ ps', ps = Skeleton.plain word ++ ps' ∧ Blanks act ps' qs := by
  induction word generalizing ps with
  | nil => exact ⟨ps, rfl, h⟩
  | cons c word ih =>
      obtain ⟨ps', rfl, hps'⟩ := inl_inv h (hword c List.mem_cons_self)
      obtain ⟨ps'', rfl, hps''⟩ := ih (fun d hd ↦ hword d (List.mem_cons_of_mem c hd)) hps'
      exact ⟨ps'', rfl, hps''⟩

/-- Taking commands out makes no command directly follow the start of another. -/
theorem nested (h : Blanks act ps qs) (hnested : Nested qs) : Nested ps := by
  induction h with
  | nil => exact hnested
  | @plain c ps qs hblanks ih =>
      rcases hnested.cases with hrest | ⟨name, core', after, hc, rfl, hne, hname, hclose⟩
      · exact (ih hrest).cons _
      · obtain ⟨ps', rfl, hps'⟩ := inl_inv hblanks (by decide)
        obtain ⟨ps'', rfl, hps''⟩ :=
          plain_inv (fun d hd ↦ not_isSpace_of_isWordChar (hname d hd)) hps'
        obtain ⟨core, after', rfl, hafter⟩ := inr_inv hps''
        exact ⟨[], name, core, after', by rw [hc]; rfl, hne, hname, hafter.close_mem hclose⟩
  | kept _ _ _ ih =>
      rcases hnested.cases with hrest | ⟨_, _, _, hpart, -⟩
      · exact (ih hrest).cons _
      · cases hpart
  | @blank core lead trail marks ps qs _ _ _ _ hmarks _ ih =>
      have hqs : Nested qs := hnested.of_append hmarks
      exact (((ih hqs).append _).cons _).append _

/-- Taking commands out of a comment forms no new one, unless they nest. -/
theorem settled (h : Blanks act ps qs) (hs : Settled ps) (hnested : ¬Nested ps) : Settled qs := by
  induction h with
  | nil => trivial
  | @plain c ps qs hblanks ih =>
      obtain ⟨hnone, hs⟩ := hs
      refine ⟨?_, ih hs fun hrest ↦ hnested (hrest.cons _)⟩
      rw [← Option.not_isSome_iff_eq_none] at hnone ⊢
      intro hsome
      apply hnone
      rw [coreAt_isSome_iff] at hsome ⊢
      obtain ⟨name, d, tail, htext, hne, hname, hd⟩ := hsome
      obtain ⟨rfl, hflat⟩ := List.cons.inj htext
      obtain ⟨qs₁, rfl, hqs₁⟩ := exists_of_flat_eq_cons hflat (by decide)
      obtain ⟨qs₂, rfl, hqs₂⟩ := exists_of_flat_eq_append hname hqs₁
      obtain ⟨ps₁, rfl, hps₁⟩ := inl_inv hblanks (by decide)
      obtain ⟨ps₂, rfl, hps₂⟩ :=
        plain_inv (fun e he ↦ not_isSpace_of_isWordChar (hname e he)) hps₁
      have hd' : d ≠ '[' := by
        rcases hd with rfl | ⟨hspace, -⟩
        · decide
        · exact ne_open_of_isSpace hspace
      obtain ⟨qs₃, rfl, rfl⟩ := exists_of_flat_eq_cons hqs₂ hd'
      have hflat' : ∀ {e : Char} {rest : Text}, flat ps₂ = e :: rest →
          '[' :: flat (.inl '%' :: (Skeleton.plain name ++ ps₂)) =
            '[' :: '%' :: (name ++ e :: rest) := by
        intro e rest he
        rw [flat, flat_append, flat_plain, he]
      rcases hd with rfl | ⟨hspace, hclose⟩
      · obtain ⟨ps₃, rfl, -⟩ := inl_inv hps₂ (by decide)
        exact ⟨name, ']', flat ps₃, hflat' rfl, hne, hname, .inl rfl⟩
      · generalize hqs' : (.inl d :: qs₃ : Skeleton) = qs' at hps₂
        cases hps₂ with
        | nil => cases hqs'
        | plain e hblanks₃ =>
            obtain ⟨he, rfl⟩ := List.cons.inj hqs'
            obtain rfl := Sum.inl.inj he
            exact ⟨name, d, _, hflat' rfl, hne, hname, .inr ⟨hspace, hblanks₃.close_mem hclose⟩⟩
        | kept _ _ _ => cases (List.cons.inj hqs').1
        | @blank core lead trail marks ps₃ qs₄ _ hlead _ hmne hmarks hblanks₃ =>
            cases marks with
            | nil => exact absurd rfl hmne
            | cons e marks =>
                obtain ⟨-, rfl⟩ := List.cons.inj hqs'
                cases lead with
                | some l =>
                    refine ⟨name, l, _, hflat' rfl, hne, hname, .inr ⟨hlead l rfl, ?_⟩⟩
                    exact List.mem_append_left _ (close_mem_text core)
                | none =>
                    change ']' ∈ flat (Skeleton.plain marks ++ qs₄) at hclose
                    rw [flat_append, flat_plain] at hclose
                    have hrest : ']' ∈ flat qs₄ := by
                      rcases List.mem_append.mp hclose with hmem | hmem
                      · exact absurd (hmarks _ (List.mem_cons_of_mem e hmem)) (by decide)
                      · exact hmem
                    refine absurd ⟨[], name, core, _, rfl, hne, hname, ?_⟩ hnested
                    rw [flat_append]
                    exact List.mem_append_right _ (hblanks₃.close_mem hrest)
  | kept _ hwf _ ih => exact ⟨hwf, ih hs.2 fun hrest ↦ hnested (hrest.cons _)⟩
  | @blank core lead trail marks ps qs _ _ _ _ hmarks _ ih =>
      have hps : Settled ps := hs.of_append.2.of_append
      exact (ih hps fun hrest ↦ hnested (((hrest.append _).cons _).append _)).append_left
        fun c hc ↦ ne_open_of_isSpace (hmarks c hc)

end Blanks

end Skeleton

/-! ## The scan for commands -/

open Skeleton

variable {accepts : CommandCore → Bool} {ps qs : Skeleton}

structure CommentCommand.Spaced (found : CommentCommand) : Prop where
  lead : ∀ c ∈ found.lead, Text.isSpace c = true
  trail : ∀ c ∈ found.trail, Text.isSpace c = true

theorem CommandCore.text_eq_cons (core : CommandCore) :
    ∃ tail, core.text = '[' :: '%' :: tail :=
  ⟨_, rfl⟩

theorem spaceAt_spec (text : Text) :
    (spaceAt text).1.toList ++ (spaceAt text).2 = text ∧
      ∀ c ∈ (spaceAt text).1, Text.isSpace c = true := by
  cases text with
  | nil => exact ⟨rfl, fun c hc ↦ by cases hc⟩
  | cons c text =>
      rw [spaceAt]
      split_ifs with hspace
      · exact ⟨rfl, fun d hd ↦ Option.some.inj hd ▸ hspace⟩
      · exact ⟨rfl, fun d hd ↦ by cases hd⟩

theorem commandAt_eq_some {text : Text} {found : CommentCommand}
    (h : commandAt accepts text = some found) :
    found.Spaced ∧ found.core.WellFormed ∧ accepts found.core = true ∧
      ∃ rest, text = found.text ++ rest := by
  rw [commandAt] at h
  cases hcore : coreAt (spaceAt text).2 with
  | none =>
      rw [hcore] at h
      cases h
  | some parsed =>
      obtain ⟨core, rest⟩ := parsed
      rw [hcore] at h
      dsimp only at h
      split_ifs at h with haccepts
      obtain rfl := Option.some.inj h
      obtain ⟨hlead, hleadSpace⟩ := spaceAt_spec text
      obtain ⟨htrail, htrailSpace⟩ := spaceAt_spec rest
      obtain ⟨hwf, htext⟩ := coreAt_eq_some hcore
      refine ⟨⟨hleadSpace, htrailSpace⟩, hwf, haccepts, (spaceAt rest).2, ?_⟩
      rw [CommentCommand.text, List.append_assoc, htrail, List.append_assoc, ← htext, hlead]

theorem commentPartsFrom_eq_drop (skip : ℕ) (text : Text) :
    commentPartsFrom accepts skip text = commentParts accepts (text.drop skip) := by
  induction text generalizing skip with
  | nil => cases skip <;> rfl
  | cons c text ih =>
      cases skip with
      | zero => rfl
      | succ skip => exact ih skip

theorem commentPartAt_eq_plain {c : Char} {text : Text}
    (h : commandAt accepts (c :: text) = none) :
    commentPartAt accepts c text = .plain c := by
  unfold commentPartAt
  rw [h]

theorem commentPartAt_eq_command {c : Char} {text : Text} {found : CommentCommand}
    (h : commandAt accepts (c :: text) = some found) :
    commentPartAt accepts c text = .command found := by
  unfold commentPartAt
  rw [h]

theorem commentParts_cons {c : Char} {text : Text} (h : commandAt accepts (c :: text) = none) :
    commentParts accepts (c :: text) = .plain c :: commentParts accepts text := by
  rw [commentParts, commentPartsFrom, commentPartAt_eq_plain h]
  rfl

theorem commentParts_command {text rest : Text} {found : CommentCommand}
    (h : commandAt accepts text = some found) (htext : text = found.text ++ rest) :
    commentParts accepts text = .command found :: commentParts accepts rest := by
  have hlength : 0 < found.text.length := by
    rw [CommentCommand.text, CommandCore.text]
    simp
  obtain ⟨c, tail, hcons⟩ := List.exists_cons_of_length_pos hlength
  rw [hcons] at htext
  subst htext
  rw [List.cons_append] at h
  rw [commentParts, List.cons_append, commentPartsFrom, commentPartAt_eq_command h,
    commentPartsFrom_eq_drop, CommentPart.text, hcons, List.length_cons, Nat.add_sub_cancel,
    List.drop_left]

/-- The parts that the scan for some commands makes of a sequence. -/
inductive Scans (accepts : CommandCore → Bool) : Skeleton → List CommentPart → Prop
  | nil : Scans accepts [] []
  | plain (c : Char) {ps : Skeleton} {parts : List CommentPart} : Scans accepts ps parts →
      Scans accepts (.inl c :: ps) (.plain c :: parts)
  | command {found : CommentCommand} {ps : Skeleton} {parts : List CommentPart} :
      accepts found.core = true → found.Spaced → found.core.WellFormed → Scans accepts ps parts →
      Scans accepts (Skeleton.plain found.lead.toList ++ .inr found.core ::
        (Skeleton.plain found.trail.toList ++ ps)) (.command found :: parts)
  | rejected {core : CommandCore} {ps : Skeleton} {parts : List CommentPart} :
      accepts core = false → core.WellFormed → Scans accepts ps parts →
      Scans accepts (.inr core :: ps) (core.text.map .plain ++ parts)

theorem commentParts_append_of_not_mem {text : Text} (rest : Text) (h : '[' ∉ text) :
    commentParts accepts (text ++ ']' :: rest) =
      (text ++ [']']).map .plain ++ commentParts accepts rest := by
  have hclose : commandAt accepts (']' :: rest) = none := by
    rw [commandAt, spaceAt, if_neg (by decide), coreAt_of_ne (by decide)]
  induction text with
  | nil => exact commentParts_cons hclose
  | cons c text ih =>
      have hc : c ≠ '[' := fun heq ↦ h (heq ▸ List.mem_cons_self)
      have hrest : '[' ∉ text := fun hmem ↦ h (List.mem_cons_of_mem c hmem)
      have hnone : commandAt accepts (c :: (text ++ ']' :: rest)) = none := by
        rw [commandAt, spaceAt]
        split_ifs with hspace
        · cases text with
          | nil => rw [List.nil_append, coreAt_of_ne (by decide)]
          | cons d text =>
              rw [List.cons_append, coreAt_of_ne fun heq ↦ hrest (heq ▸ List.mem_cons_self)]
        · rw [coreAt_of_ne hc]
      rw [List.cons_append, commentParts_cons hnone, ih hrest]
      rfl

theorem exists_spaceAt (ps : Skeleton) :
    ∃ ps', ps = Skeleton.plain (spaceAt (flat ps)).1.toList ++ ps' := by
  cases ps with
  | nil => exact ⟨[], rfl⟩
  | cons part ps =>
      cases part with
      | inl c =>
          rw [flat, spaceAt]
          split_ifs with hspace
          · exact ⟨ps, rfl⟩
          · exact ⟨.inl c :: ps, rfl⟩
      | inr core =>
          obtain ⟨tail, htail⟩ := core.text_eq_cons
          rw [flat, htail, List.cons_append, spaceAt, if_neg (by decide)]
          exact ⟨.inr core :: ps, rfl⟩

theorem Skeleton.Settled.coreAt_eq (h : Settled ps) {core : CommandCore} {rest : Text}
    (hcore : coreAt (flat ps) = some (core, rest)) :
    ∃ ps', ps = .inr core :: ps' ∧ rest = flat ps' := by
  cases ps with
  | nil => cases hcore
  | cons part ps =>
      cases part with
      | inl c =>
          rw [flat, h.1] at hcore
          cases hcore
      | inr core' =>
          rw [flat, coreAt_text h.1] at hcore
          obtain ⟨rfl, rfl⟩ := Prod.mk.inj (Option.some.inj hcore)
          exact ⟨ps, rfl, rfl⟩

theorem commandAt_flat (h : Settled ps) {found : CommentCommand}
    (hat : commandAt accepts (flat ps) = some found) :
    ∃ ps', ps = Skeleton.plain found.lead.toList ++ .inr found.core ::
      (Skeleton.plain found.trail.toList ++ ps') := by
  rw [commandAt] at hat
  obtain ⟨ps₁, hps₁⟩ := exists_spaceAt ps
  have hflat : (spaceAt (flat ps)).2 = flat ps₁ := by
    have hsplit := (spaceAt_spec (flat ps)).1
    conv at hsplit => rhs; rw [hps₁, flat_append, flat_plain]
    exact List.append_cancel_left hsplit
  have hsettled : Settled ps₁ := by
    rw [hps₁] at h
    exact h.of_append
  cases hcore : coreAt (flat ps₁) with
  | none =>
      rw [hflat, hcore] at hat
      cases hat
  | some parsed =>
      obtain ⟨core, rest⟩ := parsed
      rw [hflat, hcore] at hat
      dsimp only at hat
      split_ifs at hat with haccepts
      obtain ⟨ps₂, rfl, rfl⟩ := hsettled.coreAt_eq hcore
      obtain ⟨ps₃, hps₃⟩ := exists_spaceAt ps₂
      obtain rfl := Option.some.inj hat
      exact ⟨ps₃, by rw [← hps₃, ← hps₁]⟩

theorem commandAt_core (accepts : CommandCore → Bool) {core : CommandCore} (h : core.WellFormed)
    (rest : Text) :
    commandAt accepts (core.text ++ rest) =
      if accepts core then some ⟨none, core, (spaceAt rest).1⟩ else none := by
  have hspace : spaceAt (core.text ++ rest) = (none, core.text ++ rest) := by
    obtain ⟨tail, htail⟩ := core.text_eq_cons
    rw [htail, List.cons_append, spaceAt, if_neg (by decide)]
  rw [commandAt, hspace, coreAt_text h]

/-- Where the rejected commands hold no bracket of their own, the scan finds the others. -/
theorem scans_commentParts (h : Settled ps)
    (hinner : ∀ core ∈ cores ps, accepts core = false → '[' ∉ core.text.tail) :
    Scans accepts ps (commentParts accepts (flat ps)) := by
  induction hn : ps.length using Nat.strong_induction_on generalizing ps with
  | _ n ih =>
  cases hat : commandAt accepts (flat ps) with
  | some found =>
      obtain ⟨hspaced, hwf, haccepts, -⟩ := commandAt_eq_some hat
      obtain ⟨ps', rfl⟩ := commandAt_flat h hat
      have htext : flat (Skeleton.plain found.lead.toList ++ .inr found.core ::
          (Skeleton.plain found.trail.toList ++ ps')) = found.text ++ flat ps' := by
        rw [flat_append, flat_plain, flat, flat_append, flat_plain, CommentCommand.text,
          List.append_assoc, List.append_assoc]
      rw [commentParts_command hat htext]
      refine .command haccepts hspaced hwf (ih ps'.length ?_ h.of_append.2.of_append ?_ rfl)
      · rw [← hn, List.length_append, List.length_cons, List.length_append]
        omega
      · intro core hcore
        refine hinner core ?_
        rw [cores_append, cores_cons_inr, cores_append]
        exact List.mem_append_right _ (List.mem_cons_of_mem _ (List.mem_append_right _ hcore))
  | none =>
      cases ps with
      | nil => exact .nil
      | cons part ps =>
          have hlt : ps.length < n := by rw [← hn]; exact Nat.lt_succ_self _
          cases part with
          | inl c =>
              rw [flat, commentParts_cons hat]
              exact .plain c (ih ps.length hlt h.2 hinner rfl)
          | inr core =>
              have haccepts : accepts core = false := by
                by_contra htrue
                rw [flat, commandAt_core accepts h.1, if_pos (Bool.of_not_eq_false htrue)] at hat
                cases hat
              have hopen := hinner core List.mem_cons_self haccepts
              have hrest := ih ps.length hlt h.2
                (fun core' hcore' ↦ hinner core' (List.mem_cons_of_mem core hcore')) rfl
              have htail : core.text.tail = '%' :: (core.name ++ core.body.getD []) ++ [']'] := rfl
              rw [htail] at hopen
              have hmid : '[' ∉ '%' :: (core.name ++ core.body.getD []) :=
                fun hmem ↦ hopen (List.mem_append_left _ hmem)
              have htext : core.text ++ flat ps = '[' :: ('%' :: (core.name ++ core.body.getD []) ++
                  ']' :: flat ps) := by
                simp [CommandCore.text]
              rw [flat, htext] at hat ⊢
              rw [commentParts_cons hat, commentParts_append_of_not_mem _ hmid]
              exact .rejected haccepts h.1 hrest

/-- The characters and the commands of a part. -/
def CommentPart.expand : CommentPart → Skeleton
  | plain c => [.inl c]
  | command found =>
      Skeleton.plain found.lead.toList ++ .inr found.core :: Skeleton.plain found.trail.toList

/-- The commands of a text, and the characters around them. -/
def skeleton (text : Text) : Skeleton :=
  (commentParts anyCommand text).flatMap CommentPart.expand

theorem exists_settled (text : Text) : ∃ ps : Skeleton, Settled ps ∧ flat ps = text := by
  induction hn : text.length using Nat.strong_induction_on generalizing text with
  | _ n ih =>
  cases text with
  | nil => exact ⟨[], trivial, rfl⟩
  | cons c text =>
      cases hcore : coreAt (c :: text) with
      | none =>
          obtain ⟨ps, hps, hflat⟩ := ih text.length (by rw [← hn]; exact Nat.lt_succ_self _) text rfl
          exact ⟨.inl c :: ps, ⟨by rw [hflat]; exact hcore, hps⟩, by rw [flat, hflat]⟩
      | some parsed =>
          obtain ⟨core, rest⟩ := parsed
          obtain ⟨hwf, htext⟩ := coreAt_eq_some hcore
          have hlt : rest.length < n := by
            rw [← hn, htext, List.length_append, CommandCore.text, List.length_cons]
            omega
          obtain ⟨ps, hps, hflat⟩ := ih rest.length hlt rest rfl
          exact ⟨.inr core :: ps, ⟨hwf, hps⟩, by rw [flat, hflat, htext]⟩

theorem Scans.flatMap_expand {parts : List CommentPart} (h : Scans anyCommand ps parts) :
    parts.flatMap CommentPart.expand = ps := by
  induction h with
  | nil => rfl
  | plain c _ ih => rw [List.flatMap_cons, ih]; rfl
  | command _ _ _ _ ih =>
      rw [List.flatMap_cons, ih, CommentPart.expand, List.append_assoc, List.cons_append]
  | rejected hrejected => cases hrejected

theorem Skeleton.Settled.skeleton_flat (h : Settled ps) : skeleton (flat ps) = ps :=
  (scans_commentParts h fun _ _ hrejected ↦ by cases hrejected).flatMap_expand

theorem settled_skeleton (text : Text) : Settled (skeleton text) := by
  obtain ⟨ps, hps, rfl⟩ := exists_settled text
  rw [hps.skeleton_flat]
  exact hps

theorem flat_skeleton (text : Text) : flat (skeleton text) = text := by
  obtain ⟨ps, hps, rfl⟩ := exists_settled text
  rw [hps.skeleton_flat]

/-! ## What a replacement does -/

theorem Scans.commands_eq {parts : List CommentPart} (h : Scans accepts ps parts) :
    (parts.filterMap CommentPart.command?).map CommentCommand.core =
      (cores ps).filter accepts := by
  induction h with
  | nil => rfl
  | plain c _ ih => exact ih
  | command haccepts _ _ _ ih =>
      rw [cores_append, cores_cons_inr, cores_append, cores_plain, cores_plain, List.nil_append,
        List.nil_append, List.filter_cons_of_pos haccepts, ← ih]
      rfl
  | @rejected core ps parts hrejected _ _ ih =>
      rw [cores_cons_inr, List.filter_cons_of_neg (by rw [hrejected]; decide),
        List.filterMap_append, List.map_append, ih, List.filterMap_map]
      have hnil : core.text.filterMap (CommentPart.command? ∘ CommentPart.plain) = [] :=
        List.filterMap_eq_nil_iff.mpr fun _ _ ↦ rfl
      rw [hnil]
      rfl

/-- A replacement of commands by white space or by other commands. -/
def Replaces (accepts : CommandCore → Bool) (act : CommandCore → Option CommandCore)
    (f : CommentCommand → Text) : Prop :=
  ∀ found : CommentCommand, accepts found.core = true → found.Spaced → found.core.WellFormed →
    (∃ core, act found.core = some core ∧ core.WellFormed ∧
      f found = found.lead.toList ++ core.text ++ found.trail.toList) ∨
    (act found.core = none ∧ f found ≠ [] ∧ ∀ c ∈ f found, Text.isSpace c = true)

/-- What becomes of the commands of a text when some are replaced. -/
def actOn (accepts : CommandCore → Bool) (act : CommandCore → Option CommandCore)
    (core : CommandCore) : Option CommandCore :=
  if accepts core then act core else some core

theorem Skeleton.Blanks.plain_text {act : CommandCore → Option CommandCore} (h : Blanks act ps qs)
    (text : Text) :
    Blanks act (Skeleton.plain text ++ ps) (Skeleton.plain text ++ qs) := by
  induction text with
  | nil => exact h
  | cons c text ih => exact ih.plain c

theorem Scans.blanks {parts : List CommentPart} {act : CommandCore → Option CommandCore}
    {f : CommentCommand → Text} (h : Scans accepts ps parts) (hf : Replaces accepts act f) :
    ∃ qs, Blanks (actOn accepts act) ps qs ∧
      flat qs = parts.flatMap (CommentPart.replaced f) := by
  induction h with
  | nil => exact ⟨[], .nil, rfl⟩
  | plain c _ ih =>
      obtain ⟨qs, hqs, hflat⟩ := ih
      exact ⟨.inl c :: qs, hqs.plain c, by rw [flat, hflat]; rfl⟩
  | @command found ps parts haccepts hspaced hwf _ ih =>
      obtain ⟨qs, hqs, hflat⟩ := ih
      rw [List.flatMap_cons, ← hflat, CommentPart.replaced]
      have hact : actOn accepts act found.core = act found.core := if_pos haccepts
      rcases hf found haccepts hspaced hwf with ⟨core, hcore, hwf', htext⟩ | ⟨hnone, hne, hmarks⟩
      · refine ⟨_, (Blanks.kept (hact.trans hcore) hwf' (hqs.plain_text _)).plain_text _, ?_⟩
        rw [flat_append, flat_plain, flat, flat_append, flat_plain, htext]
        simp only [List.append_assoc]
      · refine ⟨_, .blank (hact.trans hnone) hspaced.lead hspaced.trail hne hmarks hqs, ?_⟩
        rw [flat_append, flat_plain]
  | @rejected core ps parts hrejected hwf _ ih =>
      obtain ⟨qs, hqs, hflat⟩ := ih
      have hact : actOn accepts act core = some core := if_neg (by rw [hrejected]; decide)
      refine ⟨.inr core :: qs, .kept hact hwf hqs, ?_⟩
      rw [flat, hflat, List.flatMap_append, List.flatMap_map]
      congr 1
      exact (List.flatMap_singleton' core.text).symm

/-- A replacement in a text whose commands do not nest. -/
theorem skeleton_replaceCommands {act : CommandCore → Option CommandCore}
    {f : CommentCommand → Text} (hf : Replaces accepts act f) {text : Text}
    (hnested : ¬Nested (skeleton text))
    (hinner : ∀ core ∈ cores (skeleton text), accepts core = false → '[' ∉ core.text.tail) :
    ¬Nested (skeleton (replaceCommands accepts f text)) ∧
      cores (skeleton (replaceCommands accepts f text)) =
        (cores (skeleton text)).filterMap (actOn accepts act) ∧
      prose (skeleton (replaceCommands accepts f text)) = prose (skeleton text) := by
  have hscans := scans_commentParts (settled_skeleton text) hinner
  rw [flat_skeleton] at hscans
  obtain ⟨qs, hqs, hflat⟩ := hscans.blanks hf
  have hskeleton : skeleton (replaceCommands accepts f text) = qs := by
    rw [replaceCommands, ← hflat]
    exact (hqs.settled (settled_skeleton text) hnested).skeleton_flat
  rw [hskeleton]
  exact ⟨fun h ↦ hnested (hqs.nested h), hqs.cores_eq, hqs.prose_eq⟩

theorem scans_any (text : Text) :
    Scans anyCommand (skeleton text) (commentParts anyCommand text) := by
  have h : Scans anyCommand (skeleton text) (commentParts anyCommand (flat (skeleton text))) :=
    scans_commentParts (settled_skeleton text) fun _ _ hrejected ↦ by cases hrejected
  rwa [flat_skeleton] at h

theorem map_core_commandsIn (text : Text) :
    (commandsIn text).map CommentCommand.core = cores (skeleton text) := by
  rw [commandsIn, (scans_any text).commands_eq]
  exact List.filter_true (cores (skeleton text))

end EnCroissant
