import EnCroissant.Tree.CommentFacts

/-!
# Splitting a comment

What is taken out of a comment whose commands do not nest, and what stays: the
prose, the commands that are kept and the drawings.
-/

namespace EnCroissant

open Skeleton

variable {accepts : CommandCore → Bool} {ps qs : Skeleton}

/-! ## Drawings -/

theorem mem_of_mem_splitOn {entry text : Text} (h : entry ∈ text.splitOn ',') :
    ∀ c ∈ entry, c ∈ text ∧ c ≠ ',' := by
  induction text generalizing entry with
  | nil =>
      rw [List.splitOn_nil, List.mem_singleton] at h
      subst h
      intro c hc
      cases hc
  | cons d text ih =>
      have hlift : ∀ {e : Text}, e ∈ text.splitOn ',' → ∀ c ∈ e, c ∈ d :: text ∧ c ≠ ',' :=
        fun he c hc ↦ ⟨List.mem_cons_of_mem d (ih he c hc).1, (ih he c hc).2⟩
      rw [List.splitOn_cons_eq_if_modifyHead] at h
      split_ifs at h with hd
      · rcases List.mem_cons.mp h with rfl | hmem
        · intro c hc
          cases hc
        · exact hlift hmem
      · cases hsplit : text.splitOn ',' with
        | nil => exact absurd hsplit (List.splitOn_ne_nil ',' text)
        | cons e entries =>
            rw [hsplit] at h hlift
            rcases List.mem_cons.mp h with rfl | hmem
            · intro c hc
              rcases List.mem_cons.mp hc with rfl | hc
              · exact ⟨List.mem_cons_self, fun heq ↦ hd (beq_iff_eq.mpr heq)⟩
              · exact hlift List.mem_cons_self c hc
            · exact hlift (List.mem_cons_of_mem e hmem)

theorem mem_intercalate {entries : List Text} {c : Char}
    (h : c ∈ [','].intercalate entries) :
    c = ',' ∨ ∃ entry ∈ entries, c ∈ entry := by
  induction entries with
  | nil => cases h
  | cons entry entries ih =>
      cases entries with
      | nil =>
          rw [List.intercalate_singleton] at h
          exact .inr ⟨entry, List.mem_cons_self, h⟩
      | cons entry' entries =>
          rw [List.intercalate_cons_cons] at h
          rcases List.mem_append.mp h with hmem | hmem
          · rcases List.mem_append.mp hmem with hmem | hmem
            · exact .inr ⟨entry, List.mem_cons_self, hmem⟩
            · exact .inl (List.mem_singleton.mp hmem)
          · rcases ih hmem with heq | ⟨e, he, hc⟩
            · exact .inl heq
            · exact .inr ⟨e, List.mem_cons_of_mem entry he, hc⟩

/-- A text that repeats something without a comma has no comma. -/
theorem comma_not_mem_of_prefix {inner start rest : Text} (hne : start ≠ []) (hstart : ',' ∉ start)
    (h : inner <+: start ++ inner ++ rest) :
    ',' ∉ inner := by
  induction hn : inner.length using Nat.strong_induction_on generalizing inner with
  | _ n ih =>
  rw [List.append_assoc] at h
  rcases List.prefix_or_prefix_of_prefix h (List.prefix_append start _) with hshort |
    ⟨inner', hinner⟩
  · exact fun hmem ↦ hstart (hshort.subset hmem)
  · subst hinner
    have hlt : inner'.length < n := by
      rw [← hn, List.length_append]
      have hpos := List.length_pos_iff.mpr hne
      omega
    have h' := (List.prefix_append_right_inj start).mp h
    intro hmem
    rcases List.mem_append.mp hmem with hmem | hmem
    · exact hstart hmem
    · exact ih inner'.length hlt h' rfl hmem

/-- The command without its supported entries, if anything else is left of it. -/
def residualCore (core : CommandCore) : Option CommandCore :=
  match core.drawingBody with
  | none => some core
  | some body =>
      if residualEntries body = [] then none
      else some ⟨core.name, some (body.take 1 ++ [','].intercalate (residualEntries body))⟩

theorem replaceFirst_of_prefix {pattern text : Text} (new : Text) (hne : pattern ≠ []) :
    replaceFirst pattern new (pattern ++ text) = new ++ text := by
  obtain ⟨c, pattern, rfl⟩ := List.exists_cons_of_ne_nil hne
  have hprefix : (c :: pattern).isPrefixOf (c :: (pattern ++ text)) = true :=
    List.isPrefixOf_iff_prefix.mpr (List.prefix_append (c :: pattern) text)
  rw [List.cons_append, replaceFirst, if_pos hprefix, ← List.cons_append, List.drop_left]

theorem replaceFirst_append {pattern before text : Text} (new : Text) {c : Char}
    (hbefore : ∀ d ∈ before, d ≠ c) :
    replaceFirst (c :: pattern) new (before ++ text) =
      before ++ replaceFirst (c :: pattern) new text := by
  induction before with
  | nil => rfl
  | cons d before ih =>
      have hprefix : ¬(c :: pattern).isPrefixOf (d :: (before ++ text)) = true := by
        rw [List.isPrefixOf_iff_prefix, List.cons_prefix_cons]
        exact fun h ↦ hbefore d List.mem_cons_self h.1.symm
      rw [List.cons_append, replaceFirst, if_neg hprefix,
        ih fun e he ↦ hbefore e (List.mem_cons_of_mem d he), List.cons_append]

theorem body_eq_of_drawingBody {core : CommandCore} {body : Text}
    (h : core.drawingBody = some body) : core.body = some body := by
  rw [CommandCore.drawingBody] at h
  split_ifs at h
  exact h

theorem CommandCore.WellFormed.start {core : CommandCore} (h : core.WellFormed) :
    ∀ c ∈ '[' :: '%' :: core.name, Text.isSpace c = false ∧ c ≠ ',' := by
  intro c hc
  rcases List.mem_cons.mp hc with rfl | hc
  · exact ⟨by decide, by decide⟩
  · rcases List.mem_cons.mp hc with rfl | hc
    · exact ⟨by decide, by decide⟩
    · refine ⟨not_isSpace_of_isWordChar (h.name c hc), ?_⟩
      rintro rfl
      exact absurd (h.name _ hc) (by decide)

theorem drawingEntries_of_not_mem {c : Char} {inner : Text} (h : ',' ∉ inner) :
    drawingEntries (c :: inner) = [inner] := by
  rw [drawingEntries, List.drop_succ_cons, List.drop_zero, List.splitOn_eq_singleton h]

/-- The entries that are left take the place of the body, although the same text may stand in
front of the name. -/
theorem drawingReplacement_of_residual {found : CommentCommand}
    (hwf : found.core.WellFormed) {body : Text} (hbody : found.core.drawingBody = some body)
    (hne : residualEntries body ≠ []) :
    drawingReplacement found = found.lead.toList ++ CommandCore.text ⟨found.core.name,
      some (body.take 1 ++ [','].intercalate (residualEntries body))⟩ ++ found.trail.toList := by
  have hsome := body_eq_of_drawingBody hbody
  have hplain := hwf.start
  obtain ⟨c, inner, rfl, hspace, -⟩ := hwf.body body hsome
  have hnew : (c :: inner).take 1 ++ [','].intercalate (residualEntries (c :: inner)) =
      c :: [','].intercalate (residualEntries (c :: inner)) := rfl
  have hdiffers : ∀ d ∈ '[' :: '%' :: found.core.name, d ≠ c := by
    rintro d hd rfl
    rw [(hplain d hd).1] at hspace
    cases hspace
  have htext : found.text = found.lead.toList ++ (('[' :: '%' :: found.core.name) ++
      (c :: inner ++ (']' :: found.trail.toList))) := by
    rw [CommentCommand.text, CommandCore.text, hsome]
    simp
  rw [drawingReplacement, hbody]
  dsimp only
  rw [if_neg hne, hnew]
  have hcore : ∀ new : Text, replaceFirst (c :: inner) new (('[' :: '%' :: found.core.name) ++
      (c :: inner ++ (']' :: found.trail.toList))) =
        ('[' :: '%' :: found.core.name) ++ (new ++ (']' :: found.trail.toList)) := by
    intro new
    rw [replaceFirst_append new hdiffers, replaceFirst_of_prefix new (List.cons_ne_nil c inner)]
  have htarget : ∀ new : Text, found.lead.toList ++ CommandCore.text ⟨found.core.name, some new⟩ ++
      found.trail.toList = found.lead.toList ++ (('[' :: '%' :: found.core.name) ++
        (new ++ (']' :: found.trail.toList))) := by
    intro new
    simp [CommandCore.text]
  rw [htext, htarget]
  cases hlead : found.lead with
  | none => exact hcore _
  | some l =>
      rw [Option.toList_some, List.singleton_append, replaceFirst]
      split_ifs with hprefix
      · rw [List.isPrefixOf_iff_prefix, List.cons_prefix_cons] at hprefix
        obtain ⟨rfl, hinner⟩ := hprefix
        have hcomma : ',' ∉ inner := by
          have hrepeats : inner <+: ('[' :: '%' :: found.core.name ++ [c]) ++ inner ++
              ']' :: found.trail.toList := by
            simpa using hinner
          refine comma_not_mem_of_prefix (by simp) ?_ hrepeats
          · intro hmem
            rcases List.mem_append.mp hmem with hmem | hmem
            · exact (hplain _ hmem).2 rfl
            · obtain rfl := List.mem_singleton.mp hmem
              exact absurd hspace (by decide)
        have hentries := drawingEntries_of_not_mem (c := c) hcomma
        have hresidual : residualEntries (c :: inner) = [inner] := by
          rw [residualEntries, hentries, List.filter_singleton] at hne ⊢
          cases hnone : (readDrawing inner).isNone with
          | true => rfl
          | false =>
              rw [hnone] at hne
              exact absurd rfl hne
        rw [hresidual, List.intercalate_singleton]
        exact (List.prefix_append_drop (List.cons_prefix_cons.mpr ⟨rfl, hinner⟩)).symm
      · rw [hcore]
        rfl

theorem mem_residualEntries {c d : Char} {inner entry : Text}
    (h : entry ∈ residualEntries (c :: inner)) (hd : d ∈ entry) : d ∈ inner ∧ d ≠ ',' := by
  have hmem : entry ∈ inner.splitOn ',' := (List.mem_filter.mp h).1
  exact mem_of_mem_splitOn hmem d hd

theorem residualCore_wellFormed {core core' : CommandCore} (h : core.WellFormed)
    (hresidual : residualCore core = some core') :
    core'.WellFormed := by
  rw [residualCore] at hresidual
  cases hbody : core.drawingBody with
  | none =>
      rw [hbody] at hresidual
      obtain rfl := Option.some.inj hresidual
      exact h
  | some body =>
      rw [hbody] at hresidual
      dsimp only at hresidual
      split_ifs at hresidual with hnil
      obtain rfl := Option.some.inj hresidual
      obtain ⟨c, inner, rfl, hspace, hclose⟩ := h.body body (body_eq_of_drawingBody hbody)
      refine ⟨h.name_ne, h.name, fun body' hbody' ↦ ?_⟩
      refine ⟨c, _, (Option.some.inj hbody').symm, hspace, fun hmem ↦ ?_⟩
      rcases mem_intercalate hmem with hcomma | ⟨entry, hentry, hd⟩
      · exact absurd hcomma (by decide)
      · exact hclose (mem_residualEntries hentry hd).1

/-- What is left of a command has no supported entry. -/
theorem drawings_residualCore {core core' : CommandCore} (h : core.WellFormed)
    (hresidual : residualCore core = some core') :
    core'.drawings = [] := by
  rw [residualCore] at hresidual
  cases hbody : core.drawingBody with
  | none =>
      rw [hbody] at hresidual
      obtain rfl := Option.some.inj hresidual
      rw [CommandCore.drawings, hbody]
      rfl
  | some body =>
      rw [hbody] at hresidual
      dsimp only at hresidual
      split_ifs at hresidual with hnil
      obtain rfl := Option.some.inj hresidual
      obtain ⟨c, inner, rfl, -, -⟩ := h.body body (body_eq_of_drawingBody hbody)
      have hname : core.name = "cal".toList ∨ core.name = "csl".toList := by
        by_contra hneither
        rw [CommandCore.drawingBody, if_neg hneither] at hbody
        cases hbody
      have hentries : drawingEntries ((c :: inner).take 1 ++
          [','].intercalate (residualEntries (c :: inner))) = residualEntries (c :: inner) := by
        refine List.splitOn_intercalate ',' ?_ hnil
        intro entry hentry hcomma
        exact (mem_residualEntries hentry hcomma).2 rfl
      rw [CommandCore.drawings, CommandCore.drawingBody, if_pos hname]
      change drawingsOf _ = []
      rw [drawingsOf, hentries, List.filterMap_eq_nil_iff]
      intro entry hentry
      exact Option.isNone_iff_eq_none.mp (List.mem_filter.mp hentry).2

theorem replaces_drawings : Replaces anyCommand residualCore drawingReplacement := by
  intro found _ _ hwf
  cases hbody : found.core.drawingBody with
  | none =>
      refine .inl ⟨found.core, ?_, hwf, ?_⟩
      · rw [residualCore, hbody]
      · rw [drawingReplacement, hbody]
        rfl
  | some body =>
      by_cases hnil : residualEntries body = []
      · refine .inr ⟨?_, ?_⟩
        · rw [residualCore, hbody]
          exact if_pos hnil
        · have hblank : drawingReplacement found = [' ', ' '] := by
            rw [drawingReplacement, hbody]
            exact if_pos hnil
          rw [hblank]
          exact ⟨List.cons_ne_nil _ _, fun _ hc ↦ isSpace_of_mem_blanks hc⟩
      · have hcore : residualCore found.core = some ⟨found.core.name,
            some (body.take 1 ++ [','].intercalate (residualEntries body))⟩ := by
          rw [residualCore, hbody]
          exact if_neg hnil
        exact .inl ⟨_, hcore, residualCore_wellFormed hwf hcore,
          drawingReplacement_of_residual hwf hbody hnil⟩

theorem actOn_any (act : CommandCore → Option CommandCore) : actOn anyCommand act = act := rfl

theorem mem_cores_wellFormed {text : Text} {core : CommandCore}
    (h : core ∈ cores (skeleton text)) : core.WellFormed := by
  have hsettled := settled_skeleton text
  generalize skeleton text = ps at h hsettled
  induction ps with
  | nil => cases h
  | cons part ps ih =>
      cases part with
      | inl c => exact ih h hsettled.2
      | inr core' =>
          rcases List.mem_cons.mp h with rfl | hmem
          · exact hsettled.1
          · exact ih hmem hsettled.2

/-- The drawings of a text, and the text without them. -/
theorem extractPgnDrawings_spec {text : Text} (hnested : ¬Nested (skeleton text)) :
    (extractPgnDrawings text).2 = (cores (skeleton text)).flatMap CommandCore.drawings ∧
      ¬Nested (skeleton (extractPgnDrawings text).1) ∧
      cores (skeleton (extractPgnDrawings text).1) =
        (cores (skeleton text)).filterMap residualCore ∧
      prose (skeleton (extractPgnDrawings text).1) = prose (skeleton text) := by
  refine ⟨?_, skeleton_replaceCommands replaces_drawings hnested
    fun _ _ hrejected ↦ by cases hrejected⟩
  rw [extractPgnDrawings, ← map_core_commandsIn, List.flatMap_map]

theorem extractPgnDrawings_of_drawings {text : Text}
    (h : ∀ core ∈ cores (skeleton text), core.drawings = []) :
    (extractPgnDrawings text).2 = [] := by
  rw [extractPgnDrawings]
  refine List.flatMap_eq_nil_iff.mpr fun found hfound ↦ h found.core ?_
  rw [← map_core_commandsIn]
  exact List.mem_map_of_mem hfound

theorem drawings_of_mem_residual {text : Text} {core : CommandCore}
    (h : core ∈ (cores (skeleton text)).filterMap residualCore) :
    core.drawings = [] := by
  obtain ⟨core', hcore', hresidual⟩ := List.mem_filterMap.mp h
  exact drawings_residualCore (mem_cores_wellFormed hcore') hresidual

/-! ## Trimming -/

theorem isSome_coreAt_append {text : Text} (rest : Text) (h : (coreAt text).isSome) :
    (coreAt (text ++ rest)).isSome := by
  rw [coreAt_isSome_iff] at h ⊢
  obtain ⟨name, c, tail, rfl, hne, hname, hc⟩ := h
  refine ⟨name, c, tail ++ rest, by simp, hne, hname, ?_⟩
  exact hc.imp_right fun hspace ↦ ⟨hspace.1, List.mem_append_left rest hspace.2⟩

theorem Skeleton.Settled.of_append_left (h : Settled (ps ++ qs)) : Settled ps := by
  induction ps with
  | nil => trivial
  | cons part ps ih =>
      cases part with
      | inl c =>
          refine ⟨?_, ih h.2⟩
          have hnone : coreAt (c :: flat (ps ++ qs)) = none := h.1
          rw [flat_append, ← List.cons_append] at hnone
          rw [← Option.not_isSome_iff_eq_none] at hnone ⊢
          exact fun hsome ↦ hnone (isSome_coreAt_append _ hsome)
      | inr core => exact ⟨h.1, ih h.2⟩

/-- The skeletons of two texts differ in white space only. -/
structure SameCommands (text text' : Text) : Prop where
  cores : cores (skeleton text') = cores (skeleton text)
  prose : prose (skeleton text') = prose (skeleton text)

theorem dropWhile_isSpace (h : Settled ps) :
    ∃ qs, Settled qs ∧ flat qs = (flat ps).dropWhile Text.isSpace ∧ cores qs = cores ps ∧
      prose qs = prose ps := by
  induction ps with
  | nil => exact ⟨[], trivial, rfl, rfl, rfl⟩
  | cons part ps ih =>
      cases part with
      | inl c =>
          rw [flat]
          cases hspace : Text.isSpace c with
          | true =>
              obtain ⟨qs, hqs, hflat, hcores, hprose⟩ := ih h.2
              refine ⟨qs, hqs, ?_, hcores, ?_⟩
              · rw [List.dropWhile_cons_of_pos hspace, hflat]
              · rw [hprose]
                exact (List.filter_cons_of_neg (by rw [hspace]; decide)).symm
          | false =>
              refine ⟨.inl c :: ps, h, ?_, rfl, rfl⟩
              rw [List.dropWhile_cons_of_neg (by rw [hspace]; decide), flat]
      | inr core =>
          refine ⟨.inr core :: ps, h, ?_, rfl, rfl⟩
          obtain ⟨tail, htail⟩ := core.text_eq_cons
          rw [flat, htail, List.cons_append, List.dropWhile_cons_of_neg (by decide)]

theorem rdropWhile_isSpace (h : Settled ps) :
    ∃ qs, Settled qs ∧ flat qs = (flat ps).rdropWhile Text.isSpace ∧ cores qs = cores ps ∧
      prose qs = prose ps := by
  induction ps using List.reverseRecOn with
  | nil => exact ⟨[], trivial, rfl, rfl, rfl⟩
  | append_singleton ps part ih =>
      cases part with
      | inl c =>
          have hflat : flat (ps ++ [.inl c]) = flat ps ++ [c] := flat_append ps _
          cases hspace : Text.isSpace c with
          | true =>
              obtain ⟨qs, hqs, htext, hcores, hprose⟩ := ih h.of_append_left
              refine ⟨qs, hqs, ?_, ?_, ?_⟩
              · rw [hflat, List.rdropWhile_concat_pos _ _ _ hspace, htext]
              · rw [hcores, cores_append]
                exact (List.append_nil _).symm
              · have hnil : prose [.inl c] = [] :=
                  List.filter_cons_of_neg (by rw [hspace]; decide)
                rw [hprose, prose_append, hnil, List.append_nil]
          | false =>
              refine ⟨ps ++ [.inl c], h, ?_, rfl, rfl⟩
              rw [hflat, List.rdropWhile_concat_neg _ _ _ (by rw [hspace]; decide)]
      | inr core =>
          refine ⟨ps ++ [.inr core], h, ?_, rfl, rfl⟩
          have hflat : flat (ps ++ [.inr core]) =
              (flat ps ++ '[' :: '%' :: (core.name ++ core.body.getD [])) ++ [']'] := by
            rw [flat_append]
            simp [flat, CommandCore.text]
          rw [hflat, List.rdropWhile_concat_neg _ _ _ (by decide)]

theorem sameCommands_trim (text : Text) : SameCommands text text.trim := by
  obtain ⟨ps, hps, hflat, hcores, hprose⟩ := dropWhile_isSpace (settled_skeleton text)
  obtain ⟨qs, hqs, hflat', hcores', hprose'⟩ := rdropWhile_isSpace hps
  have hskeleton : skeleton text.trim = qs := by
    rw [← hqs.skeleton_flat, hflat', hflat, flat_skeleton]
    rfl
  exact ⟨by rw [hskeleton, hcores', hcores], by rw [hskeleton, hprose', hprose]⟩

theorem CommentCommand.Spaced.trim_text {found : CommentCommand} (h : found.Spaced) :
    found.text.trim = found.core.text := by
  have hlead : (found.lead.toList ++ found.core.text ++ found.trail.toList).dropWhile
      Text.isSpace = found.core.text ++ found.trail.toList := by
    obtain ⟨tail, htail⟩ := found.core.text_eq_cons
    rw [List.append_assoc, List.dropWhile_append_of_pos (Blanks.forall_toList h.lead), htail,
      List.cons_append, List.dropWhile_cons_of_neg (by decide)]
  have hclose : found.core.text =
      ('[' :: '%' :: (found.core.name ++ found.core.body.getD [])) ++ [']'] := by
    simp [CommandCore.text]
  rw [Text.trim, CommentCommand.text, hlead]
  cases htrail : found.trail with
  | none =>
      rw [Option.toList_none, List.append_nil, hclose,
        List.rdropWhile_concat_neg _ _ _ (by decide)]
  | some c =>
      rw [Option.toList_some, List.rdropWhile_concat_pos _ _ _ (h.trail c htrail), hclose,
        List.rdropWhile_concat_neg _ _ _ (by decide)]

/-! ## The comment parser -/

theorem CommandCore.exists_text_eq_cons (core : CommandCore) :
    ∃ rest, core.text = '[' :: rest :=
  ⟨_, rfl⟩

theorem CommandCore.WellFormed.count_close {core : CommandCore} (h : core.WellFormed) :
    core.text.count ']' = 1 := by
  have hname : ']' ∉ core.name := fun hmem ↦ ne_close_of_isWordChar (h.name _ hmem) rfl
  have hbody : ']' ∉ core.body.getD [] := by
    cases hsome : core.body with
    | none => exact List.not_mem_nil
    | some body =>
        obtain ⟨c, inner, rfl, hspace, hinner⟩ := h.body body hsome
        intro hmem
        rcases List.mem_cons.mp hmem with heq | hmem
        · exact ne_close_of_isSpace hspace heq.symm
        · exact hinner hmem
  have htext : core.text = ['[', '%'] ++ core.name ++ core.body.getD [] ++ [']'] := by
    simp [CommandCore.text]
  rw [htext, List.count_append, List.count_append, List.count_append, List.count_eq_zero.mpr hname,
    List.count_eq_zero.mpr hbody]
  decide

theorem replaceCommands_cons {f : CommentCommand → Text} {c : Char} {text : Text}
    (h : commandAt accepts (c :: text) = none) :
    replaceCommands accepts f (c :: text) = c :: replaceCommands accepts f text := by
  rw [replaceCommands, commentParts_cons h]
  rfl

theorem replaceCommands_command {f : CommentCommand → Text} {text rest : Text}
    {found : CommentCommand} (h : commandAt accepts text = some found)
    (htext : text = found.text ++ rest) :
    replaceCommands accepts f text = f found ++ replaceCommands accepts f rest := by
  rw [replaceCommands, commentParts_command h htext]
  rfl

/-- Blanking commands out either changes nothing or loses a bracket. -/
theorem replaceCommands_blanks (accepts : CommandCore → Bool) (text : Text) :
    replaceCommands accepts (fun _ ↦ [' ', ' ']) text = text ∨
      (replaceCommands accepts (fun _ ↦ [' ', ' ']) text).count ']' < text.count ']' := by
  induction hn : text.length using Nat.strong_induction_on generalizing text with
  | _ n ih =>
  cases text with
  | nil => exact .inl rfl
  | cons c text =>
      cases hat : commandAt accepts (c :: text) with
      | none =>
          rw [replaceCommands_cons hat]
          rcases ih text.length (by rw [← hn]; exact Nat.lt_succ_self _) text rfl with heq | hlt
          · exact .inl (by rw [heq])
          · right
            rw [List.count_cons, List.count_cons]
            omega
      | some found =>
          obtain ⟨-, -, -, rest, htext⟩ := commandAt_eq_some hat
          have hpos : 0 < found.text.count ']' := by
            rw [List.count_pos_iff, CommentCommand.text]
            exact List.mem_append_left _ (List.mem_append_right _ (close_mem_text found.core))
          have hlt : rest.length < n := by
            have hlength := List.count_le_length (a := ']') (l := found.text)
            rw [← hn, htext, List.length_append]
            omega
          have hrest : (replaceCommands accepts (fun _ ↦ [' ', ' ']) rest).count ']' ≤
              rest.count ']' := by
            rcases ih rest.length hlt rest rfl with heq | hless
            · rw [heq]
            · exact hless.le
          right
          rw [replaceCommands_command hat htext, htext, List.count_append, List.count_append]
          have hblank : [' ', ' '].count ']' = 0 := by decide
          omega

namespace CommentSyntax

variable (syn : CommentSyntax)

/-- One of the parser's passes over a text. -/
def blanked (name text : Text) : Text :=
  replaceCommands (syn.accepts name) (fun _ ↦ [' ', ' ']) text

theorem parseComment_eq (comment : Text) :
    syn.parseComment comment =
      (parsedNames.foldl (fun text name ↦ syn.blanked name text) comment).trim :=
  rfl

/-- A command that no pass accepts is not taken out, though something inside it may be. -/
theorem foldl_blanked_of_rejected {core : CommandCore} (h : core.WellFormed)
    {names : List Text} (hnames : ∀ name ∈ names, syn.accepts name core = false) {text : Text}
    (hopen : ∃ rest, text = '[' :: rest) (htext : text = core.text ∨ ']' ∉ text) :
    ∃ rest, names.foldl (fun text name ↦ syn.blanked name text) text = '[' :: rest := by
  induction names generalizing text with
  | nil => exact hopen
  | cons name names ih =>
      have hrest : ∀ name ∈ names, syn.accepts name core = false :=
        fun name' hname' ↦ hnames name' (List.mem_cons_of_mem name hname')
      have hsame := replaceCommands_blanks (syn.accepts name) text
      rw [List.foldl_cons]
      rcases htext with rfl | hclose
      · obtain ⟨rest, htail⟩ := hopen
        have hat : commandAt (syn.accepts name) ('[' :: rest) = none := by
          have hcore := commandAt_core (syn.accepts name) h []
          rw [hnames name List.mem_cons_self, List.append_nil, htail] at hcore
          exact hcore
        refine ih hrest ⟨replaceCommands (syn.accepts name) (fun _ ↦ [' ', ' ']) rest, ?_⟩ ?_
        · rw [blanked, htail, replaceCommands_cons hat]
        · rcases hsame with heq | hlt
          · exact .inl heq
          · rw [h.count_close, Nat.lt_one_iff, List.count_eq_zero] at hlt
            exact .inr hlt
      · have hzero : text.count ']' = 0 := List.count_eq_zero.mpr hclose
        have heq : syn.blanked name text = text := by
          rcases hsame with heq | hlt
          · exact heq
          · omega
        rw [heq]
        exact ih hrest hopen (.inr hclose)

theorem exists_accepts {core : CommandCore} (h : core.WellFormed)
    (hparse : syn.parseComment core.text = []) :
    ∃ name ∈ parsedNames, syn.accepts name core = true := by
  by_contra hnone
  simp only [not_exists, not_and, Bool.not_eq_true] at hnone
  obtain ⟨rest, hrest⟩ :=
    syn.foldl_blanked_of_rejected h hnone core.exists_text_eq_cons (.inl rfl)
  rw [parseComment_eq, hrest, Text.trim, List.dropWhile_cons_of_neg (by decide),
    List.rdropWhile_eq_nil_iff] at hparse
  exact absurd (hparse '[' List.mem_cons_self) (by decide)

theorem replaces_blanks (accepts : CommandCore → Bool) :
    Replaces accepts (fun _ ↦ none) fun _ ↦ [' ', ' '] :=
  fun _ _ _ _ ↦ .inr ⟨rfl, List.cons_ne_nil _ _, fun _ hc ↦ isSpace_of_mem_blanks hc⟩

/-- The values the parser accepts hold no bracket. -/
def PlainValues : Prop := ∀ name value, syn.wellFormed name value = true → '[' ∉ value

variable {syn}

theorem PlainValues.inner (hplain : syn.PlainValues) {core : CommandCore} (h : core.WellFormed)
    {name : Text} (haccepts : syn.accepts name core = true) : '[' ∉ core.text.tail := by
  rw [accepts] at haccepts
  cases hbody : core.body with
  | none =>
      rw [hbody] at haccepts
      cases haccepts
  | some body =>
      obtain ⟨c, inner, rfl, hspace, -⟩ := h.body body hbody
      rw [hbody] at haccepts
      have hinner := hplain name inner (Bool.and_eq_true_iff.mp haccepts).2
      rw [CommandCore.text, hbody, List.tail_cons]
      intro hmem
      rcases List.mem_cons.mp hmem with heq | hmem
      · exact absurd heq (by decide)
      · rcases List.mem_append.mp hmem with hmem | hmem
        · rcases List.mem_append.mp hmem with hmem | hmem
          · exact ne_open_of_isWordChar (h.name _ hmem) rfl
          · rcases List.mem_cons.mp hmem with heq | hmem
            · exact ne_open_of_isSpace hspace heq.symm
            · exact hinner hmem
        · exact absurd (List.mem_singleton.mp hmem) (by decide)

/-- The passes take out the commands they accept. -/
theorem foldl_blanked (names : List Text) {text : Text} (hnested : ¬Nested (skeleton text))
    (hinner : ∀ core ∈ cores (skeleton text), '[' ∉ core.text.tail) :
    (∀ core ∈ cores (skeleton (names.foldl (fun text name ↦ syn.blanked name text) text)),
      core ∈ cores (skeleton text) ∧ ∀ name ∈ names, syn.accepts name core = false) ∧
    prose (skeleton (names.foldl (fun text name ↦ syn.blanked name text) text)) =
      prose (skeleton text) := by
  induction names generalizing text with
  | nil => exact ⟨fun core hcore ↦ ⟨hcore, fun name hname ↦ by cases hname⟩, rfl⟩
  | cons name names ih =>
      obtain ⟨hnested', hcores', hprose'⟩ := skeleton_replaceCommands
        (replaces_blanks (syn.accepts name)) hnested fun core hcore _ ↦ hinner core hcore
      have hsub : ∀ core ∈ cores (skeleton (syn.blanked name text)),
          core ∈ cores (skeleton text) ∧ syn.accepts name core = false := by
        intro core hcore
        rw [blanked, hcores', List.mem_filterMap] at hcore
        obtain ⟨core', hcore', hact⟩ := hcore
        rw [actOn] at hact
        split_ifs at hact with haccepts
        obtain rfl := Option.some.inj hact
        exact ⟨hcore', Bool.eq_false_iff.mpr haccepts⟩
      obtain ⟨hcores, hprose⟩ := ih hnested' fun core hcore ↦ hinner core (hsub core hcore).1
      rw [List.foldl_cons]
      refine ⟨fun core hcore ↦ ?_, hprose.trans hprose'⟩
      obtain ⟨hmem, hnames⟩ := hcores core hcore
      refine ⟨(hsub core hmem).1, fun name' hname' ↦ ?_⟩
      rcases List.mem_cons.mp hname' with rfl | hname'
      · exact (hsub core hmem).2
      · exact hnames name' hname'

/-- Where the parser knows all commands of a text, it leaves the prose. -/
theorem PlainValues.parseComment (hplain : syn.PlainValues) {text : Text}
    (hnested : ¬Nested (skeleton text))
    (hknown : ∀ core ∈ cores (skeleton text), ∃ name ∈ parsedNames, syn.accepts name core = true) :
    cores (skeleton (syn.parseComment text)) = [] ∧
      prose (skeleton (syn.parseComment text)) = prose (skeleton text) := by
  have hinner : ∀ core ∈ cores (skeleton text), '[' ∉ core.text.tail := by
    intro core hcore
    obtain ⟨name, -, haccepts⟩ := hknown core hcore
    exact hplain.inner (mem_cores_wellFormed hcore) haccepts
  obtain ⟨hcores, hprose⟩ := foldl_blanked parsedNames hnested hinner
  rw [parseComment_eq, (sameCommands_trim _).cores, (sameCommands_trim _).prose]
  refine ⟨List.eq_nil_iff_forall_not_mem.mpr fun core hcore ↦ ?_, hprose⟩
  obtain ⟨hmem, hrejected⟩ := hcores core hcore
  obtain ⟨name, hname, haccepts⟩ := hknown core hmem
  rw [hrejected name hname] at haccepts
  cases haccepts

end CommentSyntax

/-! ## What a split keeps -/

theorem Scans.forall_command {parts : List CommentPart} (h : Scans accepts ps parts) :
    ∀ found ∈ parts.filterMap CommentPart.command?, found.Spaced ∧ found.core.WellFormed := by
  induction h with
  | nil => exact fun _ hfound ↦ by cases hfound
  | plain c _ ih => exact ih
  | @command found ps parts _ hspaced hwf _ ih =>
      intro found' hfound'
      rcases List.mem_cons.mp hfound' with rfl | hmem
      · exact ⟨hspaced, hwf⟩
      · exact ih found' hmem
  | @rejected core ps parts _ _ _ ih =>
      intro found hfound
      rw [List.filterMap_append, List.filterMap_map] at hfound
      have hnil : core.text.filterMap (CommentPart.command? ∘ CommentPart.plain) = [] :=
        List.filterMap_eq_nil_iff.mpr fun _ _ ↦ rfl
      rw [hnil] at hfound
      exact ih found hfound

theorem forall_commandsIn (text : Text) :
    ∀ found ∈ commandsIn text, found.Spaced ∧ found.core.WellFormed :=
  (scans_any text).forall_command

theorem cores_flatMap_text {found : List CommentCommand}
    (h : ∀ command ∈ found, command.Spaced ∧ command.core.WellFormed) :
    cores (skeleton (found.flatMap CommentCommand.text)) = found.map CommentCommand.core := by
  have hall : ∃ ps, Settled ps ∧ flat ps = found.flatMap CommentCommand.text ∧
      cores ps = found.map CommentCommand.core := by
    induction found with
    | nil => exact ⟨[], trivial, rfl, rfl⟩
    | cons command found ih =>
        obtain ⟨ps, hps, hflat, hcores⟩ := ih fun c hc ↦ h c (List.mem_cons_of_mem command hc)
        obtain ⟨hspaced, hwf⟩ := h command List.mem_cons_self
        have hopen : ∀ {space : Option Char}, (∀ c ∈ space, Text.isSpace c = true) →
            ∀ c ∈ space.toList, c ≠ '[' :=
          fun hspace c hc ↦ ne_open_of_isSpace (Blanks.forall_toList hspace c hc)
        refine ⟨Skeleton.plain command.lead.toList ++ .inr command.core ::
          (Skeleton.plain command.trail.toList ++ ps), ?_, ?_, ?_⟩
        · have hrest : Settled (.inr command.core ::
              (Skeleton.plain command.trail.toList ++ ps)) :=
            ⟨hwf, hps.append_left (hopen hspaced.trail)⟩
          exact hrest.append_left (hopen hspaced.lead)
        · rw [flat_append, flat_plain, flat, flat_append, flat_plain, hflat, List.flatMap_cons,
            CommentCommand.text, List.append_assoc, List.append_assoc]
        · rw [cores_append, cores_plain, cores_cons_inr, cores_append, cores_plain,
            List.nil_append, List.nil_append, hcores, List.map_cons]
  obtain ⟨ps, hps, hflat, hcores⟩ := hall
  rw [← hflat, hps.skeleton_flat, hcores]

namespace CommentSyntax

variable (syn : CommentSyntax)

/-- The commands that the tree models, and that are read from the prose. -/
def modeledCore (core : CommandCore) : Bool :=
  modeledCommands.contains core.name && syn.isWellFormedModeled core.text

/-- The commands of a text that are kept, without their drawings. -/
def keptCores (text : Text) : List CommandCore :=
  ((cores (skeleton text)).filterMap residualCore).filter fun core ↦ !syn.modeledCore core

theorem isModeled_eq {found : CommentCommand} (h : found.Spaced) :
    syn.isModeled found = syn.modeledCore found.core := by
  rw [isModeled, h.trim_text]
  rfl

theorem replaces_split :
    Replaces anyCommand (fun core ↦ if syn.modeledCore core then some core else none)
      (syn.splitReplacement false) := by
  intro found _ hspaced hwf
  have hsplit : syn.splitReplacement false found =
      if syn.modeledCore found.core then found.text else [' '] := by
    rw [← syn.isModeled_eq hspaced]
    rfl
  rw [hsplit]
  dsimp only
  cases syn.modeledCore found.core with
  | true => exact .inl ⟨found.core, rfl, hwf, rfl⟩
  | false =>
      refine .inr ⟨rfl, List.cons_ne_nil _ _, fun c hc ↦ ?_⟩
      obtain rfl := List.mem_singleton.mp hc
      exact isSpace_blank

theorem splitPgnComment_commands (comment : Text) :
    (syn.splitPgnComment comment false).commands = Text.trim
      (((commandsIn (extractPgnDrawings comment).1).filter fun found ↦
        !syn.isModeled found).flatMap CommentCommand.text) :=
  rfl

theorem splitPgnComment_text (comment : Text) :
    (syn.splitPgnComment comment false).text = syn.parseComment
      (replaceCommands anyCommand (syn.splitReplacement false) (extractPgnDrawings comment).1) := by
  have hends : (commandsIn (extractPgnDrawings comment).1).filter (isGameEnd false) = [] :=
    List.filter_eq_nil_iff.mpr fun _ _ h ↦ by cases h
  rw [splitPgnComment]
  dsimp only
  rw [hends]
  exact if_neg fun h ↦ h.1 rfl

theorem splitPgnComment_shapes (comment : Text) :
    (syn.splitPgnComment comment false).shapes = (extractPgnDrawings comment).2 :=
  rfl

/-- The commands that a split keeps. -/
theorem cores_splitPgnComment {comment : Text} (hnested : ¬Nested (skeleton comment)) :
    cores (skeleton (syn.splitPgnComment comment false).commands) = syn.keptCores comment := by
  have hall := forall_commandsIn (extractPgnDrawings comment).1
  rw [splitPgnComment_commands, (sameCommands_trim _).cores, cores_flatMap_text
    fun found hfound ↦ hall found (List.mem_filter.mp hfound).1]
  have hfilter : (commandsIn (extractPgnDrawings comment).1).filter
      (fun found ↦ !syn.isModeled found) =
        (commandsIn (extractPgnDrawings comment).1).filter
          ((fun core ↦ !syn.modeledCore core) ∘ CommentCommand.core) := by
    refine List.filter_congr fun found hfound ↦ ?_
    rw [syn.isModeled_eq (hall found hfound).1]
    rfl
  obtain ⟨-, -, hcores, -⟩ := extractPgnDrawings_spec hnested
  rw [hfilter, ← List.filter_map, map_core_commandsIn, hcores]
  rfl

variable {syn}

/-- A split leaves the prose and no command. -/
theorem PlainValues.splitPgnComment (hplain : syn.PlainValues) {comment : Text}
    (hnested : ¬Nested (skeleton comment)) :
    cores (skeleton (syn.splitPgnComment comment false).text) = [] ∧
      prose (skeleton (syn.splitPgnComment comment false).text) = prose (skeleton comment) := by
  obtain ⟨-, hnested', -, hprose⟩ := extractPgnDrawings_spec hnested
  obtain ⟨hnested'', hcores', hprose'⟩ :=
    skeleton_replaceCommands syn.replaces_split hnested' fun _ _ hrejected ↦ by cases hrejected
  have hknown : ∀ core ∈ cores (skeleton (replaceCommands anyCommand (syn.splitReplacement false)
      (extractPgnDrawings comment).1)), ∃ name ∈ parsedNames, syn.accepts name core = true := by
    intro core hcore
    have hwf := mem_cores_wellFormed hcore
    rw [hcores', actOn_any, List.mem_filterMap] at hcore
    obtain ⟨core', -, hact⟩ := hcore
    split_ifs at hact with hmodeled
    obtain rfl := Option.some.inj hact
    exact syn.exists_accepts hwf (of_decide_eq_true (Bool.and_eq_true_iff.mp hmodeled).2)
  obtain ⟨hnil, htext⟩ := hplain.parseComment hnested'' hknown
  rw [splitPgnComment_text]
  exact ⟨hnil, by rw [htext, hprose', hprose]⟩

theorem trim_splitPgnComment (syn : CommentSyntax) (comment : Text) :
    Text.trim (syn.splitPgnComment comment false).text =
      (syn.splitPgnComment comment false).text := by
  rw [splitPgnComment_text, parseComment_eq, Text.trim_trim]

end CommentSyntax

/-! ## A text without commands -/

theorem Scans.eq_plain {parts : List CommentPart} (h : Scans accepts ps parts)
    (hcores : cores ps = []) :
    parts = (flat ps).map .plain := by
  induction h with
  | nil => rfl
  | plain c _ ih => rw [ih hcores, flat, List.map_cons]
  | command =>
      rw [cores_append, cores_cons_inr] at hcores
      cases (List.append_eq_nil_iff.mp hcores).2
  | rejected => cases hcores

theorem commentParts_of_cores_nil {text : Text} (h : cores (skeleton text) = []) :
    commentParts accepts text = text.map .plain := by
  have hscans : Scans accepts (skeleton text) (commentParts accepts (flat (skeleton text))) :=
    scans_commentParts (settled_skeleton text) fun core hcore ↦ by rw [h] at hcore; cases hcore
  have hplain := hscans.eq_plain h
  rwa [flat_skeleton] at hplain

theorem replaceCommands_of_cores_nil {f : CommentCommand → Text} {text : Text}
    (h : cores (skeleton text) = []) :
    replaceCommands accepts f text = text := by
  rw [replaceCommands, commentParts_of_cores_nil h, List.flatMap_map]
  exact List.flatMap_singleton' text

theorem commandsIn_of_cores_nil {text : Text} (h : cores (skeleton text) = []) :
    commandsIn text = [] := by
  rw [← map_core_commandsIn] at h
  exact List.map_eq_nil_iff.mp h

/-- A trimmed text without commands is split into itself. -/
theorem CommentSyntax.splitPgnComment_of_cores_nil (syn : CommentSyntax) {text : Text}
    (h : cores (skeleton text) = []) (htrim : text.trim = text) :
    (syn.splitPgnComment text false).text = text ∧
      (syn.splitPgnComment text false).commands = [] ∧
      (syn.splitPgnComment text false).shapes = [] := by
  have hextract : extractPgnDrawings text = (text, []) := by
    rw [extractPgnDrawings, replaceCommands_of_cores_nil h, commandsIn_of_cores_nil h]
    rfl
  refine ⟨?_, ?_, ?_⟩
  · have hfold : ∀ names : List Text,
        names.foldl (fun text name ↦ syn.blanked name text) text = text := by
      intro names
      induction names with
      | nil => rfl
      | cons name names ih =>
          rw [List.foldl_cons, CommentSyntax.blanked, replaceCommands_of_cores_nil h, ih]
    rw [syn.splitPgnComment_text, hextract, replaceCommands_of_cores_nil h, syn.parseComment_eq,
      hfold, htrim]
  · rw [syn.splitPgnComment_commands, hextract, commandsIn_of_cores_nil h]
    rfl
  · rw [syn.splitPgnComment_shapes, hextract]

end EnCroissant
