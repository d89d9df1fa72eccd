import EnCroissant.Engine.LogRuns

/-!
# Registered values in the engine log

Registered values are replaced one after the other.  As long as none of them
overlaps the mark that is put in their place, or the suffix of a cut line, none
is left in the log, and what the log shows is the pushed lines with stretches
replaced.
-/

namespace EnCroissant.Engine

open Replacing

/-! ## Calls -/

structure Transcript where
  redactions : ResourceRedactions
  logs : BoundedLogs
  deriving DecidableEq

inductive TranscriptCall where
  | gui (line : List Char)
  | engine (line : List Char)
  | register (values : List (List Char))
  deriving DecidableEq

namespace TranscriptCall

/-- A line is redacted before it is pushed; values that exceed the budget are refused. -/
def apply (t : Transcript) : TranscriptCall → Transcript
  | gui line => { t with logs := t.logs.push (.gui (t.redactions.redact line)) }
  | engine line => { t with logs := t.logs.push (.engine (t.redactions.redact line)) }
  | register values =>
      match t.redactions.register values t.logs with
      | .ok (redactions, logs) => ⟨redactions, logs⟩
      | .error _ => t

def run (calls : List TranscriptCall) : Transcript := calls.foldl apply ⟨.default, .default⟩

def pushed : TranscriptCall → Option EngineLog
  | gui line => some (.gui line)
  | engine line => some (.engine line)
  | register _ => none

end TranscriptCall

/-! ## Values that can be hidden -/

/-- A value that overlaps neither the mark nor the suffix of a cut line. -/
structure Hideable (value : List Char) : Prop where
  apart : Apart value redactionMark
  not_infix_suffix : ¬value <:+: truncationSuffix
  not_before_suffix : ∀ part, part ≠ [] → part <:+ value → ¬part <+: truncationSuffix

def TranscriptCall.Hides : TranscriptCall → Prop
  | register values => ∀ value ∈ values, value ≠ [] → Hideable value
  | _ => True

section Absent

variable {value line : List Char} {values : List (List Char)}

theorem redactLine_append (line : List Char) (values : List (List Char)) (value : List Char) :
    redactLine line (values ++ [value]) = replace value redactionMark (redactLine line values) := by
  rw [redactLine, List.foldl_append]
  rfl

theorem infix_of_infix_redactLine (h : Hideable value) (hvalues : ∀ v ∈ values, v ≠ [])
    (hinner : value <:+: redactLine line values) :
    value <:+: line := by
  induction values using List.reverseRecOn with
  | nil => exact hinner
  | append_singleton values last ih =>
      rw [redactLine_append] at hinner
      have hlast := hvalues last (List.mem_append_right _ (List.mem_singleton.mpr rfl))
      exact ih (fun v hv ↦ hvalues v (List.mem_append_left _ hv))
        (infix_of_infix_replace hlast h.apart hinner)

/-- A value that has been replaced does not come back. -/
theorem not_infix_redactLine (hvalues : ∀ v ∈ values, Hideable v) (hvalue : value ∈ values)
    (line : List Char) :
    ¬value <:+: redactLine line values := by
  induction values using List.reverseRecOn with
  | nil => cases hvalue
  | append_singleton values last ih =>
      rw [redactLine_append]
      have hlast := hvalues last (List.mem_append_right _ (List.mem_singleton.mpr rfl))
      have hbefore : ∀ v ∈ values, Hideable v := fun v hv ↦
        hvalues v (List.mem_append_left _ hv)
      rcases List.mem_append.mp hvalue with hold | hnew
      · intro hinner
        exact ih hbefore hold
          (infix_of_infix_replace hlast.apart.ne_nil (hbefore value hold).apart hinner)
      · obtain rfl := List.mem_singleton.mp hnew
        exact not_infix_replace hlast.apart _

/-- Cutting a line creates no occurrence. -/
theorem infix_of_infix_normalizeLine (h : Hideable value)
    (hinner : value <:+: (normalizeLine line).1) :
    value <:+: line := by
  rcases le_or_gt (byteLen line) maxLogBytes with hle | hlt
  · rw [normalizeLine_of_le hle] at hinner
    exact hinner
  · have hshortens := normalizeLine_of_lt hlt
    rw [hshortens.result] at hinner
    rcases List.infix_append_iff_ne_nil.mp hinner with hkept | hsuffix | ⟨a, b, -, hb, rfl, -, hb'⟩
    · exact hkept.trans hshortens.isPrefix.isInfix
    · exact absurd hsuffix h.not_infix_suffix
    · exact absurd hb' (h.not_before_suffix b hb (List.suffix_append a b))

theorem line_normalizeLogEntry (entry : EngineLog) :
    (normalizeLogEntry entry).1.line = (normalizeLine entry.line).1 := by
  cases entry with
  | gui line => rfl
  | engine line => rfl
  | truncated droppedEntries =>
      rw [normalizeLogEntry]
      exact (congrArg Prod.fst (normalizeLine_of_le (Nat.zero_le _))).symm

end Absent

/-! ## Evictions -/

theorem exists_evict_entries (incomingBytes maxEntries : ℕ) (entries : List EngineLog)
    (bytes : ℕ) (truncated : Bool) (droppedEntries : ℕ) :
    ∃ gone, (BoundedLogs.evict incomingBytes maxEntries entries bytes truncated
      droppedEntries).entries = entries.drop gone := by
  induction entries generalizing bytes truncated droppedEntries with
  | nil => exact ⟨0, rfl⟩
  | cons removed entries ih =>
      rw [BoundedLogs.evict]
      split_ifs
      · obtain ⟨gone, hgone⟩ := ih (bytes - removed.byteLen) true (saturatingAdd droppedEntries 1)
        exact ⟨gone + 1, hgone⟩
      · exact ⟨0, rfl⟩

theorem exists_push_entries (logs : BoundedLogs) (entry : EngineLog) :
    ∃ gone, (logs.push entry).entries =
      logs.entries.drop gone ++ [(normalizeLogEntry entry).1] := by
  obtain ⟨gone, hgone⟩ := exists_evict_entries (normalizeLogEntry entry).1.byteLen
    (maxLogLines - true.toNat) logs.entries logs.bytes
    (logs.truncated || (normalizeLogEntry entry).2) logs.droppedEntries
  exact ⟨gone, congrArg (· ++ [(normalizeLogEntry entry).1]) hgone⟩

theorem exists_redact_entries (logs : BoundedLogs) {values : List (List Char)}
    (hvalues : values ≠ []) :
    ∃ gone, (logs.redact values).entries = (logs.entries.map fun entry ↦
      (normalizeLogEntry (redactEntry values entry)).1).drop gone := by
  rw [BoundedLogs.redact, if_neg hvalues]
  dsimp only
  obtain ⟨gone, hgone⟩ := exists_evict_entries 0 (maxLogLines - false.toNat)
    ((logs.entries.map fun entry ↦ normalizeLogEntry (redactEntry values entry)).map Prod.fst)
    _ _ logs.droppedEntries
  refine ⟨gone, hgone.trans ?_⟩
  rw [List.map_map]
  rfl

/-! ## The positions that are replaced -/

/-- What becomes of a line from the left: a character is kept, a stretch is replaced by the
mark, or the rest is cut off, perhaps inside a mark. -/
inductive Edit where
  | keep
  | mark (length : ℕ)
  | cut (length : ℕ)
  deriving DecidableEq, Repr

def applyEdits : List Edit → List Char → List Char
  | [], _ => []
  | .keep :: _, [] => []
  | .keep :: edits, c :: line => c :: applyEdits edits line
  | .mark n :: edits, line => redactionMark ++ applyEdits edits (line.drop n)
  | .cut n :: _, _ => redactionMark.take n ++ truncationSuffix

/-- Only stretches that are registered values are replaced. -/
inductive Masks (values : List (List Char)) : List Edit → List Char → Prop
  | done : Masks values [] []
  | keep {edits line} (c : Char) : Masks values edits line →
      Masks values (.keep :: edits) (c :: line)
  | mark {edits line value} : value ∈ values → Masks values edits line →
      Masks values (.mark value.length :: edits) (value ++ line)
  | cut {n} (line : List Char) : n ≤ redactionMark.length → Masks values [.cut n] line

section Positions

variable {value line : List Char} {values : List (List Char)} {edits : List Edit}

theorem applyEdits_mark (value line : List Char) (edits : List Edit) :
    applyEdits (.mark value.length :: edits) (value ++ line) =
      redactionMark ++ applyEdits edits line := by
  rw [applyEdits, List.drop_left]

theorem applyEdits_cut (n : ℕ) (line : List Char) :
    applyEdits [.cut n] line = redactionMark.take n ++ truncationSuffix := by
  rw [applyEdits]

theorem eq_nil_of_byteLen {text : List Char} (h : byteLen text = 0) : text = [] := by
  cases text with
  | nil => rfl
  | cons c text =>
      rw [byteLen_cons] at h
      have hpos := c.utf8Size_pos
      omega

theorem Masks.mono {values' : List (List Char)} (h : Masks values edits line)
    (hsubset : ∀ v ∈ values, v ∈ values') :
    Masks values' edits line := by
  induction h with
  | done => exact .done
  | keep c _ ih => exact .keep c ih
  | mark hvalue _ ih => exact .mark (hsubset _ hvalue) ih
  | cut line hn => exact .cut line hn

theorem exists_masks_keep (values : List (List Char)) (line : List Char) :
    ∃ edits, Masks values edits line ∧ applyEdits edits line = line := by
  induction line with
  | nil => exact ⟨[], .done, rfl⟩
  | cons c line ih =>
      obtain ⟨edits, hmasks, happly⟩ := ih
      exact ⟨.keep :: edits, .keep c hmasks, by rw [applyEdits, happly]⟩

/-- A value in the text stands in kept characters. -/
theorem Masks.exists_kept {part rest : List Char} (hvalue : Hideable value)
    (hpart : part <:+ value) (h : Masks values edits line)
    (htext : applyEdits edits line = part ++ rest) :
    ∃ edits' line', edits = List.replicate part.length .keep ++ edits' ∧ line = part ++ line' ∧
      Masks values edits' line' ∧ applyEdits edits' line' = rest := by
  induction part generalizing edits line with
  | nil => exact ⟨edits, line, rfl, rfl, h, htext⟩
  | cons c part ih =>
      have hne : c :: part ≠ [] := List.cons_ne_nil c part
      cases h with
      | done => cases htext
      | keep d hmasks =>
          rw [applyEdits, List.cons_append, List.cons.injEq] at htext
          obtain ⟨rfl, htext⟩ := htext
          obtain ⟨edits', line', rfl, rfl, hmasks', happly⟩ :=
            ih ((List.suffix_cons d part).trans hpart) hmasks htext
          exact ⟨edits', line', rfl, rfl, hmasks', happly⟩
      | mark hmem hmasks =>
          rw [applyEdits_mark] at htext
          exact absurd ⟨rest, htext.symm⟩ (hvalue.apart.not_prefix_append hne hpart)
      | cut line hn =>
          rw [applyEdits_cut] at htext
          have hprefix : c :: part <+: redactionMark.take _ ++ truncationSuffix :=
            ⟨rest, htext.symm⟩
          rcases List.prefix_or_prefix_of_prefix hprefix
            (List.prefix_append _ truncationSuffix) with hle | ⟨tail, htail⟩
          · exact absurd (hle.trans (List.take_prefix _ _)) (hvalue.apart.not_before _ hne hpart)
          · rw [← htail] at hprefix
            have htail' := (List.prefix_append_right_inj _).mp hprefix
            have hsuffix : tail <:+ value := by
              refine List.IsSuffix.trans ?_ hpart
              rw [← htail]
              exact List.suffix_append _ tail
            by_cases hnil : tail = []
            · subst hnil
              rw [List.append_nil] at htail
              have hmark : c :: part <+: redactionMark := htail ▸ List.take_prefix _ _
              exact absurd hmark (hvalue.apart.not_before _ hne hpart)
            · exact absurd htail' (hvalue.not_before_suffix tail hnil hsuffix)

/-- Nothing in the text of a cut mark is replaced. -/
theorem not_infix_cut (hvalue : Hideable value) (n : ℕ) :
    ¬value <:+: redactionMark.take n ++ truncationSuffix := by
  intro hinner
  rcases List.infix_append_iff_ne_nil.mp hinner with hmark | hsuffix | ⟨a, b, -, hb, rfl, -, hb'⟩
  · exact hvalue.apart.not_infix (hmark.trans (List.take_prefix _ _).isInfix)
  · exact hvalue.not_infix_suffix hsuffix
  · exact hvalue.not_before_suffix b hb (List.suffix_append a b) hb'

/-- Replacing a value in the text replaces stretches of the line. -/
theorem Masks.replace (hvalue : Hideable value) (hmem : value ∈ values)
    (h : Masks values edits line) :
    ∃ edits', Masks values edits' line ∧
      applyEdits edits' line = Replacing.replace value redactionMark (applyEdits edits line) := by
  have hne := hvalue.apart.ne_nil
  induction hlen : edits.length using Nat.strong_induction_on generalizing edits line with
  | _ n ih =>
      cases h with
      | done =>
          refine ⟨[], .done, ?_⟩
          rw [applyEdits, replace_nil hne]
      | @keep edits line c hmasks =>
          rw [applyEdits]
          by_cases hprefix : value <+: c :: applyEdits edits line
          · obtain ⟨rest, hrest⟩ := hprefix
            have htext : applyEdits (.keep :: edits) (c :: line) = value ++ rest := by
              rw [applyEdits, hrest]
            obtain ⟨edits', line', hedits, hline, hmasks', happly⟩ :=
              Masks.exists_kept hvalue List.suffix_rfl (.keep c hmasks) htext
            have hpos := List.length_pos_iff.mpr hne
            have hless : edits'.length < n := by
              rw [← hlen, hedits, List.length_append, List.length_replicate]
              omega
            obtain ⟨edits'', hmasks'', happly'⟩ := ih _ hless hmasks' rfl
            refine ⟨.mark value.length :: edits'', hline ▸ .mark hmem hmasks'', ?_⟩
            rw [hline, applyEdits_mark, happly', happly, ← hrest, replace_append hne]
          · obtain ⟨edits', hmasks', happly⟩ := ih edits.length (by rw [← hlen]; simp) hmasks rfl
            refine ⟨.keep :: edits', .keep c hmasks', ?_⟩
            rw [applyEdits, happly, replace_cons_of_not_match hne hprefix]
      | @mark edits line replaced hreplaced hmasks =>
          obtain ⟨edits', hmasks', happly⟩ := ih edits.length (by rw [← hlen]; simp) hmasks rfl
          refine ⟨.mark replaced.length :: edits', .mark hreplaced hmasks', ?_⟩
          rw [applyEdits_mark, applyEdits_mark, happly, replace_mark_append hvalue.apart]
      | cut line hn =>
          refine ⟨_, .cut line hn, ?_⟩
          rw [applyEdits_cut, replace_of_not_infix hne (not_infix_cut hvalue _)]

theorem Masks.redactLine (hvalues : ∀ v ∈ values, Hideable v) (h : Masks values edits line)
    {chosen : List (List Char)} (hchosen : ∀ v ∈ chosen, v ∈ values) :
    ∃ edits', Masks values edits' line ∧
      applyEdits edits' line = Engine.redactLine (applyEdits edits line) chosen := by
  induction chosen using List.reverseRecOn with
  | nil => exact ⟨edits, h, rfl⟩
  | append_singleton chosen last ih =>
      obtain ⟨edits', hmasks, happly⟩ := ih fun v hv ↦ hchosen v (List.mem_append_left _ hv)
      have hlast := hchosen last (List.mem_append_right _ (List.mem_singleton.mpr rfl))
      obtain ⟨edits'', hmasks', happly'⟩ := hmasks.replace (hvalues last hlast) hlast
      refine ⟨edits'', hmasks', ?_⟩
      rw [happly', happly, redactLine_append]

/-- A cut that leaves off more than a suffix cuts the line or a mark. -/
theorem Masks.exists_cut (h : Masks values edits line) {kept rest : List Char}
    (htext : applyEdits edits line = kept ++ rest)
    (hrest : byteLen truncationSuffix ≤ byteLen rest) :
    ∃ edits', Masks values edits' line ∧
      applyEdits edits' line = kept ++ truncationSuffix := by
  induction h generalizing kept with
  | done =>
      rw [applyEdits] at htext
      obtain ⟨rfl, -⟩ := List.append_eq_nil_iff.mp htext.symm
      exact ⟨[.cut 0], .cut [] (Nat.zero_le _), by rw [applyEdits_cut]; rfl⟩
  | @keep edits line c hmasks ih =>
      cases kept with
      | nil => exact ⟨[.cut 0], .cut _ (Nat.zero_le _), by rw [applyEdits_cut]; rfl⟩
      | cons d kept =>
          rw [applyEdits, List.cons_append, List.cons.injEq] at htext
          obtain ⟨rfl, htext⟩ := htext
          obtain ⟨edits', hmasks', happly⟩ := ih htext
          exact ⟨.keep :: edits', .keep c hmasks', by rw [applyEdits, happly, List.cons_append]⟩
  | @mark edits line replaced hreplaced hmasks ih =>
      rw [applyEdits_mark] at htext
      rcases List.append_eq_append_iff.mp htext with ⟨more, hkept, hmore⟩ | ⟨left, hmark, -⟩
      · obtain ⟨edits', hmasks', happly⟩ := ih hmore
        refine ⟨.mark replaced.length :: edits', .mark hreplaced hmasks', ?_⟩
        rw [applyEdits_mark, happly, hkept, List.append_assoc]
      · refine ⟨[.cut kept.length], .cut _ ?_, ?_⟩
        · rw [hmark, List.length_append]
          exact Nat.le_add_right _ _
        · rw [applyEdits_cut, hmark, List.take_left]
  | @cut n line hn =>
      rw [applyEdits_cut] at htext
      rcases List.append_eq_append_iff.mp htext with ⟨more, hkept, hmore⟩ | ⟨left, hmark, -⟩
      · have hbytes := congrArg byteLen hmore
        rw [byteLen_append] at hbytes
        obtain rfl : more = [] := eq_nil_of_byteLen (by omega)
        rw [List.append_nil] at hkept
        exact ⟨[.cut n], .cut line hn, by rw [applyEdits_cut, hkept]⟩
      · refine ⟨[.cut kept.length], .cut _ ?_, ?_⟩
        · have hlen := congrArg List.length hmark
          rw [List.length_take, List.length_append] at hlen
          omega
        · have hprefix : kept <+: redactionMark := by
            refine List.IsPrefix.trans ⟨left, hmark.symm⟩ (List.take_prefix n _)
          rw [applyEdits_cut, ← List.prefix_iff_eq_take.mp hprefix]

end Positions

/-! ## Runs -/

def EngineLog.mapLine (f : List Char → List Char) : EngineLog → EngineLog
  | gui line => gui (f line)
  | engine line => engine (f line)
  | truncated droppedEntries => truncated droppedEntries

theorem EngineLog.mapLine_congr {f g : List Char → List Char} {entry : EngineLog}
    (h : f entry.line = g entry.line) :
    entry.mapLine f = entry.mapLine g := by
  cases entry with
  | gui line => exact congrArg EngineLog.gui h
  | engine line => exact congrArg EngineLog.engine h
  | truncated droppedEntries => rfl

theorem EngineLog.mapLine_mapLine (f g : List Char → List Char) (entry : EngineLog) :
    (entry.mapLine f).mapLine g = entry.mapLine (g ∘ f) := by
  cases entry <;> rfl

theorem redactEntry_eq (values : List (List Char)) (entry : EngineLog) :
    redactEntry values entry = entry.mapLine (redactLine · values) := by
  cases entry <;> rfl

theorem normalizeLogEntry_eq (entry : EngineLog) :
    (normalizeLogEntry entry).1 = entry.mapLine fun line ↦ (normalizeLine line).1 := by
  cases entry <;> rfl

/-- An entry is a pushed line with registered values replaced at some positions. -/
def Shows (values : List (List Char)) (raw entry : EngineLog) : Prop :=
  ∃ edits, Masks values edits raw.line ∧ entry = raw.mapLine (applyEdits edits)

section Runs

variable {values values' : List (List Char)} {raw entry : EngineLog}

theorem shows_self (values : List (List Char)) (raw : EngineLog) : Shows values raw raw := by
  obtain ⟨edits, hmasks, happly⟩ := exists_masks_keep values raw.line
  refine ⟨edits, hmasks, ?_⟩
  have hid : raw.mapLine id = raw := by cases raw <;> rfl
  conv_lhs => rw [← hid]
  exact EngineLog.mapLine_congr happly.symm

theorem Shows.mono (h : Shows values raw entry) (hsubset : ∀ v ∈ values, v ∈ values') :
    Shows values' raw entry := by
  obtain ⟨edits, hmasks, hentry⟩ := h
  exact ⟨edits, hmasks.mono hsubset, hentry⟩

/-- Redacting an entry and cutting it replaces values in the pushed line. -/
theorem Shows.redact (hvalues : ∀ v ∈ values, Hideable v) (h : Shows values raw entry) :
    Shows values raw (normalizeLogEntry (redactEntry values entry)).1 := by
  obtain ⟨edits, hmasks, rfl⟩ := h
  have hall : ∀ v ∈ values, v ∈ values := fun _ hv ↦ hv
  obtain ⟨edits₁, hmasks₁, happly₁⟩ := hmasks.redactLine hvalues hall
  have hcut : ∃ edits₂, Masks values edits₂ raw.line ∧
      applyEdits edits₂ raw.line = (normalizeLine (applyEdits edits₁ raw.line)).1 := by
    rcases le_or_gt (byteLen (applyEdits edits₁ raw.line)) maxLogBytes with hle | hlt
    · exact ⟨edits₁, hmasks₁, by rw [normalizeLine_of_le hle]⟩
    · have hshortens := normalizeLine_of_lt hlt
      obtain ⟨rest, hrest⟩ := hshortens.isPrefix
      have hkept := byteLen_truncateUtf8_le (applyEdits edits₁ raw.line) (maxLogBytes - 16)
      have hbytes := congrArg byteLen hrest
      rw [byteLen_append] at hbytes
      obtain ⟨edits₂, hmasks₂, happly₂⟩ := hmasks₁.exists_cut hrest.symm (by
        rw [byteLen_truncationSuffix]
        simp only [maxLogBytes] at hlt hkept hbytes
        omega)
      exact ⟨edits₂, hmasks₂, by rw [happly₂, hshortens.result]⟩
  obtain ⟨edits₂, hmasks₂, happly₂⟩ := hcut
  refine ⟨edits₂, hmasks₂, ?_⟩
  rw [normalizeLogEntry_eq, redactEntry_eq, EngineLog.mapLine_mapLine, EngineLog.mapLine_mapLine]
  apply EngineLog.mapLine_congr
  rw [happly₂, happly₁]
  rfl

theorem not_infix_redactEntry (hvalues : ∀ v ∈ values, Hideable v) (entry : EngineLog) :
    ∀ v ∈ values, ¬v <:+: (normalizeLogEntry (redactEntry values entry)).1.line := by
  intro v hv hinner
  have hhideable := hvalues v hv
  rw [line_normalizeLogEntry] at hinner
  have hredacted := infix_of_infix_normalizeLine hhideable hinner
  cases entry with
  | gui line => exact not_infix_redactLine hvalues hv line hredacted
  | engine line => exact not_infix_redactLine hvalues hv line hredacted
  | truncated droppedEntries =>
      exact hhideable.apart.ne_nil (List.infix_nil.mp hredacted)

theorem drop_eq_drop_min {α : Type} (as : List α) (n : ℕ) :
    as.drop n = as.drop (min n as.length) := by
  rcases le_total n as.length with hle | hge
  · rw [min_eq_left hle]
  · rw [min_eq_right hge, List.drop_length, List.drop_eq_nil_of_le hge]

/-- No registered value is in the log, and what is in it are the last pushed lines with registered
values replaced. -/
structure Hidden (pushed : List EngineLog) (t : Transcript) : Prop where
  hideable : ∀ v ∈ t.redactions.values, Hideable v
  absent : ∀ entry ∈ t.logs.entries, ∀ v ∈ t.redactions.values, ¬v <:+: entry.line
  shows : ∃ gone, List.Forall₂ (Shows t.redactions.values) (pushed.drop gone) t.logs.entries

variable {pushed : List EngineLog} {t : Transcript}

theorem Hidden.push (h : Hidden pushed t) (raw : EngineLog) :
    Hidden (pushed ++ [raw])
      { t with logs := t.logs.push (redactEntry t.redactions.values raw) } := by
  obtain ⟨gone, hentries⟩ :=
    exists_push_entries t.logs (redactEntry t.redactions.values raw)
  obtain ⟨before, hshows⟩ := h.shows
  refine ⟨h.hideable, ?_, ?_⟩
  · intro entry hentry
    dsimp only at hentry
    rw [hentries] at hentry
    rcases List.mem_append.mp hentry with hold | hnew
    · exact h.absent entry (List.mem_of_mem_drop hold)
    · obtain rfl := List.mem_singleton.mp hnew
      exact not_infix_redactEntry h.hideable raw
  · have hdrop := List.forall₂_drop gone hshows
    rw [List.drop_drop, drop_eq_drop_min] at hdrop
    refine ⟨min (before + gone) pushed.length, ?_⟩
    dsimp only
    rw [hentries, List.drop_append_of_le_length (min_le_right _ _)]
    exact List.rel_append hdrop (.cons ((shows_self _ raw).redact h.hideable) .nil)

theorem mem_additions {known : List (List Char)} {v : List Char}
    (h : v ∈ ResourceRedactions.additions known values) :
    v ∈ values ∧ v ≠ [] := by
  induction values generalizing known with
  | nil => cases h
  | cons value values ih =>
      rw [ResourceRedactions.additions] at h
      split_ifs at h with hnew
      · rcases List.mem_cons.mp h with rfl | h
        · exact ⟨List.mem_cons_self, hnew.1⟩
        · exact ⟨List.mem_cons_of_mem _ (ih h).1, (ih h).2⟩
      · exact ⟨List.mem_cons_of_mem _ (ih h).1, (ih h).2⟩

/-- Registering values redacts what is in the log already. -/
theorem Hidden.redact (h : Hidden pushed t) (hvalues : values ≠ [])
    (hhideable : ∀ v ∈ values, Hideable v) (hknown : ∀ v ∈ t.redactions.values, v ∈ values)
    (bytes : ℕ) :
    Hidden pushed ⟨⟨values, bytes⟩, t.logs.redact values⟩ := by
  obtain ⟨gone, hentries⟩ := exists_redact_entries t.logs hvalues
  obtain ⟨before, hshows⟩ := h.shows
  refine ⟨hhideable, ?_, before + gone, ?_⟩
  · intro entry hentry
    dsimp only at hentry
    rw [hentries] at hentry
    obtain ⟨entry', -, rfl⟩ := List.mem_map.mp (List.mem_of_mem_drop hentry)
    exact not_infix_redactEntry hhideable entry'
  · dsimp only
    rw [hentries, ← List.drop_drop]
    refine List.forall₂_drop gone (List.forall₂_map_right_iff.mpr (hshows.imp ?_))
    exact fun raw entry hraw ↦ (hraw.mono hknown).redact hhideable

theorem Hidden.register (h : Hidden pushed t) (hhides : (TranscriptCall.register values).Hides) :
    Hidden pushed (TranscriptCall.apply t (.register values)) := by
  rw [TranscriptCall.apply, ResourceRedactions.register]
  dsimp only
  split_ifs with hbudget hnone
  · exact h
  · exact h
  · set additions := ResourceRedactions.additions t.redactions.values values
    have hmem : ∀ {v}, v ∈ (t.redactions.values ++ additions).mergeSort
        ResourceRedactions.before ↔ v ∈ t.redactions.values ∨ v ∈ additions := by
      intro v
      rw [List.mem_mergeSort, List.mem_append]
    refine h.redact ?_ ?_ (fun v hv ↦ hmem.mpr (.inl hv)) _
    · obtain ⟨v, rest, hadditions⟩ := List.exists_cons_of_ne_nil hnone
      have hv := hmem.mpr (.inr (hadditions ▸ List.mem_cons_self : v ∈ additions))
      exact List.ne_nil_of_mem hv
    · intro v hv
      rcases hmem.mp hv with hold | hnew
      · exact h.hideable v hold
      · exact hhides v (mem_additions hnew).1 (mem_additions hnew).2

end Runs

theorem hidden_run {calls : List TranscriptCall} (hcalls : ∀ call ∈ calls, call.Hides) :
    Hidden (calls.filterMap TranscriptCall.pushed) (TranscriptCall.run calls) := by
  induction calls using List.reverseRecOn with
  | nil =>
      refine ⟨fun v hv ↦ ?_, fun entry hentry ↦ ?_, 0, .nil⟩
      · cases hv
      · cases hentry
  | append_singleton calls call ih =>
      have hbefore := ih fun call hcall ↦ hcalls call (List.mem_append_left _ hcall)
      have hlast := hcalls call (List.mem_append_right _ (List.mem_singleton.mpr rfl))
      rw [TranscriptCall.run, List.foldl_append, List.filterMap_append]
      cases call with
      | gui line => exact hbefore.push (.gui line)
      | engine line => exact hbefore.push (.engine line)
      | register values =>
          have hnone : [TranscriptCall.register values].filterMap TranscriptCall.pushed = [] := rfl
          rw [hnone, List.append_nil]
          exact hbefore.register hlast

/-- As long as only values are registered that overlap neither the mark nor the suffix of a cut
line, no registered value is in the log, and every line of it is a pushed line with marks at
positions of registered values. -/
theorem registered_values_hidden {calls : List TranscriptCall}
    (hcalls : ∀ call ∈ calls, call.Hides) :
    (∀ entry ∈ (TranscriptCall.run calls).logs.shown,
      ∀ v ∈ (TranscriptCall.run calls).redactions.values, ¬v <:+: entry.line) ∧
    ∃ gone, List.Forall₂ (Shows (TranscriptCall.run calls).redactions.values)
      ((calls.filterMap TranscriptCall.pushed).drop gone)
        (TranscriptCall.run calls).logs.entries := by
  have hhidden := hidden_run hcalls
  refine ⟨?_, hhidden.shows⟩
  intro entry hentry v hv
  rw [BoundedLogs.shown] at hentry
  rcases List.mem_append.mp hentry with hmarker | hentry
  · split_ifs at hmarker with htruncated
    · obtain rfl := List.mem_singleton.mp hmarker
      intro hinner
      exact (hhidden.hideable v hv).apart.ne_nil (List.infix_nil.mp hinner)
    · cases hmarker
  · exact hhidden.absent entry hentry v hv

/-- A path without a character of the marks. -/
theorem hideable_of_slash {value : List Char} (hslash : '/' ∈ value) (hopen : '[' ∉ value)
    (hclose : ']' ∉ value) (hdots : '…' ∉ value) :
    Hideable value := by
  have hmark : ∀ part, part ≠ [] → part <:+: value → ¬part <+: redactionMark := by
    rintro (_ | ⟨c, part⟩) hne hinner hprefix
    · exact hne rfl
    · obtain ⟨rfl, -⟩ := List.cons_prefix_cons.mp hprefix
      exact hopen (hinner.subset List.mem_cons_self)
  have hsuffix : ∀ part, part ≠ [] → part <:+: value → ¬part <+: truncationSuffix := by
    rintro (_ | ⟨c, part⟩) hne hinner hprefix
    · exact hne rfl
    · obtain ⟨rfl, -⟩ := List.cons_prefix_cons.mp hprefix
      exact hdots (hinner.subset List.mem_cons_self)
  refine ⟨⟨?_, ?_, fun part hne hpart ↦ hmark part hne hpart.isInfix, ?_⟩, ?_,
    fun part hne hpart ↦ hsuffix part hne hpart.isInfix⟩
  · intro hinner
    exact absurd (hinner.subset hslash) (by decide)
  · exact fun hinner ↦ hopen (hinner.subset (by decide))
  · intro part hne hpart hend
    have hmarkLast : redactionMark.getLast (by decide) = ']' := by decide
    have hlast : part.getLast hne = ']' := (hend.getLast hne).trans hmarkLast
    exact hclose (hpart.subset (hlast ▸ List.getLast_mem hne))
  · intro hinner
    exact absurd (hinner.subset hslash) (by decide)

def bookPath : List Char := "/proc/self/fd/17".toList

/-- The value of a path is logged and registered afterwards. -/
def bookCalls : List TranscriptCall :=
  [.gui ("setoption name Book value /proc/self/fd/17\n".toList), .register [bookPath]]

theorem registered_values_hidden_bookCalls :
    (∀ entry ∈ (TranscriptCall.run bookCalls).logs.shown,
      ∀ v ∈ (TranscriptCall.run bookCalls).redactions.values, ¬v <:+: entry.line) ∧
    ∃ gone, List.Forall₂ (Shows (TranscriptCall.run bookCalls).redactions.values)
      ((bookCalls.filterMap TranscriptCall.pushed).drop gone)
        (TranscriptCall.run bookCalls).logs.entries := by
  refine registered_values_hidden fun call hcall ↦ ?_
  rcases List.mem_pair.mp hcall with rfl | rfl
  · trivial
  · intro value hvalue _
    obtain rfl := List.mem_singleton.mp hvalue
    exact hideable_of_slash (by decide) (by decide) (by decide) (by decide)

/-- Two paths of which one ends in the character that the mark begins with. -/
def bracketCalls : List TranscriptCall :=
  [.register ["/data/[".toList, "/x".toList], .engine "/data//x".toList]

/-- The mark for the shorter value completes the longer one. -/
theorem bracketCalls_show_value :
    ∃ entry ∈ (TranscriptCall.run bracketCalls).logs.shown,
      ∃ v ∈ (TranscriptCall.run bracketCalls).redactions.values, v <:+: entry.line := by
  have hsorted : (["/data/[".toList, "/x".toList] : List (List Char)).mergeSort
      ResourceRedactions.before = ["/data/[".toList, "/x".toList] :=
    List.mergeSort_of_pairwise (by decide)
  have hregistered : TranscriptCall.apply ⟨.default, .default⟩
      (.register ["/data/[".toList, "/x".toList]) =
        ⟨⟨["/data/[".toList, "/x".toList], 9⟩, .default⟩ := by
    have hadditions : ResourceRedactions.additions ResourceRedactions.default.values
        ["/data/[".toList, "/x".toList] = ["/data/[".toList, "/x".toList] := by decide
    rw [TranscriptCall.apply, ResourceRedactions.register]
    dsimp only
    rw [hadditions, if_neg (by decide), if_neg (by decide)]
    change Transcript.mk ⟨(["/data/[".toList, "/x".toList] : List (List Char)).mergeSort
      ResourceRedactions.before, 9⟩ (BoundedLogs.redact .default
        ((["/data/[".toList, "/x".toList] : List (List Char)).mergeSort
          ResourceRedactions.before)) = _
    rw [hsorted]
    decide
  have hrun : TranscriptCall.run bracketCalls =
      ⟨⟨["/data/[".toList, "/x".toList], 9⟩,
        ⟨[.engine "/data/[redacted]".toList], 16, false, 0⟩⟩ := by
    rw [TranscriptCall.run, bracketCalls, List.foldl_cons, List.foldl_cons, List.foldl_nil,
      hregistered]
    decide
  rw [hrun]
  exact ⟨.engine "/data/[redacted]".toList, by decide, "/data/[".toList, by decide, by decide⟩

end EnCroissant.Engine
