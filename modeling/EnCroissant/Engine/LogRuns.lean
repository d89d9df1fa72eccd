import EnCroissant.Engine.BoundedLogs

/-!
# The engine log over runs

Against an account of all lines that were ever pushed, each in the form that
cuts and redactions have given it, the log holds the last ones, counts the rest
and says when something is missing.
-/

namespace EnCroissant.Engine

/-! ## Cutting a line -/

@[simp] theorem byteLen_nil : byteLen [] = 0 := rfl

@[simp] theorem byteLen_cons (c : Char) (text : List Char) :
    byteLen (c :: text) = c.utf8Size + byteLen text := rfl

@[simp] theorem byteLen_append (p q : List Char) : byteLen (p ++ q) = byteLen p + byteLen q := by
  rw [byteLen, List.map_append, List.sum_append]
  rfl

theorem byteLen_truncationSuffix : byteLen truncationSuffix = 15 := by decide

theorem takeBytes_prefix (bytes : ℕ) (text : List Char) : takeBytes bytes text <+: text := by
  induction text generalizing bytes with
  | nil => exact List.prefix_rfl
  | cons c text ih =>
      rw [takeBytes]
      split_ifs with h
      · exact List.cons_prefix_cons.mpr ⟨rfl, ih _⟩
      · exact List.nil_prefix

theorem byteLen_takeBytes_le (bytes : ℕ) (text : List Char) :
    byteLen (takeBytes bytes text) ≤ bytes := by
  induction text generalizing bytes with
  | nil => exact Nat.zero_le bytes
  | cons c text ih =>
      rw [takeBytes]
      split_ifs with h
      · rw [byteLen_cons]
        have hrest := ih (bytes - c.utf8Size)
        omega
      · exact Nat.zero_le bytes

theorem boundaryUpTo_le (value : List Char) (index : ℕ) : boundaryUpTo value index ≤ index := by
  induction index with
  | zero => exact le_rfl
  | succ index ih =>
      rw [boundaryUpTo]
      split_ifs
      · exact le_rfl
      · exact ih.trans (Nat.le_succ index)

theorem truncateUtf8_isPrefix (value : List Char) (maxBytes : ℕ) :
    truncateUtf8 value maxBytes <+: value := by
  rw [truncateUtf8]
  split_ifs
  · exact List.prefix_rfl
  · exact takeBytes_prefix _ _

theorem byteLen_truncateUtf8_le (value : List Char) (maxBytes : ℕ) :
    byteLen (truncateUtf8 value maxBytes) ≤ maxBytes := by
  rw [truncateUtf8]
  split_ifs with h
  · exact h
  · exact (byteLen_takeBytes_le _ _).trans (boundaryUpTo_le _ _)

/-- What happens to an over-long line. -/
structure Shortens (line : List Char) (kept : List Char) : Prop where
  isPrefix : kept <+: line
  fits : byteLen (kept ++ truncationSuffix) ≤ maxLogBytes
  result : normalizeLine line = (kept ++ truncationSuffix, true)

theorem normalizeLine_of_le {line : List Char} (h : byteLen line ≤ maxLogBytes) :
    normalizeLine line = (line, false) :=
  if_neg (not_lt.mpr h)

theorem normalizeLine_of_lt {line : List Char} (h : maxLogBytes < byteLen line) :
    Shortens line (truncateUtf8 line (maxLogBytes - 16)) := by
  refine ⟨truncateUtf8_isPrefix _ _, ?_, if_pos h⟩
  have hkept := byteLen_truncateUtf8_le line (maxLogBytes - 16)
  rw [byteLen_append, byteLen_truncationSuffix]
  simp only [maxLogBytes] at hkept ⊢
  omega

theorem byteLen_normalizeLine_le (line : List Char) :
    byteLen (normalizeLine line).1 ≤ maxLogBytes := by
  rcases le_or_gt (byteLen line) maxLogBytes with hle | hlt
  · rw [normalizeLine_of_le hle]
    exact hle
  · have hshortens := normalizeLine_of_lt hlt
    rw [hshortens.result]
    exact hshortens.fits

theorem byteLen_normalizeLogEntry_le (entry : EngineLog) :
    (normalizeLogEntry entry).1.byteLen ≤ maxLogBytes := by
  cases entry with
  | gui line => exact byteLen_normalizeLine_le line
  | engine line => exact byteLen_normalizeLine_le line
  | truncated droppedEntries => exact Nat.zero_le _

/-! ## Evicting -/

def totalBytes (entries : List EngineLog) : ℕ := (entries.map EngineLog.byteLen).sum

/-- Some of the oldest entries go, until the rest fits. -/
structure Evicts (incomingBytes maxEntries : ℕ) (before after : BoundedLogs) (gone : ℕ) : Prop where
  le : gone ≤ before.entries.length
  entries : after.entries = before.entries.drop gone
  bytes : after.bytes = totalBytes after.entries
  truncated : after.truncated = (before.truncated || decide (0 < gone))
  dropped : after.droppedEntries = min (before.droppedEntries + gone) u64Max
  fits : after.entries = [] ∨
    after.entries.length ≤ maxEntries ∧ after.bytes + incomingBytes ≤ maxLogBytes

theorem evict_spec (incomingBytes maxEntries : ℕ) (entries : List EngineLog) (truncated : Bool)
    {droppedEntries : ℕ} (hdropped : droppedEntries ≤ u64Max) :
    ∃ gone, Evicts incomingBytes maxEntries
      ⟨entries, totalBytes entries, truncated, droppedEntries⟩
      (BoundedLogs.evict incomingBytes maxEntries entries (totalBytes entries) truncated
        droppedEntries) gone := by
  induction entries generalizing truncated droppedEntries with
  | nil =>
      refine ⟨0, le_rfl, rfl, rfl, ?_, ?_, .inl rfl⟩
      · exact (Bool.or_false truncated).symm
      · exact (min_eq_left hdropped).symm
  | cons removed entries ih =>
      rw [BoundedLogs.evict]
      have hbytes : totalBytes (removed :: entries) = removed.byteLen + totalBytes entries := rfl
      split_ifs with hfull
      · have hsat : saturatingAdd droppedEntries 1 ≤ u64Max := min_le_right _ _
        obtain ⟨gone, hgone⟩ := ih true hsat
        rw [hbytes, Nat.add_sub_cancel_left]
        refine ⟨gone + 1, Nat.succ_le_succ hgone.le, hgone.entries, hgone.bytes, ?_, ?_, hgone.fits⟩
        · rw [hgone.truncated]
          simp
        · rw [hgone.dropped]
          simp only [saturatingAdd]
          omega
      · rw [not_or, not_lt, not_lt] at hfull
        refine ⟨0, Nat.zero_le _, rfl, rfl, ?_, ?_, .inr ⟨hfull.1, ?_⟩⟩
        · exact (Bool.or_false truncated).symm
        · exact (min_eq_left hdropped).symm
        · have hsum := hfull.2
          simp only [saturatingAdd, maxLogBytes, u64Max] at hsum ⊢
          omega

theorem evictFor_spec {logs : BoundedLogs} (hbytes : logs.bytes = totalBytes logs.entries)
    (hdropped : logs.droppedEntries ≤ u64Max) (incomingBytes : ℕ) (reserveSlot : Bool) :
    ∃ gone, Evicts incomingBytes (maxLogLines - reserveSlot.toNat) logs
      (logs.evictFor incomingBytes reserveSlot) gone := by
  obtain ⟨entries, bytes, truncated, droppedEntries⟩ := logs
  obtain rfl : bytes = totalBytes entries := hbytes
  exact evict_spec incomingBytes _ entries truncated hdropped

/-! ## The account of all lines -/

inductive LogCall where
  | gui (line : List Char)
  | engine (line : List Char)
  | redact (values : List (List Char))
  deriving DecidableEq

/-- A pushed line in its present form. -/
structure LoggedLine where
  entry : EngineLog
  shortened : Bool
  deriving DecidableEq

namespace LoggedLine

def pushed (entry : EngineLog) : LoggedLine :=
  ⟨(normalizeLogEntry entry).1, (normalizeLogEntry entry).2⟩

def redact (values : List (List Char)) (logged : LoggedLine) : LoggedLine :=
  let redacted := pushed (redactEntry values logged.entry)
  { redacted with shortened := logged.shortened || redacted.shortened }

end LoggedLine

namespace LogCall

def apply (logs : BoundedLogs) : LogCall → BoundedLogs
  | gui line => logs.push (.gui line)
  | engine line => logs.push (.engine line)
  | redact values => logs.redact values

def run (calls : List LogCall) : BoundedLogs := calls.foldl apply .default

/-- The line that a call pushes. -/
def pushed : LogCall → Option EngineLog
  | gui line => some (.gui line)
  | engine line => some (.engine line)
  | redact _ => none

def log (lines : List LoggedLine) : LogCall → List LoggedLine
  | gui line => lines ++ [.pushed (.gui line)]
  | engine line => lines ++ [.pushed (.engine line)]
  | redact values => if values = [] then lines else lines.map (.redact values)

/-- All lines that were ever pushed. -/
def account (calls : List LogCall) : List LoggedLine := calls.foldl log []

end LogCall

/-- The log has all lines but the first ones, and says so. -/
structure Matches (lines : List LoggedLine) (logs : BoundedLogs) (gone : ℕ) : Prop where
  le : gone ≤ lines.length
  entries : logs.entries = (lines.drop gone).map LoggedLine.entry
  bytes : logs.bytes = totalBytes logs.entries
  dropped : logs.droppedEntries = min gone u64Max
  truncated : logs.truncated =
    (decide (0 < gone) || (lines.drop gone).any LoggedLine.shortened)

structure Accounts (lines : List LoggedLine) (logs : BoundedLogs) (gone : ℕ) : Prop
    extends Matches lines logs gone where
  bytes_le : logs.bytes ≤ maxLogBytes
  length_le : logs.entries.length ≤ maxLogLines

section

variable {lines : List LoggedLine} {logs after : BoundedLogs} {gone gone' : ℕ}

theorem Matches.evicts (h : Matches lines logs gone) {incomingBytes maxEntries : ℕ}
    (hevicts : Evicts incomingBytes maxEntries logs after gone') :
    Matches lines after (gone + gone') := by
  have hlen : logs.entries.length = lines.length - gone := by
    rw [h.entries, List.length_map, List.length_drop]
  have hle := h.le
  have hle' := hevicts.le
  refine ⟨by omega, ?_, hevicts.bytes, ?_, ?_⟩
  · rw [hevicts.entries, h.entries, ← List.map_drop, List.drop_drop]
  · rw [hevicts.dropped, h.dropped]
    omega
  · rw [hevicts.truncated, h.truncated]
    cases gone' with
    | zero => simp
    | succ n => simp

theorem totalBytes_append (entries : List EngineLog) (entry : EngineLog) :
    totalBytes (entries ++ [entry]) = totalBytes entries + entry.byteLen := by
  rw [totalBytes, List.map_append, List.sum_append]
  rfl

/-- A slot is kept free for the line that comes, and its bytes are counted. -/
theorem Accounts.push (h : Accounts lines logs gone) (entry : EngineLog) :
    ∃ gone', Accounts (lines ++ [.pushed entry]) (logs.push entry) gone' := by
  set new := (normalizeLogEntry entry).1 with hnew
  set wasTruncated := (normalizeLogEntry entry).2 with hwas
  have hpush : logs.push entry =
      let flagged : BoundedLogs := { logs with truncated := logs.truncated || wasTruncated }
      let evicted := flagged.evictFor new.byteLen true
      { evicted with bytes := evicted.bytes + new.byteLen, entries := evicted.entries ++ [new] } :=
    rfl
  have hlogged : LoggedLine.pushed entry = ⟨new, wasTruncated⟩ := rfl
  have hfits : new.byteLen ≤ maxLogBytes := byteLen_normalizeLogEntry_le entry
  have hlen : logs.entries.length = lines.length - gone := by
    rw [h.entries, List.length_map, List.length_drop]
  rw [hpush, hlogged]
  dsimp only
  set flagged : BoundedLogs := { logs with truncated := logs.truncated || wasTruncated }
  have hflagged : flagged.bytes = totalBytes flagged.entries := h.bytes
  have hdropped : flagged.droppedEntries ≤ u64Max := h.dropped ▸ min_le_right _ _
  obtain ⟨gone', hevicts⟩ := evictFor_spec hflagged hdropped new.byteLen true
  set evicted := flagged.evictFor new.byteLen true
  have hle := h.le
  have hle' : gone' ≤ logs.entries.length := hevicts.le
  have hsum : gone + gone' ≤ lines.length := by omega
  have hentries : evicted.entries = (lines.drop (gone + gone')).map LoggedLine.entry := by
    rw [hevicts.entries, ← List.drop_drop, List.map_drop, ← h.entries]
  refine ⟨gone + gone', ⟨?_, ?_, ?_, ?_, ?_⟩, ?_, ?_⟩
  · rw [List.length_append]
    omega
  · rw [List.drop_append_of_le_length hsum, List.map_append, ← hentries]
    rfl
  · dsimp only
    rw [totalBytes_append, hevicts.bytes]
  · change evicted.droppedEntries = _
    rw [hevicts.dropped]
    change min (logs.droppedEntries + gone') u64Max = _
    rw [h.dropped]
    omega
  · change evicted.truncated = _
    rw [hevicts.truncated]
    change ((logs.truncated || wasTruncated) || decide (0 < gone')) = _
    rw [h.truncated, List.drop_append_of_le_length hsum, List.any_append]
    cases gone' with
    | zero => simp [Bool.or_assoc]
    | succ n => simp
  · dsimp only
    rcases hevicts.fits with hempty | ⟨-, hbytes⟩
    · have hzero : evicted.bytes = 0 := by
        rw [hevicts.bytes, hempty]
        rfl
      omega
    · exact hbytes
  · dsimp only
    rw [List.length_append, List.length_singleton]
    rcases hevicts.fits with hempty | ⟨hlength, -⟩
    · rw [hempty]
      decide
    · simp only [maxLogLines, Bool.toNat_true] at hlength ⊢
      omega

theorem any_or {α : Type} (p q : α → Bool) (as : List α) :
    (as.any fun a ↦ p a || q a) = (as.any p || as.any q) := by
  induction as with
  | nil => rfl
  | cons a as ih =>
      rw [List.any_cons, List.any_cons, List.any_cons, ih]
      cases p a <;> cases q a <;> simp

theorem Accounts.redact (h : Accounts lines logs gone) {values : List (List Char)}
    (hvalues : values ≠ []) :
    ∃ gone', Accounts (lines.map (.redact values)) (logs.redact values) gone' := by
  rw [BoundedLogs.redact, if_neg hvalues]
  dsimp only
  set normalized := logs.entries.map fun entry ↦ normalizeLogEntry (redactEntry values entry)
    with hnormalized
  set redacted : BoundedLogs :=
    { logs with
      entries := normalized.map Prod.fst
      truncated := logs.truncated || normalized.any Prod.snd
      bytes := ((normalized.map Prod.fst).map EngineLog.byteLen).sum } with hredacted
  have hmatches : Matches (lines.map (.redact values)) redacted gone := by
    refine ⟨?_, ?_, rfl, h.dropped, ?_⟩
    · rw [List.length_map]
      exact h.le
    · change normalized.map Prod.fst = _
      rw [hnormalized, h.entries, ← List.map_drop, List.map_map, List.map_map, List.map_map]
      rfl
    · change (logs.truncated || normalized.any Prod.snd) = _
      rw [hnormalized, h.entries, h.truncated, ← List.map_drop, List.any_map, List.any_map,
        List.any_map, Bool.or_assoc]
      congr 1
      exact (any_or LoggedLine.shortened
        (fun logged ↦ (normalizeLogEntry (redactEntry values logged.entry)).2) _).symm
  obtain ⟨gone', hevicts⟩ := evictFor_spec hmatches.bytes
    (hmatches.dropped ▸ min_le_right _ _) 0 false
  refine ⟨gone + gone', hmatches.evicts hevicts, ?_, ?_⟩
  · rcases hevicts.fits with hempty | ⟨-, hbytes⟩
    · rw [hevicts.bytes, hempty]
      exact Nat.zero_le _
    · exact hbytes
  · rcases hevicts.fits with hempty | ⟨hlength, -⟩
    · rw [hempty]
      exact Nat.zero_le _
    · exact hlength

end

/-! ## Runs -/

theorem accounts_apply {lines : List LoggedLine} {logs : BoundedLogs} {gone : ℕ}
    (h : Accounts lines logs gone) (call : LogCall) :
    ∃ gone', Accounts (call.log lines) (call.apply logs) gone' := by
  cases call with
  | gui line => exact h.push (.gui line)
  | engine line => exact h.push (.engine line)
  | redact values =>
      by_cases hvalues : values = []
      · refine ⟨gone, ?_⟩
        rw [LogCall.log, LogCall.apply, if_pos hvalues, BoundedLogs.redact, if_pos hvalues]
        exact h
      · obtain ⟨gone', hgone'⟩ := h.redact hvalues
        refine ⟨gone', ?_⟩
        rw [LogCall.log, LogCall.apply, if_neg hvalues]
        exact hgone'

theorem accounts_run (calls : List LogCall) :
    ∃ gone, Accounts (LogCall.account calls) (LogCall.run calls) gone := by
  induction calls using List.reverseRecOn with
  | nil => exact ⟨0, ⟨le_rfl, rfl, rfl, rfl, rfl⟩, Nat.zero_le _, Nat.zero_le _⟩
  | append_singleton calls call ih =>
      obtain ⟨gone, hgone⟩ := ih
      rw [LogCall.account, LogCall.run, List.foldl_append, List.foldl_append]
      exact accounts_apply hgone call

theorem length_account (calls : List LogCall) :
    (LogCall.account calls).length = (calls.filterMap LogCall.pushed).length := by
  induction calls using List.reverseRecOn with
  | nil => rfl
  | append_singleton calls call ih =>
      rw [LogCall.account, List.foldl_append, List.filterMap_append, List.length_append, ← ih]
      cases call with
      | gui line => simp [LogCall.log, LogCall.pushed, LogCall.account]
      | engine line => simp [LogCall.log, LogCall.pushed, LogCall.account]
      | redact values =>
          by_cases hvalues : values = []
          · simp [LogCall.log, LogCall.pushed, LogCall.account, hvalues]
          · simp [LogCall.log, LogCall.pushed, LogCall.account, hvalues]

/-- The log after any calls: its bytes are counted and bounded, its lines are the last pushed
ones, the rest is counted up to the largest counter, and the marker says when a line is gone or
cut.  Only over-long lines are cut. -/
theorem boundedLogs_honest (calls : List LogCall) :
    let logs := LogCall.run calls
    logs.bytes = totalBytes logs.entries ∧ logs.bytes ≤ maxLogBytes ∧
      logs.entries.length ≤ maxLogLines ∧
      (∃ gone, gone + logs.entries.length = (calls.filterMap LogCall.pushed).length ∧
        logs.droppedEntries = min gone u64Max ∧
        logs.entries = ((LogCall.account calls).drop gone).map LoggedLine.entry ∧
        logs.shown =
          (if 0 < gone ∨ ∃ logged ∈ (LogCall.account calls).drop gone, logged.shortened = true then
            [.truncated logs.droppedEntries] else []) ++ logs.entries) ∧
      ∀ line, (byteLen line ≤ maxLogBytes → normalizeLine line = (line, false)) ∧
        (maxLogBytes < byteLen line → ∃ kept, Shortens line kept) := by
  obtain ⟨gone, hgone⟩ := accounts_run calls
  refine ⟨hgone.bytes, hgone.bytes_le, hgone.length_le, ⟨gone, ?_, hgone.dropped, hgone.entries, ?_⟩,
    fun line ↦ ⟨normalizeLine_of_le, fun hlong ↦ ⟨_, normalizeLine_of_lt hlong⟩⟩⟩
  · have hle := hgone.le
    rw [hgone.entries, List.length_map, List.length_drop, ← length_account]
    omega
  · have hiff : (LogCall.run calls).truncated = true ↔
        0 < gone ∨ ∃ logged ∈ (LogCall.account calls).drop gone, logged.shortened = true := by
      rw [hgone.truncated, Bool.or_eq_true, decide_eq_true_iff, List.any_eq_true]
    rw [BoundedLogs.shown]
    simp only [hiff]

/-- After more lines than the counter can count, some are in no count. -/
theorem droppedEntries_saturates :
    let calls := List.replicate (2 ^ 64 + 2001) (LogCall.engine [])
    (LogCall.run calls).droppedEntries + (LogCall.run calls).entries.length ≠
      (calls.filterMap LogCall.pushed).length := by
  intro calls
  obtain ⟨gone, hgone⟩ := accounts_run calls
  have hpushed : (calls.filterMap LogCall.pushed).length = 2 ^ 64 + 2001 := by
    rw [List.filterMap_replicate_of_some (show LogCall.pushed (.engine []) = some _ from rfl),
      List.length_replicate]
  have hlength := hgone.length_le
  have hdropped : (LogCall.run calls).droppedEntries ≤ u64Max := by
    rw [hgone.dropped]
    exact min_le_right _ _
  rw [hpushed]
  simp only [maxLogLines] at hlength
  simp only [u64Max] at hdropped
  omega

end EnCroissant.Engine
