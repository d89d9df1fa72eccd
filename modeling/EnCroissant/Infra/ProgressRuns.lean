import Mathlib
import EnCroissant.Infra.Progress

/-!
# Runs of the progress store

Only the holder of the latest lease of a job moves its entry, generations only grow,
and reported progress never goes back.
-/

namespace EnCroissant.Infra

variable {P : Type}

namespace ProgressStore

/-- The store before the `n`-th call of a run. -/
def storeAt (calls : ℕ → ProgressCall P) : ℕ → ProgressStore P :=
  Trace.state (fun s call ↦ (s.serve call).2) empty calls

def replyAt (calls : ℕ → ProgressCall P) (n : ℕ) : ProgressReply P :=
  ((storeAt calls n).serve (calls n)).1

/-- The lease was handed out by the latest start of its id, whose entry has been there
ever since and has not expired. -/
def CurrentProducer (calls : ℕ → ProgressCall P) (lease : ProgressLease) (n now : ℕ) : Prop :=
  ∃ m < n,
    (∃ time item, calls m = .start lease.id time ∧ replyAt calls m = .started lease item) ∧
    (∀ k, m < k → k < n → ∀ other item, replyAt calls k = .started other item →
      other.id ≠ lease.id) ∧
    (∀ k, m < k → k < n → ∀ liveDownload generation, calls k = .clear lease.id liveDownload →
      replyAt calls k ≠ .cleared generation true) ∧
    (∀ k, m < k → k ≤ n → ∃ stored, (storeAt calls k).entries.lookup lease.id = some stored ∧
      stored.item.generation = lease.generation) ∧
    ∃ stored, (storeAt calls n).entries.lookup lease.id = some stored ∧
      now - stored.updatedAt < ttl stored.item

variable (calls : ℕ → ProgressCall P) {m n : ℕ} {id : String} {lease : ProgressLease}

theorem storeAt_valid (n : ℕ) : (storeAt calls n).Valid :=
  Trace.state_invariant valid_empty (fun call hs ↦ (serve_served hs call).valid hs) n

theorem served_at (n : ℕ) :
    Served (storeAt calls n) (calls n) (replyAt calls n) (storeAt calls (n + 1)) :=
  serve_served (storeAt_valid calls n) (calls n)

theorem clock_monotone : Monotone fun n ↦ (storeAt calls n).generationClock :=
  monotone_nat_of_le_succ fun n ↦ (served_at calls n).clock_le

/-- Two entries of an id with one generation are the same job. -/
theorem advances_at (hmn : m ≤ n) {old new : StoredProgress P}
    (hold : (storeAt calls m).entries.lookup id = some old)
    (hnew : (storeAt calls n).entries.lookup id = some new)
    (hgeneration : new.item.generation = old.item.generation) :
    Advances old.item new.item := by
  induction n, hmn using Nat.le_induction generalizing new with
  | base =>
      obtain rfl := Option.some.inj (hold.symm.trans hnew)
      exact Advances.refl _
  | succ n hmn ih =>
      rcases (served_at calls n).entry hnew with
        ⟨lease, _, _, _, _, hstarts⟩ | ⟨middle, hmiddle, hadvances, _⟩
      · have hissued := (storeAt_valid calls m).issued hold
        have hclock : (storeAt calls m).generationClock ≤ (storeAt calls n).generationClock :=
          clock_monotone calls hmn
        have hnext := hstarts.generation.trans hstarts.next
        omega
      · exact (ih hmiddle (hadvances.generation.symm.trans hgeneration)).trans hadvances

/-- A clear that removes an entry leaves none. -/
theorem gone_at {liveDownload : Bool} {generation : ℕ} (hcall : calls n = .clear id liveDownload)
    (hreply : replyAt calls n = .cleared generation true) :
    id ∉ (storeAt calls (n + 1)).entries := by
  have hserved := served_at calls n
  rw [hcall, hreply] at hserved
  cases hserved with
  | removed _ _ hgone => exact hgone

theorem currentProducer_of_transition {progress : Reading} {state : ProgressState}
    {failure : Option P} {now : ℕ} {item : ProgressItem P} {changed : Bool}
    (hcall : calls n = .transition lease progress state failure now)
    (hreply : replyAt calls n = .transitioned item changed) :
    CurrentProducer calls lease n now := by
  have hserved := served_at calls n
  rw [hcall, hreply] at hserved
  have hmoves : Moves (storeAt calls n) lease now item (storeAt calls (n + 1)) := by
    cases hserved with
    | moved _ _ hmoves => exact hmoves
  obtain ⟨stored, hstored, hgeneration, hlive⟩ := hmoves.before
  obtain ⟨m, hm, hnot, hsince⟩ := Trace.state_since
    (P := fun s : ProgressStore P ↦ ∃ stored, s.entries.lookup lease.id = some stored ∧
      stored.item.generation = lease.generation)
    (by simp [empty]) ⟨stored, hstored, hgeneration⟩
  have hpresent : ∀ k, m < k → k ≤ n →
      ∃ stored, (storeAt calls k).entries.lookup lease.id = some stored ∧
        stored.item.generation = lease.generation := hsince
  refine ⟨m, hm, ?_, ?_, ?_, hpresent, stored, hstored, of_decide_eq_true hlive⟩
  · obtain ⟨own, hown, hownGeneration⟩ := hpresent (m + 1) (Nat.lt_succ_self m) hm
    rcases (served_at calls m).entry hown with
      ⟨first, time, hstart, hfirst, hid, hstarts⟩ | ⟨old, hold, hadvances, _⟩
    · obtain rfl : first = lease := by
        rw [ProgressLease.ext_iff]
        exact ⟨hid, hstarts.generation.symm.trans hownGeneration⟩
      exact ⟨time, own.item, hstart, hfirst⟩
    · exact absurd ⟨old, hold, hadvances.generation.symm.trans hownGeneration⟩ hnot
  · intro k hmk hkn other item hother hid
    obtain ⟨before, hbefore, hbeforeGeneration⟩ := hpresent k hmk hkn.le
    obtain ⟨after, hafter, hafterGeneration⟩ := hpresent (k + 1) (Nat.lt_succ_of_lt hmk) hkn
    rcases (served_at calls k).entry hafter with
      ⟨_, _, _, _, _, hstarts⟩ | ⟨_, _, _, hnone⟩
    · have hissued := (storeAt_valid calls k).issued hbefore
      have hnext := hstarts.generation.trans hstarts.next
      omega
    · exact hnone other item hother hid
  · intro k hmk hkn liveDownload generation hclear hcleared
    obtain ⟨after, hafter, _⟩ := hpresent (k + 1) (Nat.lt_succ_of_lt hmk) hkn
    exact gone_at calls hclear hcleared (AList.mem_of_lookup hafter)

theorem handedOut_increasing (hmn : m < n) {generation generation' : ℕ}
    (h : (replyAt calls m).handedOut = some generation)
    (h' : (replyAt calls n).handedOut = some generation') :
    generation < generation' := by
  have hfirst := (served_at calls m).handedOut h
  have hlast := (served_at calls n).handedOut h'
  have hclock : (storeAt calls (m + 1)).generationClock ≤ (storeAt calls n).generationClock :=
    clock_monotone calls hmn
  omega

/-- What was reported of a job, and what is reported of it later. -/
theorem reported_advances (hmn : m ≤ n) {old new : ProgressItem P}
    (hold : (replyAt calls m).reported = some old) (hnew : (replyAt calls n).reported = some new)
    (hid : new.id = old.id) (hgeneration : new.generation = old.generation) :
    old.progress ≤ new.progress ∧
      (old.state.isTerminal → new.progress = old.progress ∧ new.state = old.state) := by
  obtain ⟨first, hfirst, hfirstGeneration, hfirstProgress, hfirstState⟩ :=
    (served_at calls m).reported hold
  obtain ⟨last, hlast, hlastGeneration, hlastProgress, hlastState⟩ :=
    (served_at calls n).reported hnew
  rw [hid] at hlast
  have hadvances := advances_at calls (Nat.succ_le_succ hmn) hfirst hlast
    (by rw [hlastGeneration, hfirstGeneration, hgeneration])
  rw [← hfirstProgress, ← hlastProgress, ← hfirstState, ← hlastState]
  exact hadvances.progress_and_state

theorem refused_clear_keeps {liveDownload : Bool} {generation : ℕ}
    (hcall : calls n = .clear id liveDownload)
    (hreply : replyAt calls n = .cleared generation false) :
    liveDownload ∧ storeAt calls (n + 1) = storeAt calls n ∧
      ∃ stored, (storeAt calls n).entries.lookup id = some stored ∧
        stored.item.state = .running ∧ stored.item.generation = generation := by
  have hserved := served_at calls n
  rw [hcall, hreply] at hserved
  generalize hafter : storeAt calls (n + 1) = after at hserved
  cases hserved with
  | kept hstored hrunning => exact ⟨rfl, rfl, _, hstored, hrunning, rfl⟩

/-- Over every run of the store: a transition succeeds only for the current producer of
its job, generations grow, reported progress does not go back nor move on from its end,
the store is never over its capacity, and a refused clear changes nothing. -/
theorem only_current_producer_reports (calls : ℕ → ProgressCall P) :
    (∀ n lease progress state failure now item changed,
      calls n = .transition lease progress state failure now →
      replyAt calls n = .transitioned item changed → CurrentProducer calls lease n now) ∧
    (∀ m n generation generation', m < n → (replyAt calls m).handedOut = some generation →
      (replyAt calls n).handedOut = some generation' → generation < generation') ∧
    (∀ m n id old new, m ≤ n → (storeAt calls m).entries.lookup id = some old →
      (storeAt calls n).entries.lookup id = some new →
      new.item.generation = old.item.generation →
      old.item.progress ≤ new.item.progress ∧
        (old.item.state.isTerminal →
          new.item.progress = old.item.progress ∧ new.item.state = old.item.state)) ∧
    (∀ m n old new, m ≤ n → (replyAt calls m).reported = some old →
      (replyAt calls n).reported = some new → new.id = old.id →
      new.generation = old.generation →
      old.progress ≤ new.progress ∧
        (old.state.isTerminal → new.progress = old.progress ∧ new.state = old.state)) ∧
    (∀ n, (storeAt calls n).entries.size ≤ progressCapacity) ∧
    (∀ n id liveDownload generation, calls n = .clear id liveDownload →
      replyAt calls n = .cleared generation false →
      liveDownload ∧ storeAt calls (n + 1) = storeAt calls n ∧
        ∃ stored, (storeAt calls n).entries.lookup id = some stored ∧
          stored.item.state = .running ∧ stored.item.generation = generation) := by
  refine ⟨?_, ?_, ?_, ?_, fun n ↦ (storeAt_valid calls n).room, ?_⟩
  · intro n lease progress state failure now item changed hcall hreply
    exact currentProducer_of_transition calls hcall hreply
  · intro m n generation generation' hmn h h'
    exact handedOut_increasing calls hmn h h'
  · intro m n id old new hmn hold hnew hgeneration
    exact (advances_at calls hmn hold hnew hgeneration).progress_and_state
  · intro m n old new hmn hold hnew hid hgeneration
    exact reported_advances calls hmn hold hnew hid hgeneration
  · intro n id liveDownload generation hcall hreply
    exact refused_clear_keeps calls hcall hreply

end ProgressStore

end EnCroissant.Infra
