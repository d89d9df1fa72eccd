import Mathlib
import EnCroissant.Accounts.SignInRuns

/-!
# What sign-in attempts come to

An attempt hears at most one callback, and only one with its own state; no callback is
accepted for an attempt that has returned; and a token that was issued to an attempt is
stored after its identity was verified, or revoked, and only one of the two.
-/

namespace EnCroissant

def AuthEvent.signal? : AuthEvent → Option CallbackSignal
  | .received signal => some signal
  | _ => none

/-- What happens to a token once `authenticate_after_listener` is over. -/
def AuthEvent.settles : AuthEvent → Bool
  | .revokeToken _ | .stored _ | .storeFailed _ => true
  | _ => false

/-- The token is emitted after its identity was verified. -/
def VerifiedBefore (username : String) (events : List AuthEvent) (token : String) : Prop :=
  ∃ name, eqIgnoreAsciiCase name username ∧
    [AuthEvent.issued token, .verified token name, .emitted token].Sublist events

/-! ## One attempt -/

namespace AuthTrail

variable {username verifier : String} {issued stashed : Option String}
  {result : Except Error Unit} {trail : List AuthEvent} {token : String}

theorem signals_le_one (h : AuthTrail username verifier issued stashed result trail) :
    (trail.filterMap AuthEvent.signal?).length ≤ 1 := by
  cases h <;> simp [AuthEvent.signal?]

theorem exchanges_received (h : AuthTrail username verifier issued stashed result trail)
    {code used : String} (hexchange : .exchangeCode code used ∈ trail) :
    used = verifier ∧ .received (.code code) ∈ trail := by
  cases h <;> simp_all

/-- The token that was issued is left, or it was emitted. -/
theorem issued_cases (h : AuthTrail username verifier issued stashed result trail)
    (htoken : .issued token ∈ trail) :
    issued = some token ∧ stashed = none ∨
      issued = none ∧ stashed = some token ∧ result = .ok () := by
  cases h <;> simp_all

theorem not_settled (h : AuthTrail username verifier issued stashed result trail)
    (event : AuthEvent) (hsettles : event.settles) : trail.count event = 0 := by
  rw [List.count_eq_zero]
  intro hmem
  cases h <;> simp only [List.mem_cons, List.not_mem_nil, or_false] at hmem <;>
    rcases hmem with rfl | rfl | rfl | rfl | rfl <;> cases hsettles

theorem emissions_eq (h : AuthTrail username verifier issued stashed result trail) :
    trail.count (.emitted token) = if stashed = some token then 1 else 0 := by
  cases h with
  | emitted code other name hname =>
      by_cases htoken : other = token <;> simp [htoken]
  | _ => simp

theorem verifiedBefore (h : AuthTrail username verifier issued stashed result trail)
    (htoken : stashed = some token) : VerifiedBefore username trail token := by
  cases h with
  | emitted code _ name hname =>
      obtain rfl := Option.some.inj htoken
      exact ⟨name, hname, by simp⟩
  | _ => cases htoken

end AuthTrail

theorem count_revocation (issued : Option String) (token : String) :
    (revocation issued).count (.revokeToken token) = if issued = some token then 1 else 0 := by
  cases issued with
  | none => rfl
  | some other => by_cases htoken : other = token <;> simp [revocation, htoken]

theorem settles_of_mem_revocation {issued : Option String} {event : AuthEvent}
    (h : event ∈ revocation issued) : event.settles := by
  obtain ⟨token, -, rfl⟩ := List.mem_map.mp h
  rfl

theorem Persisted.settles {stashed : Option String} {rest : List AuthEvent}
    (h : Persisted stashed rest) {event : AuthEvent} (hmem : event ∈ rest) : event.settles := by
  cases h <;> simp only [List.mem_cons, List.not_mem_nil, or_false] at hmem
  · exact hmem ▸ rfl
  · rcases hmem with rfl | rfl <;> rfl

/-- What was emitted is stored, or it is revoked. -/
theorem Persisted.settled_once {stashed : Option String} {rest : List AuthEvent}
    (h : Persisted stashed rest) (token : String) :
    rest.count (.stored token) + rest.count (.revokeToken token) =
      if stashed = some token then 1 else 0 := by
  cases h with
  | none => rfl
  | stored other => by_cases htoken : other = token <;> simp [htoken]
  | revoked other => by_cases htoken : other = token <;> simp [htoken]

namespace SignInAttempt

variable {username verifier : String} {attempt : SignInAttempt} {token : String}

/-- In every phase the events are those of `authenticate_after_listener` so far, and then
what settles a token. -/
theorem Story.trail (h : attempt.Story username verifier) :
    ∃ issued stashed result trail rest,
      AuthTrail username verifier issued stashed result trail ∧
        attempt.events = trail ++ rest ∧ ∀ event ∈ rest, event.settles := by
  unfold Story at h
  split at h
  case h_7 =>
    obtain ⟨-, -, -, code, hevents⟩ := h
    exact ⟨_, _, _, _, [], .unissued code, hevents, by simp⟩
  case h_8 token _ =>
    obtain ⟨-, -, -, code, hevents⟩ := h
    exact ⟨_, _, _, _, [], .unverified code token, hevents, by simp⟩
  case h_9 | h_10 => exact ⟨_, _, _, _, [], h.2, (List.append_nil _).symm, by simp⟩
  case h_11 | h_12 =>
    obtain ⟨-, issued, trail, htrail, hevents⟩ := h
    exact ⟨_, _, _, _, _, htrail, hevents, fun _ ↦ settles_of_mem_revocation⟩
  case h_13 =>
    obtain ⟨-, issued, stashed, result, trail, rest, htrail, hpersisted, hevents⟩ := h
    refine ⟨_, _, _, _, revocation issued ++ rest, htrail, ?_, fun event hmem ↦ ?_⟩
    · rw [hevents, List.append_assoc]
    · rcases List.mem_append.mp hmem with hmem | hmem
      · exact settles_of_mem_revocation hmem
      · exact hpersisted.settles hmem
  all_goals exact ⟨_, _, _, _, [], .unsent, h.2.2, by simp⟩

theorem Story.signals_le_one (h : attempt.Story username verifier) :
    (attempt.events.filterMap AuthEvent.signal?).length ≤ 1 := by
  obtain ⟨_, _, _, trail, rest, htrail, hevents, hrest⟩ := h.trail
  have hnone : rest.filterMap AuthEvent.signal? = [] := by
    refine List.filterMap_eq_nil_iff.mpr fun event hmem ↦ ?_
    have hsettles := hrest event hmem
    cases event <;> first | rfl | cases hsettles
  rw [hevents, List.filterMap_append, hnone, List.append_nil]
  exact htrail.signals_le_one

theorem Story.exchanges_received (h : attempt.Story username verifier) {code used : String}
    (hexchange : .exchangeCode code used ∈ attempt.events) :
    used = verifier ∧ .received (.code code) ∈ attempt.events := by
  obtain ⟨_, _, _, trail, rest, htrail, hevents, hrest⟩ := h.trail
  rw [hevents] at hexchange ⊢
  have hmem := (List.mem_append.mp hexchange).resolve_right fun hmem ↦ by
    cases hrest _ hmem
  exact (htrail.exchanges_received hmem).imp_right (List.mem_append_left _)

/-- A token that an attempt was issued is emitted or revoked by its return. -/
theorem Story.returned_settled (h : attempt.Story username verifier)
    {result : Except Error Unit} (hended : attempt.phase = .ended result)
    (htoken : .issued token ∈ attempt.events) :
    attempt.events.count (.emitted token) + attempt.events.count (.revokeToken token) = 1 := by
  simp only [Story, hended] at h
  obtain ⟨-, issued, trail, htrail, hevents⟩ := h
  have hissued : .issued token ∈ trail :=
    (List.mem_append.mp (hevents ▸ htoken)).resolve_right fun hmem ↦ by
      cases settles_of_mem_revocation hmem
  have hemitted : (revocation issued).count (.emitted token) = 0 :=
    List.count_eq_zero.mpr fun hmem ↦ by cases settles_of_mem_revocation hmem
  rw [hevents, List.count_append, List.count_append, htrail.emissions_eq, hemitted,
    htrail.not_settled (.revokeToken token) rfl, count_revocation]
  rcases htrail.issued_cases hissued with ⟨hissued, hstashed⟩ | ⟨hissued, hstashed, -⟩ <;>
    simp [hissued, hstashed]

/-- By the end of the job it is stored or revoked, and stored only if it was verified. -/
theorem Story.completed_settled (h : attempt.Story username verifier) {succeeded : Bool}
    (hcompleted : attempt.phase = .completed succeeded) (htoken : .issued token ∈ attempt.events) :
    attempt.events.count (.stored token) + attempt.events.count (.revokeToken token) = 1 ∧
      (.stored token ∈ attempt.events → VerifiedBefore username attempt.events token) := by
  simp only [Story, hcompleted] at h
  obtain ⟨-, issued, stashed, result, trail, rest, htrail, hpersisted, hevents⟩ := h
  have hissued : .issued token ∈ trail := by
    rw [hevents] at htoken
    rcases List.mem_append.mp htoken with hmem | hmem
    · exact (List.mem_append.mp hmem).resolve_right fun hmem ↦ by
        cases settles_of_mem_revocation hmem
    · cases hpersisted.settles hmem
  have hstored : (revocation issued).count (.stored token) = 0 :=
    List.count_eq_zero.mpr fun hmem ↦ by
      obtain ⟨_, -, heq⟩ := List.mem_map.mp hmem
      cases heq
  have hsettled := hpersisted.settled_once token
  refine ⟨?_, fun hmem ↦ ?_⟩
  · rw [hevents]
    simp only [List.count_append, htrail.not_settled (.stored token) rfl,
      htrail.not_settled (.revokeToken token) rfl, hstored, count_revocation]
    rcases htrail.issued_cases hissued with ⟨rfl, rfl⟩ | ⟨rfl, rfl, -⟩ <;> simp_all
  · rcases htrail.issued_cases hissued with ⟨rfl, rfl⟩ | ⟨rfl, hstashed, -⟩
    · cases hpersisted
      rw [hevents, List.append_nil, List.mem_append] at hmem
      rcases hmem with hmem | hmem
      · exact absurd (htrail.not_settled (.stored token) rfl)
          (List.count_pos_iff.mpr hmem).ne'
      · exact absurd hstored (List.count_pos_iff.mpr hmem).ne'
    · obtain ⟨name, hname, hsublist⟩ := htrail.verifiedBefore hstashed
      refine ⟨name, hname, hsublist.trans ?_⟩
      rw [hevents, List.append_assoc]
      exact List.sublist_append_left _ _

end SignInAttempt

/-! ## All attempts -/

namespace AuthLifecycle

variable {A : Type} [DecidableEq A] {calls : SignInCalls A} {s s' : AuthLifecycle A}
  {action : SignInAction A} {a : A}

/-- No callback is accepted for an attempt that has returned. -/
theorem Effect.returned_closed (hdistinct : Function.Injective calls.csrfToken)
    (h : s.Effect calls action s') (hs : s.Inv calls) (hreturned : (s.attempts a).Returned) :
    s'.acceptances (calls.csrfToken a) = s.acceptances (calls.csrfToken a) := by
  obtain ⟨new, hnew, hall⟩ := h.answers hs
  have hnone : new.countP (fun answer ↦
      answer.1.state == some (calls.csrfToken a) && answer.2.isAccepted) = 0 := by
    refine List.countP_eq_zero.mpr fun answer hmem hanswer ↦ ?_
    rw [Bool.and_eq_true, beq_iff_eq] at hanswer
    obtain ⟨b, -, hlistens, hstate⟩ := hall answer hmem hanswer.2
    obtain rfl : a = b := hdistinct (Option.some.inj (hanswer.1.symm.trans hstate))
    rw [(hs.story a).dropped hreturned] at hlistens
    cases hlistens
  rw [acceptances, hnew, List.countP_append, hnone]
  rfl

theorem Effect.returned (h : s.Effect calls action s') (hs : s.Inv calls)
    (hreturned : (s.attempts a).Returned) : (s'.attempts a).Returned := by
  rcases h.moves hs a with ⟨-, hbegins⟩ | hmoves
  · rw [SignInAttempt.Returned, hbegins.idle] at hreturned
    exact hreturned.elim
  · exact hmoves.returned hreturned

/-- The steps of one attempt leave the others, their entries and the callbacks alone. -/
theorem Effect.others (h : s.Effect calls action s') (hs : s.Inv calls)
    (haction : action.attempt? = some a) {b : A} (hb : b ≠ a) :
    s'.attempts b = s.attempts b ∧ s'.pending = s.pending ∧ s'.answers = s.answers ∧
      (s.Begun b → s'.active.lookup (s.attempts b).generation =
        s.active.lookup (s.attempts b).generation) := by
  cases h with
  | began c _ =>
      obtain rfl := Option.some.inj haction
      refine ⟨Function.update_of_ne hb .., rfl, rfl, fun hbegun ↦ AList.lookup_insert_ne ?_⟩
      have hbound := hs.bounded b hbegun
      omega
  | advanced _ c attempt hc _ =>
      obtain rfl := Option.some.inj (hc.symm.trans haction)
      exact ⟨Function.update_of_ne hb .., rfl, rfl, fun _ ↦ rfl⟩
  | cleared c attempt hc =>
      obtain rfl := Option.some.inj haction
      refine ⟨Function.update_of_ne hb .., rfl, rfl, fun hbegun ↦ AList.lookup_erase_ne ?_⟩
      exact fun heq ↦ hb (hs.apart b c hbegun hc.begun heq)
  | _ => cases haction

/-- What holds of an attempt in a reachable state, and from there on. -/
structure NeverMixes (calls : SignInCalls A) (s : AuthLifecycle A) (a : A) : Prop where
  accepted_once : s.acceptances (calls.csrfToken a) ≤ 1
  heard_once : ((s.attempts a).events.filterMap AuthEvent.signal?).length ≤ 1
  own_state : ∀ signal, .received signal ∈ (s.attempts a).events → s.Signalled calls a signal
  own_verifier : ∀ code verifier, .exchangeCode code verifier ∈ (s.attempts a).events →
    verifier = calls.pkceVerifier a ∧ s.Signalled calls a (.code code)
  /-- No callback is accepted for an attempt that has returned. -/
  closed : (s.attempts a).Returned → ∀ s', (signInMachine calls).Run s s' →
    s'.acceptances (calls.csrfToken a) = s.acceptances (calls.csrfToken a)
  others : ∀ action s', s.step calls action = some s' → action.attempt? = some a → ∀ b ≠ a,
    s'.attempts b = s.attempts b ∧ s'.pending = s.pending ∧ s'.answers = s.answers ∧
      (s.Begun b → s'.active.lookup (s.attempts b).generation =
        s.active.lookup (s.attempts b).generation)
  /-- By its return a token is emitted or revoked, once. -/
  returned : ∀ token result, .issued token ∈ (s.attempts a).events →
    (s.attempts a).phase = .ended result →
      (s.attempts a).events.count (.emitted token) +
        (s.attempts a).events.count (.revokeToken token) = 1
  /-- By the end of the job it is stored or revoked, once. -/
  completed : ∀ token succeeded, .issued token ∈ (s.attempts a).events →
    (s.attempts a).phase = .completed succeeded →
      (s.attempts a).events.count (.stored token) +
          (s.attempts a).events.count (.revokeToken token) = 1 ∧
        (.stored token ∈ (s.attempts a).events →
          VerifiedBefore (calls.username a) (s.attempts a).events token)

/-- Attempts never mix and never leak a token. -/
theorem authenticate_neverMixes (hdistinct : Function.Injective calls.csrfToken)
    (hs : (signInMachine calls).Reachable s) (a : A) : s.NeverMixes calls a := by
  have hinvariant := inv_invariant hdistinct
  have hinv := hinvariant.reachable hs
  constructor
  case accepted_once => exact (Nat.le_add_left ..).trans (hinv.once a)
  case heard_once => exact (hinv.story a).signals_le_one
  case own_state => exact fun signal hmem ↦ hinv.heard a signal (Or.inl hmem)
  case own_verifier =>
    intro code verifier hmem
    obtain ⟨hverifier, hreceived⟩ := (hinv.story a).exchanges_received hmem
    exact ⟨hverifier, hinv.heard a _ (Or.inl hreceived)⟩
  case closed =>
    intro hreturned s' hrun
    let Closed (s' : AuthLifecycle A) : Prop := (s'.attempts a).Returned ∧
      s'.acceptances (calls.csrfToken a) = s.acceptances (calls.csrfToken a)
    have hclosed : Closed s' := by
      refine hinvariant.stable (fun ht hclosed _ hstep ↦ ?_) hinv ⟨hreturned, rfl⟩ hrun
      have heffect := effect_of_step hstep
      exact ⟨heffect.returned ht hclosed.1,
        (heffect.returned_closed hdistinct ht hclosed.1).trans hclosed.2⟩
    exact hclosed.2
  case others =>
    intro action s' hstep haction b hb
    exact (effect_of_step hstep).others hinv haction hb
  case returned => exact fun token result htoken hended ↦
    (hinv.story a).returned_settled hended htoken
  case completed => exact fun token succeeded htoken hcompleted ↦
    (hinv.story a).completed_settled hcompleted htoken

end AuthLifecycle

namespace TwoAttempts

def calls : SignInCalls Bool where
  username bob := if bob then "Bob" else "anna"
  csrfToken bob := if bob then "state-b" else "state-a"
  pkceVerifier bob := if bob then "verifier-b" else "verifier-a"

theorem csrfToken_injective : Function.Injective calls.csrfToken := by
  intro a b h
  cases a <;> cases b <;> first | rfl | exact absurd h (by decide)

/-- A callback with an unknown state is turned away, Bob's code is exchanged and his token
stored, and Anna is refused. -/
def inputs : List (SignInAction Bool) :=
  [.begin false, .begin true, .attempt false (.startListener true),
    .attempt true (.startListener true), .attempt false (.openBrowser true),
    .attempt true (.openBrowser true), .acceptCallback ⟨some "x", some "other", none⟩ none,
    .acceptCallback ⟨some "code-b", some "state-b", none⟩ (some 2),
    .acceptCallback ⟨none, some "state-a", some "denied"⟩ (some 1),
    .send ⟨⟨some "code-b", some "state-b", none⟩, true⟩,
    .send ⟨⟨none, some "state-a", some "denied"⟩, false⟩,
    .attempt true .receive, .attempt false .receive, .attempt true (.exchanged (some "token")),
    .attempt false .shutdownListener, .clearGeneration false, .attempt false (.persist false),
    .attempt true (.verified (some "bob") true), .attempt true .shutdownListener,
    .clearGeneration true, .attempt true (.persist true)]

def after : Option (AuthLifecycle Bool) :=
  inputs.foldlM (fun s action ↦ if True then s.step calls action else none) .initial

def last : AuthLifecycle Bool := after.get rfl

theorem last_reachable : (signInMachine calls).Reachable last :=
  ⟨.initial, rfl, Machine.RunOf.of_foldlM (fun h ↦ h) (Option.eq_some_of_isSome rfl)⟩

/-- Bob's token is stored, and not revoked. -/
theorem authenticate_neverMixes_bob : last.NeverMixes calls true ∧
    (last.attempts true).events.count (.revokeToken "token") = 0 := by
  have hlast := AuthLifecycle.authenticate_neverMixes csrfToken_injective last_reachable true
  have hissued : .issued "token" ∈ (last.attempts true).events :=
    List.mem_of_getElem? (show (last.attempts true).events[2]? = some _ from rfl)
  have hstored : .stored "token" ∈ (last.attempts true).events :=
    List.mem_of_getElem? (show (last.attempts true).events[5]? = some _ from rfl)
  have hsettled := (hlast.completed "token" true hissued rfl).1
  have hpositive := List.count_pos_iff.mpr hstored
  exact ⟨hlast, by omega⟩

end TwoAttempts

end EnCroissant
