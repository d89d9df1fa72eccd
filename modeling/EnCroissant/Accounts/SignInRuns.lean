import Mathlib
import EnCroissant.Accounts.SignIn

/-!
# Runs of sign-in attempts

The phase of an attempt tells what it has heard and asked for, and its sender is in
the table, with one callback, or used.  So no two callbacks reach one attempt, and
every token that was issued to an attempt is emitted or revoked by its end.
-/

namespace EnCroissant

/-! ## What an attempt has done -/

/-- How `authenticate_after_listener` ends: the token that is left, the one that was emitted,
the result, and what happened. -/
inductive AuthTrail (username verifier : String) :
    Option String → Option String → Except Error Unit → List AuthEvent → Prop
  | unsent : AuthTrail username verifier none none oauthFailure []
  | rejected : AuthTrail username verifier none none oauthFailure [.received .rejected]
  | unissued (code : String) : AuthTrail username verifier none none oauthFailure
      [.received (.code code), .exchangeCode code verifier]
  | unverified (code token : String) : AuthTrail username verifier (some token) none oauthFailure
      [.received (.code code), .exchangeCode code verifier, .issued token]
  | mismatched (code token name : String) (h : ¬ eqIgnoreAsciiCase name username) :
      AuthTrail username verifier (some token) none oauthFailure
        [.received (.code code), .exchangeCode code verifier, .issued token,
          .verified token name]
  | refused (code token name : String) (h : eqIgnoreAsciiCase name username) :
      AuthTrail username verifier (some token) none oauthFailure
        [.received (.code code), .exchangeCode code verifier, .issued token,
          .verified token name, .refused token]
  | emitted (code token name : String) (h : eqIgnoreAsciiCase name username) :
      AuthTrail username verifier none (some token) (.ok ())
        [.received (.code code), .exchangeCode code verifier, .issued token,
          .verified token name, .emitted token]

/-- What happens to a token that was emitted. -/
inductive Persisted : Option String → List AuthEvent → Prop
  | none : Persisted none []
  | stored (token : String) : Persisted (some token) [.stored token]
  | revoked (token : String) :
      Persisted (some token) [.storeFailed token, .revokeToken token]

/-- The revocation of the token that is left. -/
def revocation (issued : Option String) : List AuthEvent := issued.toList.map .revokeToken

namespace SignInAttempt

/-- What the phase tells of the tokens and the events. -/
def Story (username verifier : String) (attempt : SignInAttempt) : Prop :=
  match attempt.phase with
  | .idle | .begun | .refused | .returning | .listening | .waiting =>
      attempt.issuedToken = none ∧ attempt.stashedToken = none ∧ attempt.events = []
  | .exchanging =>
      attempt.issuedToken = none ∧ attempt.stashedToken = none ∧
        attempt.callbackRx = .dropped ∧ ∃ code,
          attempt.events = [.received (.code code), .exchangeCode code verifier]
  | .verifying token =>
      attempt.issuedToken = some token ∧ attempt.stashedToken = none ∧
        attempt.callbackRx = .dropped ∧ ∃ code, attempt.events =
          [.received (.code code), .exchangeCode code verifier, .issued token]
  | .draining result | .clearing result =>
      attempt.callbackRx = .dropped ∧
        AuthTrail username verifier attempt.issuedToken attempt.stashedToken result attempt.events
  | .revoking result | .ended result =>
      attempt.callbackRx = .dropped ∧ ∃ issued trail,
        AuthTrail username verifier issued attempt.stashedToken result trail ∧
          attempt.events = trail ++ revocation issued
  | .completed _ =>
      attempt.callbackRx = .dropped ∧ ∃ issued stashed result trail rest,
        AuthTrail username verifier issued stashed result trail ∧ Persisted stashed rest ∧
          attempt.events = trail ++ revocation issued ++ rest

/-- `authenticate_internal` has returned. -/
def Returned (attempt : SignInAttempt) : Prop :=
  match attempt.phase with
  | .ended _ | .completed _ => True
  | _ => False

/-- What a step that concerns only the attempt leaves as it is. -/
structure Advances (username verifier : String) (attempt attempt' : SignInAttempt) : Prop where
  begun : attempt.phase ≠ .idle
  begun' : attempt'.phase ≠ .idle
  generation : attempt'.generation = attempt.generation
  callbackRx : attempt'.callbackRx = attempt.callbackRx ∨ attempt'.callbackRx = .dropped
  heard : ∀ signal, .received signal ∈ attempt'.events →
    .received signal ∈ attempt.events ∨ attempt.callbackRx = .sent signal
  returned : attempt.Returned → attempt'.Returned
  story : attempt.Story username verifier → attempt'.Story username verifier

section

variable {username verifier : String} {attempt attempt' : SignInAttempt}

theorem Story.dropped (h : attempt.Story username verifier) (hreturned : attempt.Returned) :
    attempt.callbackRx = .dropped := by
  rw [Story] at h
  rw [Returned] at hreturned
  cases hphase : attempt.phase with
  | ended result =>
      rw [hphase] at h
      exact h.1
  | completed succeeded =>
      rw [hphase] at h
      exact h.1
  | _ => simp [hphase] at hreturned

/-- The end of `authenticate_after_listener`, after what happened last. -/
theorem advances_finish {last : SignInAttempt} {result : Except Error Unit}
    (hbegun : attempt.phase ≠ .idle) (hreturned : ¬ attempt.Returned)
    (hgeneration : last.generation = attempt.generation)
    (hheard : ∀ signal, .received signal ∈ last.events →
      .received signal ∈ attempt.events ∨ attempt.callbackRx = .sent signal)
    (htrail : attempt.Story username verifier →
      AuthTrail username verifier last.issuedToken last.stashedToken result last.events) :
    attempt.Advances username verifier (last.finish result) where
  begun := hbegun
  begun' := by simp [finish]
  generation := hgeneration
  callbackRx := Or.inr rfl
  heard := hheard
  returned h := absurd h hreturned
  story h := ⟨rfl, htrail h⟩

theorem startListener_advances {started : Bool} (h : attempt.startListener started = some attempt') :
    attempt.Advances username verifier attempt' := by
  rw [startListener] at h
  split at h
  · next hphase =>
    obtain rfl := Option.some.inj h
    cases started <;> constructor <;> simp_all [Returned, Story]
  · cases h

theorem openBrowser_advances {opened : Bool} (h : attempt.openBrowser opened = some attempt') :
    attempt.Advances username verifier attempt' := by
  rw [openBrowser] at h
  split at h
  · next hphase =>
    split at h <;> obtain rfl := Option.some.inj h
    · constructor <;> simp_all [Returned, Story]
    · refine advances_finish (by simp [hphase]) (by simp [Returned, hphase]) rfl
        (fun _ ↦ Or.inl) fun hstory ↦ ?_
      simp only [Story, hphase] at hstory
      rw [hstory.1, hstory.2.1, hstory.2.2]
      exact .unsent
  · cases h

theorem serverStopped_advances (h : attempt.serverStopped = some attempt') :
    attempt.Advances username verifier attempt' := by
  rw [serverStopped] at h
  split at h
  · next hphase =>
    obtain rfl := Option.some.inj h
    refine advances_finish (by simp [hphase]) (by simp [Returned, hphase]) rfl
      (fun _ ↦ Or.inl) fun hstory ↦ ?_
    simp only [Story, hphase] at hstory
    rw [hstory.1, hstory.2.1, hstory.2.2]
    exact .unsent
  · cases h

theorem receive_advances (h : attempt.receive verifier = some attempt') :
    attempt.Advances username verifier attempt' := by
  rw [receive] at h
  split at h
  · next code hphase hrx =>
    obtain rfl := Option.some.inj h
    constructor
    case heard =>
      intro signal hsignal
      simp only [log, List.mem_append, List.mem_cons, AuthEvent.received.injEq] at hsignal
      refine hsignal.imp_right fun hlast ↦ ?_
      rw [hrx]
      simpa [eq_comm] using hlast
    all_goals simp_all [Returned, Story, log]
  · next hphase hrx =>
    obtain rfl := Option.some.inj h
    refine advances_finish (by simp [hphase]) (by simp [Returned, hphase]) rfl
      (fun signal hsignal ↦ ?_) fun hstory ↦ ?_
    · simp only [log, List.mem_append, List.mem_singleton, AuthEvent.received.injEq] at hsignal
      exact hsignal.imp_right fun heq ↦ by rw [hrx, heq]
    · simp only [Story, hphase] at hstory
      simp only [log, hstory.1, hstory.2.1, hstory.2.2]
      exact .rejected
  · cases h

theorem exchanged_advances {token : Option String} (h : attempt.exchanged token = some attempt') :
    attempt.Advances username verifier attempt' := by
  unfold exchanged at h
  split at h
  · next token hphase =>
    obtain rfl := Option.some.inj h
    constructor <;> simp_all [Returned, Story, log]
  · next hphase =>
    obtain rfl := Option.some.inj h
    refine advances_finish (by simp [hphase]) (by simp [Returned, hphase]) rfl
      (fun _ ↦ Or.inl) fun hstory ↦ ?_
    simp only [Story, hphase] at hstory
    obtain ⟨hissued, hstashed, -, code, hevents⟩ := hstory
    rw [hissued, hstashed, hevents]
    exact .unissued code
  · cases h

theorem verified_advances {name : Option String} {taken : Bool}
    (h : attempt.verified username name taken = some attempt') :
    attempt.Advances username verifier attempt' := by
  unfold verified at h
  split at h
  · next token name hphase =>
    have hbegun : attempt.phase ≠ .idle := by simp [hphase]
    have hreturned : ¬ attempt.Returned := by simp [Returned, hphase]
    have hstory (hstory : attempt.Story username verifier) : attempt.issuedToken = some token ∧
        attempt.stashedToken = none ∧ ∃ code, attempt.events =
          [.received (.code code), .exchangeCode code verifier, .issued token] := by
      simp only [Story, hphase] at hstory
      exact ⟨hstory.1, hstory.2.1, hstory.2.2.2⟩
    dsimp only at h
    split_ifs at h with hname htaken <;> obtain rfl := Option.some.inj h
    · refine advances_finish hbegun hreturned rfl (fun signal hsignal ↦ ?_) fun h ↦ ?_
      · exact Or.inl (by simpa [log] using hsignal)
      · obtain ⟨-, -, code, hevents⟩ := hstory h
        simp only [log, hevents]
        exact .emitted code token name hname
    · refine advances_finish hbegun hreturned rfl (fun signal hsignal ↦ ?_) fun h ↦ ?_
      · exact Or.inl (by simpa [log] using hsignal)
      · obtain ⟨hissued, hstashed, code, hevents⟩ := hstory h
        simp only [log, hissued, hstashed, hevents]
        exact .refused code token name hname
    · refine advances_finish hbegun hreturned rfl (fun signal hsignal ↦ ?_) fun h ↦ ?_
      · exact Or.inl (by simpa [log] using hsignal)
      · obtain ⟨hissued, hstashed, code, hevents⟩ := hstory h
        simp only [log, hissued, hstashed, hevents]
        exact .mismatched code token name hname
  · next token hphase =>
    obtain rfl := Option.some.inj h
    refine advances_finish (by simp [hphase]) (by simp [Returned, hphase]) rfl
      (fun _ ↦ Or.inl) fun hstory ↦ ?_
    simp only [Story, hphase] at hstory
    obtain ⟨hissued, hstashed, -, code, hevents⟩ := hstory
    rw [hissued, hstashed, hevents]
    exact .unverified code token
  · cases h

theorem timeout_advances (h : attempt.timeout = some attempt') :
    attempt.Advances username verifier attempt' := by
  rw [timeout] at h
  split at h
  · next hphase =>
    obtain rfl := Option.some.inj h
    refine advances_finish (by simp [hphase]) (by simp [Returned, hphase]) rfl
      (fun _ ↦ Or.inl) fun hstory ↦ ?_
    simp only [Story, hphase] at hstory
    rw [hstory.1, hstory.2.1, hstory.2.2]
    exact .unsent
  · next hphase =>
    obtain rfl := Option.some.inj h
    refine advances_finish (by simp [hphase]) (by simp [Returned, hphase]) rfl
      (fun _ ↦ Or.inl) fun hstory ↦ ?_
    simp only [Story, hphase] at hstory
    obtain ⟨hissued, hstashed, -, code, hevents⟩ := hstory
    rw [hissued, hstashed, hevents]
    exact .unissued code
  · next token hphase =>
    obtain rfl := Option.some.inj h
    refine advances_finish (by simp [hphase]) (by simp [Returned, hphase]) rfl
      (fun _ ↦ Or.inl) fun hstory ↦ ?_
    simp only [Story, hphase] at hstory
    obtain ⟨hissued, hstashed, -, code, hevents⟩ := hstory
    rw [hissued, hstashed, hevents]
    exact .unverified code token
  · cases h

theorem shutdownListener_advances (h : attempt.shutdownListener = some attempt') :
    attempt.Advances username verifier attempt' := by
  rw [shutdownListener] at h
  split at h
  · next result hphase =>
    obtain rfl := Option.some.inj h
    constructor <;> simp_all [Returned, Story]
  · cases h

theorem cleared_advances (h : attempt.cleared = some attempt') :
    attempt.Advances username verifier attempt' := by
  rw [cleared] at h
  split at h
  · next hphase =>
    obtain rfl := Option.some.inj h
    constructor <;> simp_all [Returned, Story]
  · next result token hphase hissued =>
    obtain rfl := Option.some.inj h
    constructor
    case story =>
      intro hstory
      simp only [Story, hphase, hissued] at hstory
      exact ⟨hstory.1, some token, attempt.events, hstory.2, rfl⟩
    all_goals simp_all [Returned, log]
  · next result hphase hissued =>
    obtain rfl := Option.some.inj h
    constructor
    case story =>
      intro hstory
      simp only [Story, hphase, hissued] at hstory
      exact ⟨hstory.1, none, attempt.events, hstory.2, (List.append_nil _).symm⟩
    all_goals simp_all [Returned]
  · cases h

theorem leave_advances (h : attempt.leave = some attempt') :
    attempt.Advances username verifier attempt' := by
  rw [leave] at h
  split at h
  · next hphase =>
    obtain rfl := Option.some.inj h
    constructor
    case story =>
      intro hstory
      simp only [Story, hphase] at hstory
      refine ⟨rfl, none, [], ?_, ?_⟩
      · rw [hstory.2.1]
        exact .unsent
      · rw [hstory.2.2]
        rfl
    all_goals simp_all [Returned]
  · next result hphase =>
    obtain rfl := Option.some.inj h
    constructor <;> simp_all [Returned, Story]
  · cases h

theorem persist_advances {stored : Bool} (h : attempt.persist stored = some attempt') :
    attempt.Advances username verifier attempt' := by
  rw [persist] at h
  split at h
  · next token hphase hstashed =>
    dsimp only at h
    split_ifs at h <;> obtain rfl := Option.some.inj h
    all_goals
      constructor
      case story =>
        intro hstory
        simp only [Story, hphase, hstashed] at hstory
        obtain ⟨hrx, issued, trail, htrail, hevents⟩ := hstory
        refine ⟨hrx, issued, some token, _, trail, _, htrail, ?_, congrArg (· ++ _) hevents⟩
        constructor
      all_goals simp_all [Returned, log]
  · next result hphase hother =>
    obtain rfl := Option.some.inj h
    constructor
    case story =>
      intro hstory
      simp only [Story, hphase] at hstory
      obtain ⟨hrx, issued, trail, htrail, hevents⟩ := hstory
      cases hstashed : attempt.stashedToken with
      | none =>
          rw [hstashed] at htrail
          refine ⟨hrx, issued, none, _, trail, [], htrail, .none, ?_⟩
          rw [List.append_nil]
          exact hevents
      | some token =>
          rw [hstashed] at htrail
          cases htrail with
          | emitted code _ name hname => exact (hother token hstashed rfl).elim
    all_goals simp_all [Returned]
  · cases h

/-- Every step of an attempt advances it. -/
theorem step_advances {action : SignInAttemptAction}
    (h : attempt.step username verifier action = some attempt') :
    attempt.Advances username verifier attempt' := by
  cases action with
  | startListener started => exact startListener_advances h
  | openBrowser opened => exact openBrowser_advances h
  | serverStopped => exact serverStopped_advances h
  | receive => exact receive_advances h
  | exchanged token => exact exchanged_advances h
  | verified name taken => exact verified_advances h
  | timeout => exact timeout_advances h
  | shutdownListener => exact shutdownListener_advances h
  | leave => exact leave_advances h
  | persist stored => exact persist_advances h

end

end SignInAttempt

/-! ## What a step does -/

/-- What a step of the system does. -/
inductive AuthLifecycle.Effect {A : Type} [DecidableEq A] (calls : SignInCalls A)
    (s : AuthLifecycle A) : SignInAction A → AuthLifecycle A → Prop
  | began (a : A) (hidle : (s.attempts a).phase = .idle) :
      Effect calls s (.begin a)
        { s.setAttempt a { s.attempts a with
            phase := .begun, generation := s.nextGeneration + 1, callbackRx := .empty } with
          active := s.active.insert (s.nextGeneration + 1) ⟨calls.csrfToken a, some a⟩
          nextGeneration := s.nextGeneration + 1 }
  | advanced (action : SignInAction A) (a : A) (attempt : SignInAttempt)
      (haction : action.attempt? = some a)
      (h : (s.attempts a).Advances (calls.username a) (calls.pkceVerifier a) attempt) :
      Effect calls s action (s.setAttempt a attempt)
  | cleared (a : A) (attempt : SignInAttempt)
      (h : (s.attempts a).Advances (calls.username a) (calls.pkceVerifier a) attempt) :
      Effect calls s (.clearGeneration a)
        { s.setAttempt a attempt with active := s.active.erase (s.attempts a).generation }
  | answered (query : CallbackQuery) (found : Option ℕ) (result : CallbackResult)
      (hresult : result.isAccepted = false) :
      Effect calls s (.acceptCallback query found) (s.answer query result)
  | taken (query : CallbackQuery) (generation : ℕ) (transaction : AuthTransaction A) (a : A)
      (hlookup : s.active.lookup generation = some transaction)
      (hstate : query.state = some transaction.csrfToken)
      (hsender : transaction.callbackTx = some a) :
      Effect calls s (.acceptCallback query (some generation)) { s with
        active := s.active.insert generation { transaction with callbackTx := none }
        pending := s.pending ++ [⟨query, a⟩] }
  | accepted (callback : PendingCallback A) (hmem : callback ∈ s.pending)
      (hrx : (s.attempts callback.callbackTx).callbackRx = .empty) :
      Effect calls s (.send callback) ({ s with
        pending := s.pending.erase callback
        attempts := Function.update s.attempts callback.callbackTx
          { s.attempts callback.callbackTx with
            callbackRx := .sent callback.query.signal } }.answer callback.query
              callback.query.signal.acceptedResult)
  | closed (callback : PendingCallback A) (hmem : callback ∈ s.pending) :
      Effect calls s (.send callback)
        ({ s with pending := s.pending.erase callback }.answer callback.query .closed)

namespace AuthLifecycle

section

variable {A : Type} {calls : SignInCalls A} {s s' : AuthLifecycle A} {a : A}

/-- The callbacks with this state that were answered as accepted. -/
def acceptances (s : AuthLifecycle A) (state : String) : ℕ :=
  s.answers.countP fun answer ↦ answer.1.state == some state && answer.2.isAccepted

def Begun (s : AuthLifecycle A) (a : A) : Prop := (s.attempts a).phase ≠ .idle

/-- An accepted callback with the state of the attempt and this signal. -/
def Signalled (calls : SignInCalls A) (s : AuthLifecycle A) (a : A) (signal : CallbackSignal) :
    Prop :=
  ∃ query : CallbackQuery, (query, signal.acceptedResult) ∈ s.answers ∧
    query.state = some (calls.csrfToken a) ∧ query.signal = signal

/-- The attempt begins. -/
structure Begins (s : AuthLifecycle A) (a : A) (s' : AuthLifecycle A) : Prop where
  idle : (s.attempts a).phase = .idle
  attempt : s'.attempts a = { s.attempts a with
    phase := .begun, generation := s.nextGeneration + 1, callbackRx := .empty }
  nextGeneration : s'.nextGeneration = s.nextGeneration + 1

/-- What any other step does to an attempt. -/
inductive Moves (calls : SignInCalls A) (s : AuthLifecycle A) (a : A) (s' : AuthLifecycle A) : Prop
  | same (heq : s'.attempts a = s.attempts a)
  | heard (signal : CallbackSignal) (hrx : (s.attempts a).callbackRx = .empty)
      (hsignal : s'.Signalled calls a signal)
      (heq : s'.attempts a = { s.attempts a with callbackRx := .sent signal })
  | advanced (attempt : SignInAttempt)
      (h : (s.attempts a).Advances (calls.username a) (calls.pkceVerifier a) attempt)
      (heq : s'.attempts a = attempt)

theorem Begins.begun (h : s.Begins a s') : s'.Begun a := by
  rw [Begun, h.attempt]
  exact AuthPhase.noConfusion

theorem Begins.story (h : s.Begins a s')
    (hstory : (s.attempts a).Story (calls.username a) (calls.pkceVerifier a)) :
    (s'.attempts a).Story (calls.username a) (calls.pkceVerifier a) := by
  rw [h.attempt]
  simp only [SignInAttempt.Story, h.idle] at hstory
  exact hstory

theorem Moves.kept (h : s.Moves calls a s') :
    (s'.Begun a ↔ s.Begun a) ∧ (s'.attempts a).generation = (s.attempts a).generation := by
  cases h with
  | same heq =>
      rw [Begun, Begun, heq]
      exact ⟨Iff.rfl, rfl⟩
  | heard _ _ _ heq =>
      rw [Begun, Begun, heq]
      exact ⟨Iff.rfl, rfl⟩
  | advanced attempt h heq =>
      rw [Begun, Begun, heq]
      exact ⟨iff_of_true h.begun' h.begun, h.generation⟩

theorem Moves.story (h : s.Moves calls a s')
    (hstory : (s.attempts a).Story (calls.username a) (calls.pkceVerifier a)) :
    (s'.attempts a).Story (calls.username a) (calls.pkceVerifier a) := by
  cases h with
  | same heq =>
      rw [heq]
      exact hstory
  | heard signal hrx _ heq =>
      rw [heq]
      simp only [SignInAttempt.Story] at hstory ⊢
      cases hphase : (s.attempts a).phase <;> simp_all
  | advanced attempt h heq =>
      rw [heq]
      exact h.story hstory

theorem Moves.returned (h : s.Moves calls a s') (hreturned : (s.attempts a).Returned) :
    (s'.attempts a).Returned := by
  cases h with
  | same heq =>
      rw [heq]
      exact hreturned
  | heard _ _ _ heq =>
      rw [heq]
      exact hreturned
  | advanced attempt h heq =>
      rw [heq]
      exact h.returned hreturned

end

variable {A : Type} [DecidableEq A] {calls : SignInCalls A} {s s' : AuthLifecycle A}
  {action : SignInAction A} {a b : A}

theorem effect_of_channelClosed (h : s.channelClosed a = some s') :
    s.Effect calls (.channelClosed a) s' := by
  rw [channelClosed] at h
  split at h
  · next hphase hrx =>
    split_ifs at h
    obtain rfl := Option.some.inj h
    refine .advanced _ a _ rfl (SignInAttempt.advances_finish (by simp [hphase])
      (by simp [SignInAttempt.Returned, hphase]) rfl (fun _ ↦ Or.inl) fun hstory ↦ ?_)
    simp only [SignInAttempt.Story, hphase] at hstory
    rw [hstory.1, hstory.2.1, hstory.2.2]
    exact .unsent
  · cases h

theorem effect_of_acceptCallback {query : CallbackQuery} {found : Option ℕ}
    (h : s.acceptCallback query found = some s') :
    s.Effect calls (.acceptCallback query found) s' := by
  unfold acceptCallback at h
  split at h
  · obtain rfl := Option.some.inj h
    exact .answered query _ _ rfl
  · split_ifs at h <;> obtain rfl := Option.some.inj h <;> exact .answered query _ _ rfl
  · next state generation hstate =>
    obtain ⟨transaction, hlookup, h⟩ := Option.bind_eq_some_iff.mp h
    split_ifs at h with hcsrf
    split at h <;> obtain rfl := Option.some.inj h
    · exact .answered query _ _ rfl
    · next a hsender _ =>
      exact .taken query generation transaction a hlookup (hcsrf ▸ hstate) hsender

theorem effect_of_send {callback : PendingCallback A} (h : s.send callback = some s') :
    s.Effect calls (.send callback) s' := by
  rw [send] at h
  split_ifs at h with hmem
  dsimp only at h
  split at h <;> obtain rfl := Option.some.inj h
  · next hrx => exact .accepted callback hmem hrx
  · exact .closed callback hmem

/-- Every step has one of the effects. -/
theorem effect_of_step (h : s.step calls action = some s') : s.Effect calls action s' := by
  cases action with
  | begin a =>
      simp only [step, begin] at h
      split at h
      · next hidle =>
        obtain rfl := Option.some.inj h
        exact .began a hidle
      · cases h
  | attempt a action =>
      obtain ⟨attempt, hattempt, rfl⟩ := Option.map_eq_some_iff.mp h
      exact .advanced _ a attempt rfl (SignInAttempt.step_advances hattempt)
  | channelClosed a => exact effect_of_channelClosed h
  | clearGeneration a =>
      obtain ⟨attempt, hattempt, rfl⟩ := Option.map_eq_some_iff.mp h
      exact .cleared a attempt (SignInAttempt.cleared_advances hattempt)
  | acceptCallback query found => exact effect_of_acceptCallback h
  | send callback => exact effect_of_send h

/-! ## The invariant -/

/-- The callbacks that hold a sender of the attempt. -/
def carriers (s : AuthLifecycle A) (a : A) : ℕ :=
  s.pending.countP fun callback ↦ callback.callbackTx == a

structure Inv (calls : SignInCalls A) (s : AuthLifecycle A) : Prop where
  story : ∀ a, (s.attempts a).Story (calls.username a) (calls.pkceVerifier a)
  heard : ∀ a signal, .received signal ∈ (s.attempts a).events ∨
    (s.attempts a).callbackRx = .sent signal → s.Signalled calls a signal
  bounded : ∀ a, s.Begun a → (s.attempts a).generation ≤ s.nextGeneration
  apart : ∀ a b, s.Begun a → s.Begun b → (s.attempts a).generation = (s.attempts b).generation →
    a = b
  entry : ∀ generation transaction, s.active.lookup generation = some transaction →
    ∃ a, s.Begun a ∧ (s.attempts a).generation = generation ∧
      transaction.csrfToken = calls.csrfToken a ∧ ∀ b ∈ transaction.callbackTx, b = a
  carried : ∀ callback ∈ s.pending, s.Begun callback.callbackTx ∧
    callback.query.state = some (calls.csrfToken callback.callbackTx)
  known : ∀ answer ∈ s.answers, answer.2.isAccepted →
    ∃ a, s.Begun a ∧ answer.1.state = some (calls.csrfToken a)
  inTable : ∀ a generation transaction, s.active.lookup generation = some transaction →
    transaction.callbackTx = some a → s.carriers a + s.acceptances (calls.csrfToken a) = 0
  once : ∀ a, s.carriers a + s.acceptances (calls.csrfToken a) ≤ 1

theorem inv_initial (calls : SignInCalls A) : (initial : AuthLifecycle A).Inv calls where
  story _ := ⟨rfl, rfl, rfl⟩
  heard _ _ h := by rcases h with h | h <;> cases h
  bounded _ h := absurd rfl h
  apart _ _ h := absurd rfl h
  entry _ _ h := by cases h
  carried _ h := by cases h
  known _ h := by cases h
  inTable _ _ _ h := by cases h
  once _ := Nat.zero_le 1

theorem Effect.moves (h : s.Effect calls action s') (hs : s.Inv calls) (b : A) :
    (action = .begin b ∧ s.Begins b s') ∨ s.Moves calls b s' := by
  cases h with
  | began a hidle =>
      by_cases hab : b = a
      · subst hab
        exact Or.inl ⟨rfl, hidle, Function.update_self .., rfl⟩
      · exact Or.inr (.same (Function.update_of_ne hab ..))
  | advanced _ a attempt _ h =>
      by_cases hab : b = a
      · subst hab
        exact Or.inr (.advanced attempt h (Function.update_self ..))
      · exact Or.inr (.same (Function.update_of_ne hab ..))
  | cleared a attempt h =>
      by_cases hab : b = a
      · subst hab
        exact Or.inr (.advanced attempt h (Function.update_self ..))
      · exact Or.inr (.same (Function.update_of_ne hab ..))
  | answered _ _ _ _ => exact Or.inr (.same rfl)
  | taken _ _ _ _ _ _ _ => exact Or.inr (.same rfl)
  | accepted callback hmem hrx =>
      by_cases hab : b = callback.callbackTx
      · subst hab
        refine Or.inr (.heard callback.query.signal hrx
          ⟨callback.query, ?_, (hs.carried _ hmem).2, rfl⟩ (Function.update_self ..))
        exact List.mem_append_right _ (List.mem_singleton_self _)
      · exact Or.inr (.same (Function.update_of_ne hab ..))
  | closed _ _ => exact Or.inr (.same rfl)

/-- An attempt that has begun stays so, and keeps its generation. -/
theorem Effect.begun (h : s.Effect calls action s') (hs : s.Inv calls) (ha : s.Begun a) :
    s'.Begun a ∧ (s'.attempts a).generation = (s.attempts a).generation := by
  rcases h.moves hs a with ⟨-, hbegins⟩ | hmoves
  · exact absurd hbegins.idle ha
  · exact ⟨hmoves.kept.1.mpr ha, hmoves.kept.2⟩

theorem Effect.nextGeneration_le (h : s.Effect calls action s') :
    s.nextGeneration ≤ s'.nextGeneration := by
  cases h with
  | began _ _ => exact Nat.le_succ _
  | _ => exact le_rfl

/-- What is accepted comes from a callback with the state of an attempt that listens. -/
theorem Effect.answers (h : s.Effect calls action s') (hs : s.Inv calls) :
    ∃ new, s'.answers = s.answers ++ new ∧ ∀ answer ∈ new, answer.2.isAccepted →
      ∃ a, s.Begun a ∧ (s.attempts a).callbackRx = .empty ∧
        answer.1.state = some (calls.csrfToken a) := by
  cases h with
  | answered query found result hresult =>
      refine ⟨[(query, result)], rfl, fun answer hanswer haccepted ↦ ?_⟩
      obtain rfl := List.mem_singleton.mp hanswer
      rw [hresult] at haccepted
      cases haccepted
  | accepted callback hmem hrx =>
      refine ⟨[_], rfl, fun answer hanswer _ ↦ ?_⟩
      obtain rfl := List.mem_singleton.mp hanswer
      exact ⟨_, (hs.carried _ hmem).1, hrx, (hs.carried _ hmem).2⟩
  | closed callback hmem =>
      refine ⟨[_], rfl, fun answer hanswer haccepted ↦ ?_⟩
      obtain rfl := List.mem_singleton.mp hanswer
      cases haccepted
  | _ => exact ⟨[], (List.append_nil _).symm, fun _ h ↦ absurd h List.not_mem_nil⟩

theorem Effect.signalled (h : s.Effect calls action s') (hs : s.Inv calls)
    {signal : CallbackSignal} (hsignal : s.Signalled calls a signal) :
    s'.Signalled calls a signal := by
  obtain ⟨new, hnew, -⟩ := h.answers hs
  obtain ⟨query, hmem, hquery⟩ := hsignal
  refine ⟨query, ?_, hquery⟩
  rw [hnew]
  exact List.mem_append_left _ hmem

/-- Where the entries of the table come from. -/
theorem Effect.lookup (h : s.Effect calls action s') {generation : ℕ}
    {transaction : AuthTransaction A}
    (hlookup : s'.active.lookup generation = some transaction) :
    (∃ a, s.Begins a s' ∧ generation = s.nextGeneration + 1 ∧
        transaction = ⟨calls.csrfToken a, some a⟩) ∨
      s.active.lookup generation = some transaction ∨
        (∃ before, s.active.lookup generation = some before ∧
          transaction = { before with callbackTx := none }) := by
  cases h with
  | began a hidle =>
      by_cases hgeneration : generation = s.nextGeneration + 1
      · subst hgeneration
        rw [AList.lookup_insert] at hlookup
        exact Or.inl ⟨a, ⟨hidle, Function.update_self .., rfl⟩, rfl,
          (Option.some.inj hlookup).symm⟩
      · rw [AList.lookup_insert_ne hgeneration] at hlookup
        exact Or.inr (Or.inl hlookup)
  | cleared a attempt _ =>
      by_cases hgeneration : generation = (s.attempts a).generation
      · subst hgeneration
        rw [AList.lookup_erase] at hlookup
        cases hlookup
      · rw [AList.lookup_erase_ne hgeneration] at hlookup
        exact Or.inr (Or.inl hlookup)
  | taken query taken before a hbefore _ _ =>
      by_cases hgeneration : generation = taken
      · subst hgeneration
        rw [AList.lookup_insert] at hlookup
        exact Or.inr (Or.inr ⟨before, hbefore, (Option.some.inj hlookup).symm⟩)
      · rw [AList.lookup_insert_ne hgeneration] at hlookup
        exact Or.inr (Or.inl hlookup)
  | _ => exact Or.inr (Or.inl hlookup)

theorem Effect.heard (h : s.Effect calls action s') (hs : s.Inv calls) {signal : CallbackSignal}
    (hheard : .received signal ∈ (s'.attempts a).events ∨
      (s'.attempts a).callbackRx = .sent signal) : s'.Signalled calls a signal := by
  rcases h.moves hs a with ⟨-, hbegins⟩ | hmoves
  · rw [hbegins.attempt] at hheard
    rcases hheard with hevents | hrx
    · exact h.signalled hs (hs.heard a signal (Or.inl hevents))
    · cases hrx
  · cases hmoves with
    | same heq =>
        rw [heq] at hheard
        exact h.signalled hs (hs.heard a signal hheard)
    | heard sent hrx hsignal heq =>
        rw [heq] at hheard
        rcases hheard with hevents | hrx'
        · exact h.signalled hs (hs.heard a signal (Or.inl hevents))
        · obtain rfl := CallbackRx.sent.inj hrx'
          exact hsignal
    | advanced attempt hadvances heq =>
        rw [heq] at hheard
        rcases hheard with hevents | hrx
        · exact h.signalled hs (hs.heard a signal (hadvances.heard signal hevents))
        · rcases hadvances.callbackRx with hsame | hdropped
          · exact h.signalled hs (hs.heard a signal (Or.inr (hsame ▸ hrx)))
          · rw [hdropped] at hrx
            cases hrx

theorem Effect.bounded (h : s.Effect calls action s') (hs : s.Inv calls) (ha : s'.Begun a) :
    (s'.attempts a).generation ≤ s'.nextGeneration := by
  rcases h.moves hs a with ⟨-, hbegins⟩ | hmoves
  · rw [hbegins.attempt, hbegins.nextGeneration]
  · rw [hmoves.kept.2]
    exact (hs.bounded a (hmoves.kept.1.mp ha)).trans h.nextGeneration_le

theorem Effect.apart (h : s.Effect calls action s') (hs : s.Inv calls) (ha : s'.Begun a)
    (hb : s'.Begun b) (hgeneration : (s'.attempts a).generation = (s'.attempts b).generation) :
    a = b := by
  rcases h.moves hs a with ⟨haction, hbegins⟩ | hmoves
  · rcases h.moves hs b with ⟨haction', -⟩ | hmoves'
    · exact SignInAction.begin.inj (haction.symm.trans haction')
    · have hbound := hs.bounded b (hmoves'.kept.1.mp hb)
      rw [hbegins.attempt, hmoves'.kept.2] at hgeneration
      dsimp only at hgeneration
      omega
  · have hbound := hs.bounded a (hmoves.kept.1.mp ha)
    rcases h.moves hs b with ⟨-, hbegins⟩ | hmoves'
    · rw [hbegins.attempt, hmoves.kept.2] at hgeneration
      dsimp only at hgeneration
      omega
    · rw [hmoves.kept.2, hmoves'.kept.2] at hgeneration
      exact hs.apart a b (hmoves.kept.1.mp ha) (hmoves'.kept.1.mp hb) hgeneration

theorem Effect.entry (h : s.Effect calls action s') (hs : s.Inv calls) {generation : ℕ}
    {transaction : AuthTransaction A}
    (hlookup : s'.active.lookup generation = some transaction) :
    ∃ a, s'.Begun a ∧ (s'.attempts a).generation = generation ∧
      transaction.csrfToken = calls.csrfToken a ∧ ∀ b ∈ transaction.callbackTx, b = a := by
  rcases h.lookup hlookup with ⟨a, hbegins, rfl, rfl⟩ | hbefore | ⟨before, hbefore, rfl⟩
  · refine ⟨a, hbegins.begun, ?_, rfl, fun b hb ↦ (Option.some.inj hb).symm⟩
    rw [hbegins.attempt]
  · obtain ⟨a, hbegun, hgeneration, hcsrf, htx⟩ := hs.entry _ _ hbefore
    obtain ⟨hbegun', hsame⟩ := h.begun hs hbegun
    exact ⟨a, hbegun', hsame.trans hgeneration, hcsrf, htx⟩
  · obtain ⟨a, hbegun, hgeneration, hcsrf, -⟩ := hs.entry _ _ hbefore
    obtain ⟨hbegun', hsame⟩ := h.begun hs hbegun
    exact ⟨a, hbegun', hsame.trans hgeneration, hcsrf, fun b hb ↦ by cases hb⟩

theorem Effect.carried (h : s.Effect calls action s') (hs : s.Inv calls)
    {callback : PendingCallback A} (hmem : callback ∈ s'.pending) :
    s'.Begun callback.callbackTx ∧
      callback.query.state = some (calls.csrfToken callback.callbackTx) := by
  have hbefore : s.Begun callback.callbackTx ∧
      callback.query.state = some (calls.csrfToken callback.callbackTx) := by
    cases h with
    | taken query generation transaction a hlookup hstate hsender =>
        rcases List.mem_append.mp hmem with hmem | hmem
        · exact hs.carried _ hmem
        · obtain rfl := List.mem_singleton.mp hmem
          obtain ⟨owner, hbegun, -, hcsrf, htx⟩ := hs.entry _ _ hlookup
          obtain rfl := htx a hsender
          exact ⟨hbegun, hstate.trans (congrArg some hcsrf)⟩
    | accepted _ _ _ => exact hs.carried _ (List.mem_of_mem_erase hmem)
    | closed _ _ => exact hs.carried _ (List.mem_of_mem_erase hmem)
    | _ => exact hs.carried _ hmem
  exact ⟨(h.begun hs hbefore.1).1, hbefore.2⟩

theorem Effect.known (h : s.Effect calls action s') (hs : s.Inv calls)
    {answer : CallbackQuery × CallbackResult} (hmem : answer ∈ s'.answers)
    (haccepted : answer.2.isAccepted) :
    ∃ a, s'.Begun a ∧ answer.1.state = some (calls.csrfToken a) := by
  obtain ⟨new, hnew, hall⟩ := h.answers hs
  rw [hnew] at hmem
  rcases List.mem_append.mp hmem with hmem | hmem
  · obtain ⟨a, hbegun, hstate⟩ := hs.known _ hmem haccepted
    exact ⟨a, (h.begun hs hbegun).1, hstate⟩
  · obtain ⟨a, hbegun, -, hstate⟩ := hall _ hmem haccepted
    exact ⟨a, (h.begun hs hbegun).1, hstate⟩

/-! ## Senders -/

omit [DecidableEq A] in
theorem acceptances_answer (s : AuthLifecycle A) (query : CallbackQuery) (result : CallbackResult)
    (state : String) :
    (s.answer query result).acceptances state = s.acceptances state +
      if query.state = some state ∧ result.isAccepted then 1 else 0 := by
  rw [acceptances, answer, List.countP_append, List.countP_singleton]
  simp [acceptances]

theorem carriers_erase {callback : PendingCallback A} (hmem : callback ∈ s.pending) (a : A) :
    s.carriers a = (s.pending.erase callback).countP (fun other ↦ other.callbackTx == a) +
      if callback.callbackTx = a then 1 else 0 := by
  rw [carriers, (List.perm_cons_erase hmem).countP_eq, List.countP_cons]
  simp

/-- The sender of an attempt is not used twice: it is used when it leaves the table. -/
theorem Effect.spent (hdistinct : Function.Injective calls.csrfToken)
    (h : s.Effect calls action s') (hs : s.Inv calls) (b : A) :
    s'.carriers b + s'.acceptances (calls.csrfToken b) ≤
        s.carriers b + s.acceptances (calls.csrfToken b) ∨
      ∃ generation transaction, s.active.lookup generation = some transaction ∧
        transaction.callbackTx = some b ∧
        s'.active.lookup generation = some { transaction with callbackTx := none } ∧
        s'.carriers b + s'.acceptances (calls.csrfToken b) =
          s.carriers b + s.acceptances (calls.csrfToken b) + 1 := by
  cases h with
  | answered query found result hresult =>
      left
      rw [acceptances_answer, if_neg (by simp [hresult])]
      exact le_rfl
  | taken query generation transaction a hlookup hstate hsender =>
      by_cases hab : a = b
      · subst hab
        refine Or.inr ⟨generation, transaction, hlookup, hsender, AList.lookup_insert _, ?_⟩
        simp only [carriers, acceptances, List.countP_append, List.countP_singleton, beq_self_eq_true,
          if_true]
        omega
      · left
        simp [carriers, acceptances, List.countP_append, hab]
  | accepted callback hmem hrx =>
      left
      have hstate := (hs.carried _ hmem).2
      have haccepted : callback.query.signal.acceptedResult.isAccepted = true := by
        cases callback.query.signal <;> rfl
      rw [acceptances_answer, carriers_erase hmem b, hstate]
      have hsame : (some (calls.csrfToken callback.callbackTx) = some (calls.csrfToken b) ∧
          callback.query.signal.acceptedResult.isAccepted = true) ↔
            callback.callbackTx = b := by
        rw [haccepted, Option.some.injEq, hdistinct.eq_iff]
        exact and_iff_left rfl
      simp only [hsame]
      change (s.pending.erase callback).countP _ + (s.acceptances _ + _) ≤ _
      omega
  | closed callback hmem =>
      left
      rw [acceptances_answer, if_neg (by simp [CallbackResult.isAccepted]), carriers_erase hmem b]
      change (s.pending.erase callback).countP _ + (s.acceptances _ + 0) ≤ _
      omega
  | _ => exact Or.inl le_rfl

/-- No callback has reached an attempt before it begins. -/
theorem Inv.unused (hdistinct : Function.Injective calls.csrfToken) (hs : s.Inv calls)
    (hidle : ¬ s.Begun a) : s.carriers a + s.acceptances (calls.csrfToken a) = 0 := by
  have hcarriers : s.carriers a = 0 := by
    refine List.countP_eq_zero.mpr fun callback hmem htx ↦ hidle ?_
    rw [← beq_iff_eq.mp htx]
    exact (hs.carried _ hmem).1
  have hacceptances : s.acceptances (calls.csrfToken a) = 0 := by
    refine List.countP_eq_zero.mpr fun answer hmem hanswer ↦ hidle ?_
    rw [Bool.and_eq_true, beq_iff_eq] at hanswer
    obtain ⟨b, hbegun, hstate⟩ := hs.known _ hmem hanswer.2
    rw [hanswer.1, Option.some.injEq] at hstate
    rw [hdistinct hstate]
    exact hbegun
  omega

theorem Effect.inTable (hdistinct : Function.Injective calls.csrfToken)
    (h : s.Effect calls action s') (hs : s.Inv calls) {generation : ℕ}
    {transaction : AuthTransaction A}
    (hlookup : s'.active.lookup generation = some transaction)
    (hsender : transaction.callbackTx = some a) :
    s'.carriers a + s'.acceptances (calls.csrfToken a) = 0 := by
  rcases h.lookup hlookup with ⟨b, hbegins, rfl, rfl⟩ | hbefore | ⟨before, hbefore, rfl⟩
  · obtain rfl := Option.some.inj hsender
    have hidle : ¬ s.Begun b := not_not.mpr hbegins.idle
    have hunused := hs.unused hdistinct hidle
    rcases h.spent hdistinct hs b with hle | ⟨_, taken, htaken, htx, -⟩
    · omega
    · obtain ⟨owner, hbegun, -, -, howner⟩ := hs.entry _ _ htaken
      rw [howner b htx] at hidle
      exact absurd hbegun hidle
  · have hunused := hs.inTable a _ _ hbefore hsender
    rcases h.spent hdistinct hs a with hle | ⟨_, taken, htaken, htx, htaken', -⟩
    · omega
    · obtain ⟨owner, -, hgeneration, -, howner⟩ := hs.entry _ _ htaken
      obtain ⟨owner', -, hgeneration', -, howner'⟩ := hs.entry _ _ hbefore
      rw [← howner a htx] at hgeneration
      rw [← howner' a hsender, hgeneration] at hgeneration'
      subst hgeneration'
      rw [hlookup] at htaken'
      rw [Option.some.inj htaken'] at hsender
      cases hsender
  · cases hsender

theorem Effect.once (hdistinct : Function.Injective calls.csrfToken)
    (h : s.Effect calls action s') (hs : s.Inv calls) (a : A) :
    s'.carriers a + s'.acceptances (calls.csrfToken a) ≤ 1 := by
  have honce := hs.once a
  rcases h.spent hdistinct hs a with hle | ⟨generation, taken, htaken, htx, -, hone⟩
  · omega
  · have hunused := hs.inTable a _ _ htaken htx
    omega

theorem Effect.inv (hdistinct : Function.Injective calls.csrfToken)
    (h : s.Effect calls action s') (hs : s.Inv calls) : s'.Inv calls where
  story a := by
    rcases h.moves hs a with ⟨-, hbegins⟩ | hmoves
    · exact hbegins.story (hs.story a)
    · exact hmoves.story (hs.story a)
  heard _ _ := h.heard hs
  bounded _ := h.bounded hs
  apart _ _ := h.apart hs
  entry _ _ := h.entry hs
  carried _ := h.carried hs
  known _ := h.known hs
  inTable _ _ _ := h.inTable hdistinct hs
  once := h.once hdistinct hs

theorem inv_invariant (hdistinct : Function.Injective calls.csrfToken) :
    (signInMachine calls).Invariant (fun _ _ ↦ True) fun s ↦ s.Inv calls where
  init h := h ▸ inv_initial calls
  step hs _ hstep := (effect_of_step hstep).inv hdistinct hs

end AuthLifecycle

end EnCroissant
