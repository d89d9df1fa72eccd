import EnCroissant.Error
import EnCroissant.Library.Machine
import EnCroissant.Accounts.ChessCom

/-!
# Sign-in attempts

Every attempt registers the state of its link and waits for the callback that
carries it.  A callback takes the sender of the attempt under the lock of the
table and uses it afterwards.  The steps of attempts and callbacks alternate in
any order; what the provider and the store answer comes with the steps.
-/

namespace EnCroissant

structure CallbackQuery where
  code : Option String
  state : Option String
  error : Option String
  deriving DecidableEq

inductive CallbackSignal where
  | code (code : String)
  | rejected
  deriving DecidableEq

inductive CallbackResult where
  | acceptedCode
  | acceptedRejection
  | mismatch
  | missing
  | closed
  deriving DecidableEq

def CallbackQuery.signal (query : CallbackQuery) : CallbackSignal :=
  match query.code with
  | some code => if query.error.isNone then .code code else .rejected
  | none => .rejected

def CallbackSignal.acceptedResult : CallbackSignal → CallbackResult
  | .code _ => .acceptedCode
  | .rejected => .acceptedRejection

def CallbackResult.isAccepted : CallbackResult → Bool
  | .acceptedCode | .acceptedRejection => true
  | _ => false

def oauthFailure : Except Error Unit := .error (.oauthFailure "OAuth authentication failed")

/-! ## One attempt -/

/-- The receiving end of the channel of an attempt. -/
inductive CallbackRx where
  | empty
  | sent (signal : CallbackSignal)
  | dropped
  deriving DecidableEq

/-- What an attempt hears and asks for. -/
inductive AuthEvent where
  | received (signal : CallbackSignal)
  | exchangeCode (code verifier : String)
  | issued (token : String)
  | verified (token name : String)
  /-- `emit_token` took the token. -/
  | emitted (token : String)
  | refused (token : String)
  | revokeToken (token : String)
  | stored (token : String)
  | storeFailed (token : String)
  deriving DecidableEq

inductive AuthPhase where
  | idle
  | begun
  /-- The listener did not start. -/
  | refused
  | returning
  | listening
  | waiting
  | exchanging
  | verifying (token : String)
  /-- Waiting for the listener to shut down. -/
  | draining (result : Except Error Unit)
  | clearing (result : Except Error Unit)
  | revoking (result : Except Error Unit)
  /-- `authenticate_internal` has returned. -/
  | ended (result : Except Error Unit)
  /-- The job is complete. -/
  | completed (succeeded : Bool)

structure SignInAttempt where
  phase : AuthPhase := .idle
  generation : ℕ := 0
  callbackRx : CallbackRx := .dropped
  issuedToken : Option String := none
  stashedToken : Option String := none
  events : List AuthEvent := []

namespace SignInAttempt

/-- `authenticate_after_listener` is over, and its receiver is dropped. -/
def finish (attempt : SignInAttempt) (result : Except Error Unit) : SignInAttempt :=
  { attempt with phase := .draining result, callbackRx := .dropped }

def log (attempt : SignInAttempt) (events : List AuthEvent) : SignInAttempt :=
  { attempt with events := attempt.events ++ events }

def startListener (attempt : SignInAttempt) (started : Bool) : Option SignInAttempt :=
  match attempt.phase with
  | .begun => some { attempt with phase := if started then .listening else .refused }
  | _ => none

/-- The client is set up and the browser opened, or one of them fails. -/
def openBrowser (attempt : SignInAttempt) (opened : Bool) : Option SignInAttempt :=
  match attempt.phase with
  | .listening =>
      if opened then some { attempt with phase := .waiting } else some (attempt.finish oauthFailure)
  | _ => none

def serverStopped (attempt : SignInAttempt) : Option SignInAttempt :=
  match attempt.phase with
  | .waiting => some (attempt.finish oauthFailure)
  | _ => none

/-- A code is exchanged as soon as it is received. -/
def receive (verifier : String) (attempt : SignInAttempt) : Option SignInAttempt :=
  match attempt.phase, attempt.callbackRx with
  | .waiting, .sent (.code code) =>
      some ({ attempt with phase := .exchanging, callbackRx := .dropped }.log
        [.received (.code code), .exchangeCode code verifier])
  | .waiting, .sent .rejected =>
      some ((attempt.log [.received .rejected]).finish oauthFailure)
  | _, _ => none

def exchanged (attempt : SignInAttempt) (token : Option String) : Option SignInAttempt :=
  match attempt.phase, token with
  | .exchanging, some token =>
      some ({ attempt with phase := .verifying token, issuedToken := some token }.log
        [.issued token])
  | .exchanging, none => some (attempt.finish oauthFailure)
  | _, _ => none

/-- The identity is verified, and where it matches the token is emitted. -/
def verified (username : String) (attempt : SignInAttempt) (name : Option String) (taken : Bool) :
    Option SignInAttempt :=
  match attempt.phase, name with
  | .verifying token, some name =>
      let attempt := attempt.log [.verified token name]
      if eqIgnoreAsciiCase name username then
        if taken then
          some (({ attempt with issuedToken := none, stashedToken := some token }.log
            [.emitted token]).finish (.ok ()))
        else some ((attempt.log [.refused token]).finish oauthFailure)
      else some (attempt.finish oauthFailure)
  | .verifying _, none => some (attempt.finish oauthFailure)
  | _, _ => none

/-- The deadline drops what is awaited. -/
def timeout (attempt : SignInAttempt) : Option SignInAttempt :=
  match attempt.phase with
  | .waiting | .exchanging | .verifying _ => some (attempt.finish oauthFailure)
  | _ => none

def shutdownListener (attempt : SignInAttempt) : Option SignInAttempt :=
  match attempt.phase with
  | .draining result => some { attempt with phase := .clearing result }
  | _ => none

/-- The generation is cleared; a token that is left is given to `revoke_token`. -/
def cleared (attempt : SignInAttempt) : Option SignInAttempt :=
  match attempt.phase, attempt.issuedToken with
  | .refused, _ => some { attempt with phase := .returning }
  | .clearing result, some token =>
      some ({ attempt with phase := .revoking result, issuedToken := none }.log
        [.revokeToken token])
  | .clearing result, none => some { attempt with phase := .ended result }
  | _, _ => none

def leave (attempt : SignInAttempt) : Option SignInAttempt :=
  match attempt.phase with
  | .returning => some { attempt with phase := .ended oauthFailure, callbackRx := .dropped }
  | .revoking result => some { attempt with phase := .ended result }
  | _ => none

/-- `persist_stashed_lichess_token`, after an attempt that succeeded. -/
def persist (attempt : SignInAttempt) (stored : Bool) : Option SignInAttempt :=
  match attempt.phase, attempt.stashedToken with
  | .ended (.ok ()), some token =>
      let attempt := { attempt with stashedToken := none }
      if stored then some ({ attempt with phase := .completed true }.log [.stored token])
      else
        some ({ attempt with phase := .completed false }.log
          [.storeFailed token, .revokeToken token])
  | .ended _, _ => some { attempt with phase := .completed false }
  | _, _ => none

end SignInAttempt

/-- A step of an attempt that concerns nothing else. -/
inductive SignInAttemptAction where
  | startListener (started : Bool)
  | openBrowser (opened : Bool)
  | serverStopped
  | receive
  | exchanged (token : Option String)
  | verified (name : Option String) (taken : Bool)
  | timeout
  | shutdownListener
  | leave
  | persist (stored : Bool)

def SignInAttempt.step (username verifier : String) (attempt : SignInAttempt) :
    SignInAttemptAction → Option SignInAttempt
  | .startListener started => attempt.startListener started
  | .openBrowser opened => attempt.openBrowser opened
  | .serverStopped => attempt.serverStopped
  | .receive => attempt.receive verifier
  | .exchanged token => attempt.exchanged token
  | .verified name taken => attempt.verified username name taken
  | .timeout => attempt.timeout
  | .shutdownListener => attempt.shutdownListener
  | .leave => attempt.leave
  | .persist stored => attempt.persist stored

/-! ## All attempts -/

structure AuthTransaction (A : Type) where
  csrfToken : String
  /-- The attempt that the sender belongs to, until a callback takes the sender. -/
  callbackTx : Option A

/-- What the calls are made with, and the tokens they draw. -/
structure SignInCalls (A : Type) where
  username : A → String
  csrfToken : A → String
  pkceVerifier : A → String

/-- A callback that has taken the sender of an attempt. -/
structure PendingCallback (A : Type) where
  query : CallbackQuery
  callbackTx : A
  deriving DecidableEq

structure AuthLifecycle (A : Type) where
  active : AList fun _ : ℕ ↦ AuthTransaction A
  nextGeneration : ℕ
  attempts : A → SignInAttempt
  pending : List (PendingCallback A)
  answers : List (CallbackQuery × CallbackResult)

inductive SignInAction (A : Type) where
  | begin (a : A)
  | attempt (a : A) (action : SignInAttemptAction)
  | channelClosed (a : A)
  | clearGeneration (a : A)
  /-- A callback finds the entry of this generation, or none. -/
  | acceptCallback (query : CallbackQuery) (found : Option ℕ)
  | send (callback : PendingCallback A)

/-- The attempt that takes the step. -/
def SignInAction.attempt? {A : Type} : SignInAction A → Option A
  | .begin a => some a
  | .attempt a _ => some a
  | .channelClosed a => some a
  | .clearGeneration a => some a
  | .acceptCallback _ _ => none
  | .send _ => none

namespace AuthLifecycle

variable {A : Type} [DecidableEq A]

def setAttempt (s : AuthLifecycle A) (a : A) (attempt : SignInAttempt) : AuthLifecycle A :=
  { s with attempts := Function.update s.attempts a attempt }

def answer (s : AuthLifecycle A) (query : CallbackQuery) (result : CallbackResult) :
    AuthLifecycle A :=
  { s with answers := s.answers ++ [(query, result)] }

def begin (calls : SignInCalls A) (s : AuthLifecycle A) (a : A) : Option (AuthLifecycle A) :=
  match (s.attempts a).phase with
  | .idle =>
      let generation := s.nextGeneration + 1
      some { s.setAttempt a { s.attempts a with
                phase := .begun, generation := generation, callbackRx := .empty } with
              active := s.active.insert generation ⟨calls.csrfToken a, some a⟩
              nextGeneration := generation }
  | _ => none

def clearGeneration (s : AuthLifecycle A) (a : A) : Option (AuthLifecycle A) :=
  (s.attempts a).cleared.map fun attempt ↦
    { s.setAttempt a attempt with active := s.active.erase (s.attempts a).generation }

/-- The sender of an attempt is in the table or with a callback. -/
def hasSender (s : AuthLifecycle A) (a : A) : Bool :=
  ((s.active.lookup (s.attempts a).generation).bind AuthTransaction.callbackTx == some a) ||
    s.pending.any fun callback ↦ callback.callbackTx == a

def channelClosed (s : AuthLifecycle A) (a : A) : Option (AuthLifecycle A) :=
  match (s.attempts a).phase, (s.attempts a).callbackRx with
  | .waiting, .empty =>
      if s.hasSender a then none
      else some (s.setAttempt a ((s.attempts a).finish oauthFailure))
  | _, _ => none

/-- The critical section of `accept_callback`. -/
def acceptCallback (s : AuthLifecycle A) (query : CallbackQuery) (found : Option ℕ) :
    Option (AuthLifecycle A) :=
  match query.state, found with
  | none, _ => some (s.answer query .mismatch)
  | some state, none =>
      if s.active.entries.any fun entry ↦ entry.2.csrfToken == state then none
      else if s.active.entries.isEmpty then some (s.answer query .missing)
      else some (s.answer query .mismatch)
  | some state, some generation =>
      (s.active.lookup generation).bind fun transaction ↦
        if transaction.csrfToken = state then
          match transaction.callbackTx with
          | none => some (s.answer query .closed)
          | some a =>
              some { s with
                active := s.active.insert generation { transaction with callbackTx := none }
                pending := s.pending ++ [⟨query, a⟩] }
        else none

/-- The sender is used, and the callback answered. -/
def send (s : AuthLifecycle A) (callback : PendingCallback A) : Option (AuthLifecycle A) :=
  if callback ∈ s.pending then
    let a := callback.callbackTx
    let query := callback.query
    let s := { s with pending := s.pending.erase callback }
    match (s.attempts a).callbackRx with
    | .empty =>
        some ((s.setAttempt a { s.attempts a with callbackRx := .sent query.signal }).answer query
          query.signal.acceptedResult)
    | _ => some (s.answer query .closed)
  else none

def step (calls : SignInCalls A) (s : AuthLifecycle A) : SignInAction A → Option (AuthLifecycle A)
  | .begin a => s.begin calls a
  | .attempt a action =>
      ((s.attempts a).step (calls.username a) (calls.pkceVerifier a) action).map (s.setAttempt a)
  | .channelClosed a => s.channelClosed a
  | .clearGeneration a => s.clearGeneration a
  | .acceptCallback query found => s.acceptCallback query found
  | .send callback => s.send callback

/-- No call was made yet. -/
def initial : AuthLifecycle A := ⟨∅, 0, fun _ ↦ {}, [], []⟩

end AuthLifecycle

def signInMachine {A : Type} [DecidableEq A] (calls : SignInCalls A) :
    Machine (AuthLifecycle A) (SignInAction A) where
  init s := s = AuthLifecycle.initial
  step s action s' := s.step calls action = some s'

end EnCroissant
