import Yfs.Lock.System

/-!
# The invariant of the lock protocol

The state of the system does not say how far a client has come with the server: an entry
in state `ACQUIRING` may have asked, wait, or own the lock already. The invariant keeps that
beside the state, as the stage of each client (`Ghost`), and says what the stage means for the
client's entry, for its threads and for the server's entry.
-/

namespace Yfs.Lock

open Client (QueuingThread Wait)

/-- Where a client stands in the protocol. -/
inductive Stage where
  /-- the server has nothing to do with it -/
  | out
  /-- its first `acquire` request is on its way -/
  | asking
  /-- it is in `waitingClients` -/
  | waiting
  /-- it is `retryingClient`, and the `retry` call is in the activity `b` -/
  | retryWait (b : Thread)
  /-- it is `retryingClient` and `retry_handler` has run -/
  | notified
  /-- it is `retryingClient` and its second request is on its way -/
  | reasking
  /-- it is the owner, but the `OK` is on its way -/
  | granted
  /-- it is the owner and knows it -/
  | owner
  /-- it is the owner, and its `release` request is on its way in the activity `b` -/
  | returning (b : Thread)
  /-- its `release` was handled, the activity `b` has not come back yet -/
  | returned (b : Thread)
  deriving DecidableEq

namespace Stage

/-- The server's `owner`. -/
def IsOwner : Stage → Prop
  | granted | owner | returning _ => True
  | _ => False

theorem isOwner_iff {st : Stage} :
    st.IsOwner ↔ (st = granted ∨ st = owner) ∨ ∃ b, st = returning b := by
  cases st <;> simp [IsOwner]

/-- The server's `retryingClient`. -/
def IsRetrying : Stage → Prop
  | retryWait _ | notified | reasking => True
  | _ => False

/-- Its last request was, or will be, answered `RETRY`. -/
def Refused : Stage → Prop
  | waiting | retryWait _ | notified => True
  | _ => False

end Stage

/-- Where everybody stands, and the activity with the `revoke` call that has not
been executed, if there is one. -/
structure Ghost where
  stage : String → Stage := fun _ => .out
  rev : Option Thread := none

namespace Ghost

/-- Move a client to another stage. -/
def setStage (g : Ghost) (c : String) (st : Stage) : Ghost :=
  { g with stage := Function.update g.stage c st }

/-- Hand the pending `revoke` call over. -/
def setRev (g : Ghost) (r : Option Thread) : Ghost :=
  { g with rev := r }

@[simp, grind =] theorem setStage_stage (g : Ghost) (c x : String) (st : Stage) :
    (g.setStage c st).stage x = if x = c then st else g.stage x :=
  Function.update_apply ..

@[simp, grind =] theorem setStage_rev (g : Ghost) (c : String) (st : Stage) :
    (g.setStage c st).rev = g.rev := rfl

@[simp, grind =] theorem setRev_stage (g : Ghost) (r : Option Thread) (x : String) :
    (g.setRev r).stage x = g.stage x := rfl

@[simp, grind =] theorem setRev_rev (g : Ghost) (r : Option Thread) :
    (g.setRev r).rev = r := rfl

section Stages

variable {g : Ghost} {c : String} {st : Stage} {P : Stage → Prop} {A A' : String → Prop}

/-- Whose stage has a property, after one client moved to another stage. -/
theorem setStage_iff (h : ∀ x, P (g.stage x) ↔ A x) (hc : P st ↔ A' c)
    (hne : ∀ x, x ≠ c → (A' x ↔ A x)) (x : String) : P ((g.setStage c st).stage x) ↔ A' x := by
  rw [setStage_stage]
  split
  case isTrue hx => rw [hx, hc]
  case isFalse hx => rw [h x, hne x hx]

/-- The move makes no difference to a property that both stages have, or neither. -/
theorem setStage_same (h : P st ↔ P (g.stage c)) (x : String) :
    P ((g.setStage c st).stage x) ↔ P (g.stage x) :=
  setStage_iff (fun _ => Iff.rfl) h (fun _ _ => Iff.rfl) x

end Stages

end Ghost

/-- What the stage of a client says about its entry. -/
def EntryOk (entry : Option Client.LockEntry) : Stage → Prop
  | .out => ∀ e, entry = some e → e.state = .none ∧ e.message = .empty
  | .asking | .reasking | .waiting | .retryWait _ =>
    ∃ e, entry = some e ∧ e.state = .acquiring ∧ e.message = .empty ∧ e.threads ≠ []
  | .notified =>
    ∃ e, entry = some e ∧ e.state = .acquiring ∧ e.message = .retry ∧ e.threads ≠ []
  | .granted =>
    ∃ e, entry = some e ∧ e.state = .acquiring ∧ e.message ≠ .retry ∧ e.threads ≠ []
  | .owner =>
    ∃ e, entry = some e ∧
      (e.state = .locked ∧ e.message ≠ .retry ∧ e.threads ≠ [] ∨
        e.state = .free ∧ e.message = .empty ∧ e.threads = [])
  | .returning _ | .returned _ => ∃ e, entry = some e ∧ e.state = .releasing

/-- What a `release` call of client `x` in the activity `b` says about the stages. -/
def RelOk (g : Ghost) (b : Thread) (x : String) : RelPhase → Prop
  | .req => g.stage x = .returning b
  | .retryReq next => g.stage x = .returned b ∧ g.stage next = .retryWait b
  | .rep => g.stage x = .returned b

/-- What an `acquire` call of the activity `a` says about everybody else. -/
def AcqOk (s : Sys) (g : Ghost) (a : Thread) : AcqPhase → Prop
  | .req => g.stage a.client = .asking ∨ g.stage a.client = .reasking
  | .revSend => (g.stage a.client).Refused ∧ g.rev = some a
  | .revReq tgt .ok => g.stage a.client = .granted ∧ tgt = a.client ∧ g.rev = some a
  | .revReq tgt .retry =>
    (g.stage a.client).Refused ∧ tgt = (s.server.getD {}).owner ∧ g.rev = some a
  | .revRel tgt ret p =>
    ret = .retry ∧ (g.stage a.client).Refused ∧
      (∀ e, s.client tgt = some e → e.message = .empty) ∧ RelOk g a tgt p
  | .rep .ok => g.stage a.client = .granted
  | .rep .retry => (g.stage a.client).Refused

/-- What a thread of the client with entry `e` and stage `st` is doing. -/
def WaitOk (e : Client.LockEntry) (st : Stage) (n : QueuingThread) : Wait → Bool → Prop
  | .queued, false => n ∈ e.threads.tail ∧ e.threads.head? ≠ some n
  | .queued, true => e.threads.head? = some n ∧ (e.state = .locked ∨ e.state = .none)
  | .released, false => e.threads.head? = some n ∧ e.state = .releasing
  | .released, true => e.threads.head? = some n ∧ e.state = .none
  | .retry, false =>
    e.threads.head? = some n ∧ e.state = .acquiring ∧ (st = .waiting ∨ ∃ b, st = .retryWait b)
  | .retry, true => e.threads.head? = some n ∧ e.state = .acquiring ∧ st = .notified

/-- The invariant, for one thread. -/
def PcOk (s : Sys) (g : Ghost) (a : Thread) : Pc → Prop
  | .idle => True
  | .waiting w n b =>
    n.tid = a.tid ∧ ∃ e, s.client a.client = some e ∧ WaitOk e (g.stage a.client) n w b
  | .acquiring n p =>
    n.tid = a.tid ∧
      (∃ e, s.client a.client = some e ∧ e.threads.head? = some n ∧ e.state = .acquiring) ∧
      AcqOk s g a p
  | .releasing n p =>
    n.tid = a.tid ∧
      (∃ e, s.client a.client = some e ∧ e.threads.head? = some n ∧ e.state = .releasing ∧
      e.message = .revoke) ∧ RelOk g a a.client p

/-- The invariant, for the server's entry. -/
structure ServerOk (s : Sys) (g : Ghost) (se : Server.LockEntry) : Prop where
  owner_iff : ∀ c, (g.stage c).IsOwner ↔ c = se.owner ∧ c ≠ ""
  retrying_iff : ∀ c, (g.stage c).IsRetrying ↔ c = se.retryingClient ∧ c ≠ ""
  waiting_iff : ∀ c, g.stage c = .waiting ↔ c ∈ se.waitingClients
  waiting_ne : "" ∉ se.waitingClients
  none_ok : se.state = .none →
    se.owner = "" ∧ se.retryingClient = "" ∧ se.waitingClients = ∅
  locked_ok : se.state = .locked →
    se.owner ≠ "" ∧ se.retryingClient = "" ∧ se.waitingClients = ∅
  revoking_ok : se.state = .revoking →
    se.owner ≠ "" ∧ se.retryingClient = "" ∧ se.waitingClients.Nonempty
  retrying_ok : se.state = .retrying → se.owner = "" ∧ se.retryingClient ≠ ""
  rev_some : ∀ a, g.rev = some a → se.state = .revoking ∧
    (g.stage se.owner = .granted ∨ g.stage se.owner = .owner) ∧
    (∀ e, s.client se.owner = some e → e.message = .empty) ∧
    ∃ n p, s.pc a = .acquiring n p ∧ (p = .revSend ∨ ∃ ret, p = .revReq se.owner ret)
  rev_none : g.rev = none → se.state = .revoking →
    (∃ e, s.client se.owner = some e ∧ e.message = .revoke ∧
      (g.stage se.owner = .granted ∨ g.stage se.owner = .owner)) ∨
    ∃ b, g.stage se.owner = .returning b
  message_ok : ∀ c e, s.client c = some e → e.message = .revoke →
    g.stage c = .granted ∨ g.stage c = .owner → se.state = .revoking
  returning_ok : ∀ c b, g.stage c = .returning b →
    se.state = .revoking ∧ g.rev = none ∧ (s.pc b).release? b.client = some (c, .req)
  retryWait_ok : ∀ c b, g.stage c = .retryWait b →
    ∃ x, (s.pc b).release? b.client = some (x, .retryReq c)

/-- **The invariant** of the system, for one lock id. -/
structure Inv (s : Sys) (g : Ghost) : Prop where
  named : ∀ a, s.pc a ≠ .idle → a.client ≠ ""
  entry : ∀ c, EntryOk (s.client c) (g.stage c)
  pc : ∀ a, PcOk s g a (s.pc a)
  held : ∀ a n, s.held a = some n →
    n.tid = a.tid ∧ ∃ e, s.client a.client = some e ∧ e.threads.head? = some n ∧ e.state = .locked
  server : ServerOk s g (s.server.getD {})

theorem inv_init : Inv {} {} := by
  refine ⟨fun a h => absurd rfl h, fun c e h => (nomatch h), fun a => trivial,
    fun a n h => (nomatch h), ?_⟩
  constructor <;> simp [Stage.IsOwner, Stage.IsRetrying]

end Yfs.Lock
