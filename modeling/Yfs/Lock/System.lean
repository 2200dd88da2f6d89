import Yfs.Lib.Reachable
import Yfs.Lock.Protocol

/-!
# The caching lock service as a system

Any number of `lock_client_cache`s and one `lock_server_cache`, for one lock id
(`Sys`) and for all of them (`Step`).

RPCs are synchronous and nest: a thread that calls `acquire` at the server waits
for the handler, which may wait for a `revoke` at the owner, which may wait for a
`release` at the server, which waits for a `retry` at the next client. Such a chain
is one *activity*; where it is on its way (a request not yet executed, a handler
between two sections, a reply not yet received) is its *phase*, kept with the
thread that started it. Every phase change is a step of its own, so all orders of
sections, requests and replies are runs of the system.

Assumed of the RPC library and of pthreads, and built into the steps: a call is
executed exactly once and its reply arrives; a section is atomic; a wait ends only
after a signal.
-/

namespace Yfs.Lock

open Client (QueuingThread Wait)

/-- The progress of a `release` call at the server. -/
inductive RelPhase where
  /-- the request has not been executed -/
  | req
  /-- executed; the handler's `retry` call to this client has not been -/
  | retryReq (next : String)
  /-- the handler is done, the caller does not know yet -/
  | rep
  deriving DecidableEq

/-- The progress of an `acquire` call at the server. -/
inductive AcqPhase where
  /-- the request has not been executed -/
  | req
  /-- executed on a `LOCKED` entry; the handler is about to read `lockEntry->owner`
  and to call `revoke` -/
  | revSend
  /-- the handler's `revoke` call to `tgt` has not been executed; it will return `ret` -/
  | revReq (tgt : String) (ret : Status)
  /-- `revoke_handler` at `tgt` found the lock free and waits for its `release` call -/
  | revRel (tgt : String) (ret : Status) (p : RelPhase)
  /-- the handler is done, the caller does not know its answer yet -/
  | rep (ret : Status)
  deriving DecidableEq

/-- The phase an `acquire` call is in after the server's section. -/
def Server.Next.phase : Server.Next → AcqPhase
  | .reply ret => .rep ret
  | .revokeOwner => .revSend
  | .revokeSelf c => .revReq c .ok

/-- What a client thread is doing with the lock; `n` is the queue node of its
`acquire` call. -/
inductive Pc where
  | idle
  | waiting (w : Wait) (n : QueuingThread) (signalled : Bool)
  | acquiring (n : QueuingThread) (p : AcqPhase)
  | releasing (n : QueuingThread) (p : RelPhase)
  deriving DecidableEq

/-- A client thread: the client's `id` and a thread number. The activity it runs
goes by the same name. -/
@[ext] structure Thread where
  client : String
  tid : ℕ
  deriving DecidableEq, Repr

/-- The state of the system as far as one lock id is concerned. `held` is the node
with which a thread last got the lock, from the return of `acquire` to its next
call of `release`. -/
structure Sys where
  server : Option Server.LockEntry := none
  client : String → Option Client.LockEntry := fun _ => none
  pc : Thread → Pc := fun _ => .idle
  held : Thread → Option QueuingThread := fun _ => none

/-- A step of one activity. -/
inductive Event where
  /-- the thread calls `acquire`; `new QueuingThread` is at `addr` -/
  | acquire (a : Thread) (addr : ℕ)
  /-- a signalled thread returns from `pthread_cond_wait` -/
  | wake (a : Thread)
  /-- the thread calls `release` -/
  | release (a : Thread)
  /-- the server executes the request of the activity -/
  | serve (a : Thread)
  /-- the server's `acquire` handler makes its `revoke` call -/
  | sendRevoke (a : Thread)
  /-- a client executes `revoke_handler` -/
  | revoke (a : Thread)
  /-- a client executes `retry_handler` -/
  | retry (a : Thread)
  /-- a client goes on after the reply of its call -/
  | reply (a : Thread)
  deriving DecidableEq

/-- `pthread_cond_signal` as seen by the thread with this pc. -/
def Pc.signal (n : QueuingThread) : Pc → Pc
  | .waiting w m b => .waiting w m (b || decide (m = n))
  | p => p

/-- The `release` call an activity is in, with the client that made it. -/
def Pc.release? (c : String) : Pc → Option (String × RelPhase)
  | .releasing _ p => some (c, p)
  | .acquiring _ (.revRel tgt _ p) => some (tgt, p)
  | _ => none

/-- The activity with its `release` call in phase `p`. -/
def Pc.setRelease (p : RelPhase) : Pc → Pc
  | .releasing n _ => .releasing n p
  | .acquiring n (.revRel tgt ret _) => .acquiring n (.revRel tgt ret p)
  | pc => pc

namespace Sys

/-- Write the server's entry. -/
def setServer (s : Sys) (e : Server.LockEntry) : Sys :=
  { s with server := some e }

/-- Write a client's entry. -/
def setClient (s : Sys) (c : String) (e : Client.LockEntry) : Sys :=
  { s with client := Function.update s.client c (some e) }

/-- Write a thread's pc. -/
def setPc (s : Sys) (a : Thread) (p : Pc) : Sys :=
  { s with pc := Function.update s.pc a p }

/-- Record whether a thread holds the lock. -/
def setHeld (s : Sys) (a : Thread) (n : Option QueuingThread) : Sys :=
  { s with held := Function.update s.held a n }

/-- Signal a queue node of client `c`, if there is one to signal. -/
def signal (s : Sys) (c : String) (n : Option QueuingThread) : Sys :=
  { s with pc := fun a =>
      match n with
      | some n => if a.client = c then (s.pc a).signal n else s.pc a
      | none => s.pc a }

@[simp, grind =] theorem setServer_server (s : Sys) (e : Server.LockEntry) :
    (s.setServer e).server = some e := rfl

@[simp, grind =] theorem setServer_client (s : Sys) (e : Server.LockEntry) (x : String) :
    (s.setServer e).client x = s.client x := rfl

@[simp, grind =] theorem setServer_pc (s : Sys) (e : Server.LockEntry) (x : Thread) :
    (s.setServer e).pc x = s.pc x := rfl

@[simp, grind =] theorem setServer_held (s : Sys) (e : Server.LockEntry) (x : Thread) :
    (s.setServer e).held x = s.held x := rfl

@[simp, grind =] theorem setClient_server (s : Sys) (c : String) (e : Client.LockEntry) :
    (s.setClient c e).server = s.server := rfl

@[simp, grind =] theorem setClient_client (s : Sys) (c c' : String) (e : Client.LockEntry) :
    (s.setClient c e).client c' = if c' = c then some e else s.client c' :=
  Function.update_apply ..

@[simp, grind =] theorem setClient_pc (s : Sys) (c : String) (e : Client.LockEntry) (x : Thread) :
    (s.setClient c e).pc x = s.pc x := rfl

@[simp, grind =] theorem setClient_held (s : Sys) (c : String) (e : Client.LockEntry) (x : Thread) :
    (s.setClient c e).held x = s.held x := rfl

@[simp, grind =] theorem setPc_server (s : Sys) (a : Thread) (p : Pc) :
    (s.setPc a p).server = s.server := rfl

@[simp, grind =] theorem setPc_client (s : Sys) (a : Thread) (p : Pc) (x : String) :
    (s.setPc a p).client x = s.client x := rfl

@[simp, grind =] theorem setPc_pc (s : Sys) (a b : Thread) (p : Pc) :
    (s.setPc a p).pc b = if b = a then p else s.pc b :=
  Function.update_apply ..

@[simp, grind =] theorem setPc_held (s : Sys) (a : Thread) (p : Pc) (x : Thread) :
    (s.setPc a p).held x = s.held x := rfl

@[simp, grind =] theorem setHeld_server (s : Sys) (a : Thread) (n : Option QueuingThread) :
    (s.setHeld a n).server = s.server := rfl

@[simp, grind =] theorem setHeld_client (s : Sys) (a : Thread)
    (n : Option QueuingThread) (x : String) :
    (s.setHeld a n).client x = s.client x := rfl

@[simp, grind =] theorem setHeld_pc (s : Sys) (a : Thread) (n : Option QueuingThread) (x : Thread) :
    (s.setHeld a n).pc x = s.pc x := rfl

@[simp, grind =] theorem setHeld_held (s : Sys) (a b : Thread) (n : Option QueuingThread) :
    (s.setHeld a n).held b = if b = a then n else s.held b :=
  Function.update_apply ..

@[simp, grind =] theorem signal_server (s : Sys) (c : String) (n : Option QueuingThread) :
    (s.signal c n).server = s.server := rfl

@[simp, grind =] theorem signal_client (s : Sys) (c : String)
    (n : Option QueuingThread) (x : String) :
    (s.signal c n).client x = s.client x := rfl

@[simp, grind =] theorem signal_held (s : Sys) (c : String)
    (n : Option QueuingThread) (x : Thread) :
    (s.signal c n).held x = s.held x := rfl

@[simp, grind =] theorem signal_none_pc (s : Sys) (c : String) (b : Thread) :
    (s.signal c none).pc b = s.pc b := rfl

@[simp, grind =] theorem signal_some_pc (s : Sys) (c : String) (n : QueuingThread) (b : Thread) :
    (s.signal c (some n)).pc b = if b.client = c then (s.pc b).signal n else s.pc b := rfl

/-- The thread `a` leaves a section of `acquire`. -/
def resume (s : Sys) (a : Thread) (n : QueuingThread) :
    Except Fault (Client.LockEntry × Client.Next) → Except Fault Sys
  | .error f => .error f
  | .ok (e, next) =>
    let s := s.setClient a.client e
    .ok (match next with
      | .returnOK => (s.setPc a .idle).setHeld a (some n)
      | .call => s.setPc a (.acquiring n .req)
      | .wait w => s.setPc a (.waiting w n false))

/-- The entry a section of client `c` works on; without one its pointer is null. -/
def entry (s : Sys) (c : String) : Except Fault Client.LockEntry :=
  match s.client c with
  | none => .error .noEntry
  | some e => .ok e

/-- One step: `none` when the event is not possible in this state. -/
def exec (s : Sys) : Event → Option (Except Fault Sys)
  | .acquire a addr =>
    -- client ids are never empty, and `new` returns memory that is not in use
    let e := (s.client a.client).getD {}
    if s.pc a = .idle ∧ a.client ≠ "" ∧ (⟨a.tid, addr⟩ : QueuingThread) ∉ e.threads then
      some (s.resume a ⟨a.tid, addr⟩ (Client.acquire e ⟨a.tid, addr⟩))
    else none
  | .wake a =>
    match s.pc a with
    | .waiting w n true => some (s.resume a n (s.entry a.client >>= (Client.wake · w)))
    | _ => none
  | .release a =>
    match s.pc a, s.held a with
    | .idle, some n =>
      some <| (s.entry a.client >>= Client.release).map fun (e, fin) =>
        let s := (s.setClient a.client e).setHeld a none
        match fin with
        | none => s.setPc a (.releasing n .req)
        | some sig => s.signal a.client sig
    | _, _ => none
  | .serve a =>
    match s.pc a with
    | .acquiring n .req =>
      some <| (Server.acquire s.server a.client).map fun (e, next) =>
        (s.setServer e).setPc a (.acquiring n next.phase)
    | pc =>
      match pc.release? a.client with
      | some (c, .req) =>
        some <| (Server.release s.server c).map fun (e, next) =>
          (s.setServer e).setPc a (pc.setRelease (.retryReq next))
      | _ => none
  | .sendRevoke a =>
    match s.pc a with
    | .acquiring n .revSend =>
      some (.ok (s.setPc a (.acquiring n (.revReq (s.server.getD {}).owner .retry))))
    | _ => none
  | .revoke a =>
    match s.pc a with
    | .acquiring n (.revReq tgt ret) =>
      some <| ((s.entry tgt).map Client.revokeHandler).map fun (e, calls) =>
        (s.setClient tgt e).setPc a
          (.acquiring n (if calls then .revRel tgt ret .req else .rep ret))
    | _ => none
  | .retry a =>
    match (s.pc a).release? a.client with
    | some (_, .retryReq next) =>
      some <| (s.entry next >>= Client.retryHandler).map fun (e, n) =>
        let s := (s.setClient next e).signal next (some n)
        s.setPc a ((s.pc a).setRelease .rep)
    | _ => none
  | .reply a =>
    match s.pc a with
    | .acquiring n (.rep ret) =>
      some (s.resume a n (s.entry a.client >>= (Client.blockUntilGotReply · ret)))
    | .acquiring n (.revRel tgt ret .rep) =>
      some <| (s.entry tgt).map fun e =>
        let (e', sig) := Client.revokeHandlerReply e
        ((s.setClient tgt e').signal tgt sig).setPc a (.acquiring n (.rep ret))
    | .releasing _ .rep =>
      some <| (s.entry a.client >>= Client.releaseReply).map fun (e, sig) =>
        ((s.setClient a.client e).signal a.client sig).setPc a .idle
    | _ => none

end Sys

end Yfs.Lock
