import Mathlib.Data.Finset.Max
import Mathlib.Data.String.Basic

/-!
# The caching lock service: the two parties' sections

The mutex-protected sections of `lock_client_cache` and `lock_server_cache`, each
as the function it computes on the entry of one lock id. A section ends where the
source drops `lockManagerLock`: at a return, at a `pthread_cond_wait`, or around a
nested RPC. What happens next is part of its result, so the system of
`Lock.System` can interleave sections, requests and replies in any order.

Failures of the source (a false `assert`, `*begin()` of an empty set, `front()` of
an empty list, a dereferenced null entry) are results of their own, `Fault`, and
never a silently chosen default.
-/

namespace Yfs.Lock

/-- `lock_protocol::lockid_t`. -/
abbrev LockId := UInt64

/-- `lock_protocol::xxstatus`, as far as the two handlers return it. -/
inductive Status where
  | ok
  | retry
  deriving DecidableEq, Repr

/-- What goes wrong when a section is entered in a state its author excluded. -/
inductive Fault where
  /-- a false `assert` -/
  | assertion
  /-- `*waitingClients.begin()` of an empty set -/
  | emptySet
  /-- `threads.front()` of an empty list -/
  | emptyList
  /-- a handler called for a lock id that has no entry -/
  | noEntry
  deriving DecidableEq, Repr

/-! ## The server (`lock_server_cache`) -/

namespace Server

/-- `lock_server_cache::State`. -/
inductive State where
  | none
  | locked
  | revoking
  | retrying
  deriving DecidableEq, Repr

/-- `lock_server_cache::LockEntry`. The empty string is "nobody", as in the source. -/
structure LockEntry where
  owner : String := ""
  retryingClient : String := ""
  waitingClients : Finset String := ∅
  state : State := .none
  deriving DecidableEq

/-- How an `acquire` handler goes on after it dropped the mutex. -/
inductive Next where
  /-- return this status -/
  | reply (ret : Status)
  /-- call `revoke` at whoever `lockEntry->owner` names when the call is made,
  then return `RETRY` -/
  | revokeOwner
  /-- call `revoke` at this client, then return `OK` -/
  | revokeSelf (clientID : String)
  deriving DecidableEq

/-- `lock_server_cache::acquire` up to the point where the mutex is dropped. -/
def acquire (entry : Option LockEntry) (clientID : String) :
    Except Fault (LockEntry × Next) :=
  let lockEntry := entry.getD {}
  match lockEntry.state with
  | .none =>
    if lockEntry.owner ≠ "" then .error .assertion
    else .ok ({ lockEntry with state := .locked, owner := clientID }, .reply .ok)
  | .locked =>
    if clientID ∈ lockEntry.waitingClients then .error .assertion
    else if lockEntry.owner = "" then .error .assertion
    else if lockEntry.owner = clientID then .error .assertion
    else .ok ({ lockEntry with
      waitingClients := insert clientID lockEntry.waitingClients,
      state := .revoking }, .revokeOwner)
  | .revoking =>
    if clientID ∈ lockEntry.waitingClients then .error .assertion
    else .ok ({ lockEntry with
      waitingClients := insert clientID lockEntry.waitingClients }, .reply .retry)
  | .retrying =>
    if clientID ∈ lockEntry.waitingClients then .error .assertion
    else if clientID = lockEntry.retryingClient then
      if lockEntry.waitingClients.Nonempty then
        .ok ({ lockEntry with retryingClient := "", state := .revoking, owner := clientID },
          .revokeSelf clientID)
      else
        .ok ({ lockEntry with retryingClient := "", state := .locked, owner := clientID },
          .reply .ok)
    else .ok ({ lockEntry with
      waitingClients := insert clientID lockEntry.waitingClients }, .reply .retry)

/-- `lock_server_cache::release` up to the point where the mutex is dropped, with
the client the handler calls `retry` at. `lockManager[lid]` of an unknown id is the
null pointer the first `assert` is about; `waitingClients.size() >= 0` is no test. -/
def release (entry : Option LockEntry) (clientID : String) :
    Except Fault (LockEntry × String) :=
  match entry with
  | none => .error .assertion
  | some lockEntry =>
    if lockEntry.state ≠ .revoking then .error .assertion
    else if lockEntry.owner ≠ clientID then .error .assertion
    else if h : lockEntry.waitingClients.Nonempty then
      -- `std::set` is ordered, so `*begin()` is the least waiting client
      let nextWaitingClient := lockEntry.waitingClients.min' h
      .ok ({ waitingClients := lockEntry.waitingClients.erase nextWaitingClient,
             retryingClient := nextWaitingClient, owner := "", state := .retrying },
           nextWaitingClient)
    else .error .emptySet

end Server

/-! ## The client (`lock_client_cache`) -/

namespace Client

/-- `lock_client_cache::Message`. -/
inductive Message where
  | empty
  | retry
  | revoke
  deriving DecidableEq, Repr

/-- `lock_client_cache::LockState`. -/
inductive LockState where
  | none
  | acquiring
  | free
  | releasing
  | locked
  deriving DecidableEq, Repr

/-- A `QueuingThread`, the object one `acquire` call puts into the queue: the
thread that made it and the address `new` gave it. -/
structure QueuingThread where
  tid : ℕ
  addr : ℕ
  deriving DecidableEq, Repr

/-- `lock_client_cache::LockEntry`. -/
structure LockEntry where
  state : LockState := .none
  message : Message := .empty
  threads : List QueuingThread := []
  deriving DecidableEq, Repr

/-- The three `pthread_cond_wait`s of the client. -/
inductive Wait where
  /-- `acquire` with an empty queue and a lock that is on its way back -/
  | released
  /-- `acquire` behind other threads -/
  | queued
  /-- `blockUntilGot` after a `RETRY` -/
  | retry
  deriving DecidableEq, Repr

/-- How a thread inside `acquire` goes on after a section. -/
inductive Next where
  /-- `acquire` returns `OK` -/
  | returnOK
  /-- `blockUntilGot` calls `acquire` at the server -/
  | call
  /-- it blocks on its condition variable -/
  | wait (w : Wait)
  deriving DecidableEq, Repr

/-- The test of `blockUntilGot`'s loop; behind the loop there is `assert(0)`. -/
def blockUntilGotLoop (e : LockEntry) : Except Fault (LockEntry × Next) :=
  if e.state = .acquiring then .ok (e, .call) else .error .assertion

/-- `blockUntilGot` from its start to the first `acquire` call. -/
def blockUntilGot (e : LockEntry) : Except Fault (LockEntry × Next) :=
  blockUntilGotLoop { e with state := .acquiring }

/-- `blockUntilGot` when the server's answer is there. -/
def blockUntilGotReply (e : LockEntry) (ret : Status) : Except Fault (LockEntry × Next) :=
  match ret with
  | .ok => .ok ({ e with state := .locked }, .returnOK)
  | .retry =>
    if e.message = .empty then .ok (e, .wait .retry)
    else blockUntilGotLoop { e with message := .empty }

/-- `acquire` up to the point where the mutex is dropped. -/
def acquire (e : LockEntry) (thisThread : QueuingThread) : Except Fault (LockEntry × Next) :=
  if e.threads = [] then
    let e' := { e with threads := [thisThread] }
    match e.state with
    | .free => .ok ({ e' with state := .locked }, .returnOK)
    | .none => blockUntilGot e'
    | _ => .ok (e', .wait .released)
  else .ok ({ e with threads := e.threads ++ [thisThread] }, .wait .queued)

/-- A thread that was signalled goes on behind the wait it is in. -/
def wake (e : LockEntry) : Wait → Except Fault (LockEntry × Next)
  | .released => blockUntilGot e
  | .queued =>
    match e.state with
    | .free => .ok ({ e with state := .locked }, .returnOK)
    | .locked => .ok (e, .returnOK)
    | .none => blockUntilGot e
    | _ => .error .assertion
  | .retry => blockUntilGotLoop { e with message := .empty }

/-- The common end of `release`: drop the front of the queue and hand over. The
second result is the queue node that is signalled. -/
def releaseFinish (e : LockEntry) (fromRevoked : Bool) :
    Except Fault (LockEntry × Option QueuingThread) :=
  match e.threads with
  | [] => .error .emptyList
  | _ :: [] => .ok ({ e with threads := [] }, none)
  | _ :: n :: rest =>
    .ok ({ e with threads := n :: rest, state := if fromRevoked then e.state else .locked },
      some n)

/-- `release` up to the point where the mutex is dropped: `none` when the lock has
to go back to the server first, else the end of `release`. -/
def release (e : LockEntry) : Except Fault (LockEntry × Option (Option QueuingThread)) :=
  if e.message = .revoke then .ok ({ e with state := .releasing }, none)
  else (releaseFinish { e with state := .free } false).map fun (e', n) => (e', some n)

/-- `release` when its call at the server has returned. -/
def releaseReply (e : LockEntry) : Except Fault (LockEntry × Option QueuingThread) :=
  releaseFinish { e with message := .empty, state := .none } true

/-- `revoke_handler` up to the point where the mutex is dropped; the flag says that
it calls `release` at the server. -/
def revokeHandler (e : LockEntry) : LockEntry × Bool :=
  if e.state = .free then ({ e with state := .releasing }, true)
  else ({ e with message := .revoke }, false)

/-- `revoke_handler` when its `release` call has returned. -/
def revokeHandlerReply (e : LockEntry) : LockEntry × Option QueuingThread :=
  ({ e with state := .none }, e.threads.head?)

/-- `retry_handler`. -/
def retryHandler (e : LockEntry) : Except Fault (LockEntry × QueuingThread) :=
  match e.threads with
  | [] => .error .emptyList
  | n :: _ => .ok ({ e with message := .retry }, n)

end Client

end Yfs.Lock
