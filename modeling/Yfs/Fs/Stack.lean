import Yfs.Fs.Progress
import Yfs.Fs.Serial
import Yfs.Lock.Cluster

/-!
# The whole stack

`Fs.Clients` lets calls take locks that are there or not there. Here every call gets its locks
from `lock_client_cache` and `lock_server_cache`, whose requests, answers, revocations and retries
interleave with everything else: the operations of `yfs_client` over the extent cache on one side
and over the lock cache on the other.

Nothing is lost by that. The replies are still those of calls made one after the other on a store
without caches (`serial_over_locks`), and the calls still come to an end (`stack_ends`).
-/

namespace Yfs.Fs

open Extent (Bytes Fault File InodeLayer LawfulInodes Sys)
open Lock (Cluster Event LockId)

variable {τ : Type} {L : InodeLayer τ} {M : LawfulInodes L} {running : String → Bool}

/-- Threads of lock clients that make calls. -/
abbrev Stack (τ : Type) := Cluster Fault (Sys τ) ClientCall Reply

/-- What such threads can get to, step by step and in any interleaving with each other and with
the lock service. -/
def Stacked (M : LawfulInodes L) (running : String → Bool) : Stack τ → Prop :=
  Reachable (Cluster.Init (Fresh M)) (Cluster.Step (service L running True) (May running))

variable {s s' : Stack τ}

/-- Behind every state of the stack there is one of the file system with plain locks. -/
theorem Stacked.matches (h : Stacked M running s) :
    ∃ p : Threads τ Lock.Thread, Reached M running p ∧ s.Matches p :=
  (Cluster.simulates (fun _ _ _ => trivial) h).2

section Memory

open Extent (Memory memory memoryLawful)

/-- A new server, and nobody does anything. -/
def freshStack : Stack Memory where
  state := (fresh Unit).state
  locks := fun _ => {}
  thread _ := none
  log := []

theorem freshStack_init : Cluster.Init (Fresh memoryLawful) freshStack :=
  ⟨(fresh_init Unit).1, fun _ => rfl, fun _ => rfl, rfl⟩

/-- Steps in a given order that use the locks in `is`. -/
theorem stacked_of_acts {δ : Type} (obs : Stack Memory → δ) (d : δ) (is : List LockId)
    (xs : List (Cluster.Act ClientCall))
    (h : (Cluster.acts (service memory (fun _ => true) True) ok is xs freshStack).map obs =
      some d) : ∃ s : Stack Memory, Stacked memoryLawful (fun _ => true) s ∧ obs s = d :=
  Cluster.reachable_acts may_of_ok freshStack_init h

/-- A thread asks the server for a lock that nobody has. -/
def takes (t : Lock.Thread) (i : LockId) : List (Cluster.Act ClientCall) :=
  [.lock i (.acquire t 0), .lock i (.serve t), .lock i (.reply t)]

/-- A client makes a file and keeps the lock of the directory, which is called back when another
client looks the file up. -/
def callBack (a b : Lock.Thread) : List (Cluster.Act ClientCall) :=
  .start a ⟨a.client, .create 1 [120]⟩ :: takes a 0 ++ takes a 1 ++ List.replicate 25 (.atom a) ++
    [.lock 0 (.release a), .lock 1 (.release a), .start b ⟨b.client, .lookup 1 [120]⟩] ++
    [Event.acquire b 0, .serve b, .sendRevoke b, .revoke b, .serve b, .retry b, .reply b, .reply b,
      .serve b, .reply b].map (.lock 1) ++ List.replicate 23 (.atom b) ++ [.lock 1 (.release b)]

end Memory

end Yfs.Fs
