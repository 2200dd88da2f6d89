import Mathlib.Data.Finset.Card
import Mathlib.Data.Finset.Insert
import Yfs.Lib.Reachable

/-!
# The cache of RPC connections

`handle_mgr` keeps one `hinfo` for each address the process talks to, counts the
handles that hold it, and frees it when a bind has failed and the last of them is
gone. `Proc` is the process as far as the cache is concerned: the map, the objects
that `new` made and `delete` has not taken back, and the handles in scope.

Each mutex-protected section is one step (`Proc.exec`): `get_handle` for the
constructor, `safebind`, `done_handle` for the destructor. Sections of any number of
threads run in any order, and what `bind` returns is part of the event. Using or
deleting an object that is not there is a `Fault` of its own; objects are numbered in
the order in which `new` makes them, so a number is never used twice. `Proc.log` is
history: no section reads it.

Not modelled: `handle_mgr::delete_handle`, which nothing calls, and an overflow of
`refcnt`, which takes 2³¹ handles in scope at once.
-/

namespace Yfs.Rpc

/-- `hinfo`; a pointer is the number of the object it points to. -/
structure Hinfo where
  cl : Option ℕ
  refcnt : ℤ
  del : Bool
  m : String
  deriving DecidableEq, Repr

/-- What happened to the objects, for the statements about whole runs. -/
inductive Act where
  /-- a new `rpcc` was bound for this `hinfo`, or failed to -/
  | bind (h cl : ℕ) (ok : Bool)
  /-- a `safebind` on a handle that holds this `hinfo` returned -/
  | safebind (h : ℕ) (ret : Option ℕ)
  /-- `delete h` -/
  | deleteHinfo (h : ℕ)
  /-- `delete cl` -/
  | deleteRpcc (cl : ℕ)
  deriving DecidableEq, Repr

/-- What a dangling pointer leads to. -/
inductive Fault where
  | useAfterFree
  | doubleFree
  deriving DecidableEq, Repr

/-- `handle_mgr`, its heap and the handles that are alive: object `k` is a handle
whose `h` is `held k`. An `rpcc` is the address it was made for. -/
structure Proc where
  hmap : String → Option ℕ := fun _ => none
  hinfo : ℕ → Option Hinfo := fun _ => none
  rpcc : ℕ → Option String := fun _ => none
  hinfos : ℕ := 0
  rpccs : ℕ := 0
  live : Finset ℕ := ∅
  held : ℕ → Option ℕ := fun _ => none
  log : List Act := []

/-- A section of one thread. -/
inductive Event where
  /-- the constructor `handle(m)` at `k` -/
  | handle (k : ℕ) (m : String)
  /-- `safebind` on the handle at `k`; `bind` returns `ret` if it is called -/
  | safebind (k : ℕ) (ret : ℤ)
  /-- the destructor of the handle at `k` -/
  | done (k : ℕ)
  deriving DecidableEq

namespace Proc

/-- `*h`. -/
def deref (s : Proc) (h : ℕ) : Except Fault Hinfo :=
  match s.hinfo h with
  | none => .error .useAfterFree
  | some i => .ok i

/-- Write `*h`. -/
def setHinfo (s : Proc) (h : ℕ) (i : Hinfo) : Proc :=
  { s with hinfo := Function.update s.hinfo h (some i) }

/-- Add to the history. -/
def note (s : Proc) (a : Act) : Proc := { s with log := a :: s.log }

/-- `new hinfo` for address `m`, put into the map. -/
def newHinfo (s : Proc) (m : String) : Proc :=
  { s with
    hmap := Function.update s.hmap m (some s.hinfos)
    hinfo := Function.update s.hinfo s.hinfos
      (some { cl := none, del := false, refcnt := 1, m := m })
    hinfos := s.hinfos + 1 }

/-- `new rpcc` for address `m`. -/
def newRpcc (s : Proc) (m : String) : Proc :=
  { s with rpcc := Function.update s.rpcc s.rpccs (some m), rpccs := s.rpccs + 1 }

/-- `delete cl`. -/
def deleteRpcc (s : Proc) (cl : ℕ) : Except Fault Proc :=
  match s.rpcc cl with
  | none => .error .doubleFree
  | some _ => .ok ({ s with rpcc := Function.update s.rpcc cl none }.note (.deleteRpcc cl))

/-- `hmap.erase(m); delete h`. -/
def deleteHinfo (s : Proc) (m : String) (h : ℕ) : Except Fault Proc :=
  match s.hinfo h with
  | none => .error .doubleFree
  | some _ => .ok ({ s with
      hmap := Function.update s.hmap m none,
      hinfo := Function.update s.hinfo h none }.note (.deleteHinfo h))

/-- `handle_mgr::get_handle`. -/
def getHandle (s : Proc) (m : String) : Except Fault (Proc × Option ℕ) :=
  match s.hmap m with
  | none => .ok (s.newHinfo m, some s.hinfos)
  | some h => do
    let i ← s.deref h
    if !i.del then return (s.setHinfo h { i with refcnt := i.refcnt + 1 }, some h)
    else return (s, none)

/-- `handle_mgr::delete_handle_wo`. -/
def deleteHandleWo (s : Proc) (m : String) : Except Fault Proc :=
  match s.hmap m with
  | none => .ok s
  | some h => do
    let i ← s.deref h
    if i.refcnt = 0 then
      let s ← match i.cl with
        | some cl => s.deleteRpcc cl
        | none => pure s
      s.deleteHinfo m h
    else return s.setHinfo h { i with del := true }

/-- `handle_mgr::done_handle`. -/
def doneHandle (s : Proc) (h : ℕ) : Except Fault Proc := do
  let i ← s.deref h
  let i := { i with refcnt := i.refcnt - 1 }
  if i.refcnt = 0 ∧ i.del then (s.setHinfo h i).deleteHandleWo i.m
  else return s.setHinfo h i

/-- `handle::safebind` on a handle whose `h` is this pointer. -/
def safebind (s : Proc) (h : Option ℕ) (ret : ℤ) : Except Fault (Proc × Option ℕ) :=
  match h with
  | none => .ok (s, none)
  | some h => do
    let i ← s.deref h
    if i.del then return (s.note (.safebind h none), none)
    else
      match i.cl with
      | some cl => return (s.note (.safebind h (some cl)), some cl)
      | none =>
        let cl := s.rpccs
        let s := (s.newRpcc i.m).note (.bind h cl (0 ≤ ret))
        if ret < 0 then
          let s ← s.deleteRpcc cl
          return ((s.setHinfo h { i with del := true }).note (.safebind h none), none)
        else
          return ((s.setHinfo h { i with cl := some cl }).note (.safebind h (some cl)), some cl)

/-- `~handle`. -/
def destroy (s : Proc) (h : Option ℕ) : Except Fault Proc :=
  match h with
  | none => .ok s
  | some h => s.doneHandle h

/-- The object at `k` is from now on a handle with this `h`. -/
def hold (s : Proc) (k : ℕ) (h : Option ℕ) : Proc :=
  { s with live := insert k s.live, held := Function.update s.held k h }

/-- The handle at `k` goes out of scope. -/
def drop (s : Proc) (k : ℕ) : Proc := { s with live := s.live.erase k }

/-- One step: `none` when the event is not possible in this state. -/
def exec (s : Proc) : Event → Option (Except Fault Proc)
  | .handle k m =>
    if k ∈ s.live then none
    else some ((s.getHandle m).map fun (s, h) => s.hold k h)
  | .safebind k ret =>
    if k ∈ s.live then some ((s.safebind (s.held k) ret).map Prod.fst) else none
  | .done k =>
    if k ∈ s.live then some ((s.destroy (s.held k)).map fun s => s.drop k)
    else none

/-- Before the first handle. -/
def Init (s : Proc) : Prop := s = {}

/-- Some thread runs a section. -/
def Step (s s' : Proc) : Prop := ∃ e, s.exec e = some (.ok s')

/-- The live handles that hold an `hinfo`. -/
def holders (s : Proc) (h : ℕ) : Finset ℕ := s.live.filter fun k => s.held k = some h

theorem mem_holders {s : Proc} {h k : ℕ} :
    k ∈ s.holders h ↔ k ∈ s.live ∧ s.held k = some h := Finset.mem_filter

/-- What one section does, with the guards under which it does it. -/
inductive Move (s : Proc) : Event → Proc → Prop
  | create {k : ℕ} {m : String} : k ∉ s.live → s.hmap m = none →
    Move s (.handle k m) ((s.newHinfo m).hold k (some s.hinfos))
  | share {k : ℕ} {m : String} {h : ℕ} {i : Hinfo} : k ∉ s.live → s.hmap m = some h →
    s.hinfo h = some i → i.del = false →
    Move s (.handle k m) ((s.setHinfo h { i with refcnt := i.refcnt + 1 }).hold k (some h))
  | refuse {k : ℕ} {m : String} {h : ℕ} {i : Hinfo} : k ∉ s.live → s.hmap m = some h →
    s.hinfo h = some i → i.del = true → Move s (.handle k m) (s.hold k none)
  | idle {k : ℕ} {ret : ℤ} : k ∈ s.live → s.held k = none → Move s (.safebind k ret) s
  | dead {k : ℕ} {ret : ℤ} {h : ℕ} {i : Hinfo} : k ∈ s.live → s.held k = some h →
    s.hinfo h = some i → i.del = true → Move s (.safebind k ret) (s.note (.safebind h none))
  | again {k : ℕ} {ret : ℤ} {h cl : ℕ} {i : Hinfo} : k ∈ s.live → s.held k = some h →
    s.hinfo h = some i → i.del = false → i.cl = some cl →
    Move s (.safebind k ret) (s.note (.safebind h (some cl)))
  | bound {k : ℕ} {ret : ℤ} {h : ℕ} {i : Hinfo} : k ∈ s.live → s.held k = some h →
    s.hinfo h = some i → i.del = false → i.cl = none → 0 ≤ ret →
    Move s (.safebind k ret) ((((s.newRpcc i.m).note (.bind h s.rpccs true)).setHinfo h
      { i with cl := some s.rpccs }).note (.safebind h (some s.rpccs)))
  | failed {k : ℕ} {ret : ℤ} {h : ℕ} {i : Hinfo} : k ∈ s.live → s.held k = some h →
    s.hinfo h = some i → i.del = false → i.cl = none → ret < 0 →
    Move s (.safebind k ret) (((({ s with rpccs := s.rpccs + 1 }.note
      (.bind h s.rpccs false)).note (.deleteRpcc s.rpccs)).setHinfo h
      { i with del := true }).note (.safebind h none))
  | forget {k : ℕ} : k ∈ s.live → s.held k = none → Move s (.done k) (s.drop k)
  | release {k h : ℕ} {i : Hinfo} : k ∈ s.live → s.held k = some h → s.hinfo h = some i →
    ¬ (i.refcnt = 1 ∧ i.del = true) →
    Move s (.done k) ((s.setHinfo h { i with refcnt := i.refcnt - 1 }).drop k)
  | retire {k h : ℕ} {i : Hinfo} : k ∈ s.live → s.held k = some h → s.hinfo h = some i →
    i.refcnt = 1 → i.del = true →
    Move s (.done k) (({ s with
      hmap := Function.update s.hmap i.m none
      hinfo := Function.update s.hinfo h none }.note (.deleteHinfo h)).drop k)

end Proc

end Yfs.Rpc
