import Mathlib.Data.Stream.Defs
import Yfs.Extent.Client

/-!
# The extent server and its clients

`extent_server` over an inode layer, and all clients with their caches: one state, `Sys`.
A handler of the server that finds another client in `fileManger` calls back, and the
callback may call the server again, so one call of a client is one program that goes
back and forth (`Sys.calls`). `running` are the clients that can be called back.

The inode layer is a parameter. What the server relies on is `LawfulInodes`: it reads back
what was last written, keeps the files apart, and hands out numbers that are not in use.
`none` is a request that the layer cannot serve, such as a write to a full disk.
-/

namespace Yfs.Extent

/-- The operations of `inode_manager` that the server uses. -/
structure InodeLayer (τ : Type) where
  alloc_inode : UInt32 → τ → Option (UInt32 × τ)
  write_file : UInt32 → Bytes → Int → τ → Option τ
  read_file : UInt32 → τ → Option (Bytes × τ)
  getattr : UInt32 → τ → Option (Attr × τ)
  remove_file : UInt32 → τ → Option τ

/-- A file as the inode layer keeps it; its type is a `short`. -/
structure File where
  type : Int16
  data : Bytes
  deriving DecidableEq, Repr

/-- An inode layer that reads back what was last written. -/
structure LawfulInodes {τ : Type} (L : InodeLayer τ) where
  /-- the files that are there -/
  files : τ → UInt32 → Option File
  alloc_ok : ∀ {ty t i t'}, L.alloc_inode ty t = some (i, t') →
    i.toNat < 2 ^ 31 ∧ i ≠ 0 ∧ files t i = none ∧
      ∀ j, files t' j = if j = i then some ⟨ty.toUInt16.toInt16, []⟩ else files t j
  write_ok : ∀ {i f buf t t'}, files t i = some f →
    L.write_file i buf (toInt buf.length) t = some t' →
      ∀ j, files t' j = if j = i then some { f with data := buf } else files t j
  read_ok : ∀ {i f t b t'}, files t i = some f → L.read_file i t = some (b, t') →
    b = f.data ∧ files t' = files t
  getattr_ok : ∀ {i f t a t'}, files t i = some f → L.getattr i t = some (a, t') →
    a.type = f.type.toInt32.toUInt32 ∧ a.size = .ofNat f.data.length ∧ files t' = files t
  remove_ok : ∀ {i f t t'}, files t i = some f → L.remove_file i t = some t' →
    ∀ j, files t' j = if j = i then none else files t j

/-- The layer refuses to make a file, or to do something with one that is there; `N` says
whether it is asked to write. -/
def LawfulInodes.Refuses {τ : Type} {L : InodeLayer τ} (M : LawfulInodes L) (N : Prop)
    (t : τ) : Prop :=
  (∃ ty, L.alloc_inode ty t = none) ∨ ∃ i f, M.files t i = some f ∧
    (L.read_file i t = none ∨ L.getattr i t = none ∨
      N ∧ ∃ buf, L.write_file i buf (toInt buf.length) t = none)

/-- The server and all clients. -/
structure Sys (τ : Type) where
  im : τ
  fileManger : ExtentId → Option String := fun _ => none
  cache : String → ExtentId → Option FileData := fun _ _ => none
  clock : Stream' UInt32
  memory : Stream' Attr

namespace Sys

variable {τ : Type}

/-- The client with this id. -/
def host (clt_id : String) : Host (Sys τ) where
  clt_id := clt_id
  fileManager s := s.cache clt_id
  setFile eid f s :=
    { s with
      cache := Function.update s.cache clt_id (Function.update (s.cache clt_id) eid (some f)) }
  time s := (s.clock.head, { s with clock := s.clock.tail })
  fresh s := (s.memory.head, { s with memory := s.memory.tail })

end Sys

namespace Server

variable {ι τ : Type} (L : InodeLayer τ) (running : String → Bool)

/-- One operation of the inode layer. -/
def im {α : Type} (f : τ → Option (α × τ)) : Prog Fault ι (Sys τ) α :=
  .atom (fun s => (f s.im).map fun r => (r.1, { s with im := r.2 })) .ret

/-- `id &= 0x7fffffff;` -/
def mask (id : ExtentId) : ExtentId := id &&& 0x7fffffff

/-- `if (fileManger.find(id) == fileManger.end()) fileManger[id] = clt; owner = fileManger[id];` -/
def owner (clt : String) (id : ExtentId) : Prog Fault ι (Sys τ) String :=
  .step fun s =>
    match s.fileManger id with
    | some o => (o, s)
    | none => (clt, { s with fileManger := Function.update s.fileManger id (some clt) })

/-- `fileManger[id] = clt;` -/
def setOwner (clt : String) (id : ExtentId) : Prog Fault ι (Sys τ) Unit :=
  .modify fun s => { s with fileManger := Function.update s.fileManger id (some clt) }

/-- `handle(owner).safebind()->call(...)`: if the client does not run, the pointer is null. -/
def callback {α : Type} (owner : String) (p : Prog Fault ι (Sys τ) α) : Prog Fault ι (Sys τ) α :=
  if running owner then p else .fail .nullDeref

/-- `extent_server::create`. -/
def create (_clt : String) (type : UInt32) : Prog Fault ι (Sys τ) (Status × ExtentId) := do
  let i ← im (L.alloc_inode type)
  pure (OK, i.toUInt64)

/-- `extent_server::put`. -/
def put (_clt : String) (id : ExtentId) (buf : Bytes) : Prog Fault ι (Sys τ) Status := do
  let id := mask id
  im fun t => (L.write_file id.toUInt32 buf (toInt buf.length) t).map ((), ·)
  pure OK

/-- `extent_server::get`. -/
def get (clt : String) (id : ExtentId) : Prog Fault ι (Sys τ) (Status × Bytes) := do
  let id := mask id
  let o ← owner clt id
  let () ← (if o ≠ clt then do
    let _ ← callback running o (Client.flush_handler (Sys.host o) (put L) id)
  else pure ())
  setOwner clt id
  let cbuf ← im (L.read_file id.toUInt32)
  pure (OK, cbuf)

/-- `extent_server::getattr`. -/
def getattr (clt : String) (id : ExtentId) : Prog Fault ι (Sys τ) (Status × Attr) := do
  let id := mask id
  let o ← owner clt id
  let attr ← (if o ≠ clt then do
    let (_, attr) ← callback running o (Client.get_attr_handler (Sys.host o) id)
    pure attr
  else im (L.getattr id.toUInt32))
  pure (OK, attr)

/-- `extent_server::remove`. -/
def remove (clt : String) (id : ExtentId) : Prog Fault ι (Sys τ) Status := do
  let id := mask id
  let o ← owner clt id
  let () ← (if o ≠ clt then do
    let _ ← callback running o (Client.flush_rm_handler (Sys.host o) id)
  else pure ())
  setOwner "" id
  im fun t => (L.remove_file id.toUInt32 t).map ((), ·)
  pure OK

end Server

/-- The calls of a client, none of which is lost: the handler runs, and its result is the
new value of the result variable. -/
def Sys.calls {ι τ : Type} (L : InodeLayer τ) (running : String → Bool) :
    Calls Fault ι (Sys τ) where
  create clt type _ := Server.create L clt type
  put := Server.put L
  get clt id _ := Server.get L running clt id
  getattr clt id _ := Server.getattr L running clt id
  remove := Server.remove L running

end Yfs.Extent
