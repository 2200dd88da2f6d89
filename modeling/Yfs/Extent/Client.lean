import Mathlib.Algebra.Group.Nat.Defs
import Yfs.Lib.Prog

/-!
# The extent client

`extent_client` as programs: a write-back cache of whole files, `fileManager`, in front of
the RPCs of the extent server. The code is written once, over a `Host` (where the map of
this client is kept, and what `time` and fresh memory give) and over the calls it makes,
so that it can be run against a server (`Extent.Server`) and against a network that fails
(`Extent.Failure`).

Every access to the map is a step of its own.
-/

namespace Yfs.Extent

/-- `std::string`. -/
abbrev Bytes := List UInt8

/-- `extent_protocol::extentid_t`. -/
abbrev ExtentId := UInt64

/-- `extent_protocol::status`: the status of a handler, or an error of the RPC library. -/
abbrev Status := Int

/-- `extent_protocol::OK`. -/
def OK : Status := 0

/-- `extent_protocol::attr`. -/
structure Attr where
  type : UInt32 := 0
  atime : UInt32 := 0
  mtime : UInt32 := 0
  ctime : UInt32 := 0
  size : UInt32 := 0
  deriving DecidableEq, Repr

/-- `extent_protocol::types`. -/
def T_DIR : UInt32 := 1
@[inherit_doc T_DIR] def T_FILE : UInt32 := 2
@[inherit_doc T_DIR] def T_LINK : UInt32 := 3

/-- What ends a process. -/
inductive Fault where
  /-- a null pointer is used -/
  | nullDeref
  /-- `std::out_of_range` is thrown, and not caught -/
  | outOfRange
  /-- an array of negative length is declared -/
  | badLength
  deriving DecidableEq, Repr

/-- `extent_client::CacheState`. -/
inductive CacheState where
  | none
  | ok
  deriving DecidableEq, Repr

/-- `extent_client::FileData`. The constructor leaves `file_attr` as it finds it. -/
structure FileData where
  data_stat : CacheState := .none
  attr_stat : CacheState := .none
  file_data : Bytes := []
  file_attr : Attr
  deriving DecidableEq, Repr

/-- `int n = ...` for an unsigned value. -/
def toInt (n : ℕ) : Int := (Int32.ofNat n).toInt

/-- The process an `extent_client` lives in: its map in the state, the clock, and what
memory from `new` holds. -/
structure Host (σ : Type) where
  clt_id : String
  fileManager : σ → ExtentId → Option FileData
  setFile : ExtentId → FileData → σ → σ
  time : σ → UInt32 × σ
  fresh : σ → Attr × σ

/-- The calls at the extent server. A call gets the old value of its result variable and
gives the new one, with the status. -/
structure Calls (ε ι σ : Type) where
  create : String → UInt32 → ExtentId → Prog ε ι σ (Status × ExtentId)
  put : String → ExtentId → Bytes → Prog ε ι σ Status
  get : String → ExtentId → Bytes → Prog ε ι σ (Status × Bytes)
  getattr : String → ExtentId → Attr → Prog ε ι σ (Status × Attr)
  remove : String → ExtentId → Prog ε ι σ Status

namespace Client

variable {ι σ : Type} (C : Host σ) (cl : Calls Fault ι σ)

/-- `if (fileManager.find(eid) == fileManager.end()) fileManager[eid] = new FileData();` -/
def enter (eid : ExtentId) : Prog Fault ι σ Unit :=
  .modify fun s =>
    match C.fileManager s eid with
    | some _ => s
    | none =>
      let (a, s) := C.fresh s
      C.setFile eid { file_attr := a } s

/-- `fileManager[eid]->...`, read. -/
def file (eid : ExtentId) : Prog Fault ι σ FileData := do
  match ← .read (C.fileManager · eid) with
  | some f => pure f
  | none => .fail .nullDeref

/-- `fileManager[eid]->... = ...`. -/
def update (eid : ExtentId) (g : FileData → FileData) : Prog Fault ι σ Unit := do
  let found ← .step fun s =>
    match C.fileManager s eid with
    | some f => (true, C.setFile eid (g f) s)
    | none => (false, s)
  if found then pure () else .fail .nullDeref

/-- `(unsigned int)time(NULL)`. -/
def time : Prog Fault ι σ UInt32 := .step C.time

/-- `extent_client::create`. -/
def create (type : UInt32) (id : ExtentId) : Prog Fault ι σ (Status × ExtentId) :=
  cl.create C.clt_id type id

/-- `extent_client::getattr`. -/
def getattr (eid : ExtentId) (attr : Attr) : Prog Fault ι σ (Status × Attr) := do
  enter C eid
  let f ← file C eid
  match f.attr_stat with
  | .none => do
    let (ret, attr) ← cl.getattr C.clt_id eid attr
    update C eid ({ · with file_attr := attr })
    update C eid ({ · with attr_stat := .ok })
    pure (ret, attr)
  | .ok => do
    let f ← file C eid
    pure (OK, f.file_attr)

/-- The uncached branch of `get`: `if (stat == NONE) ...`. -/
def fetch (eid : ExtentId) (buf : Bytes) : Prog Fault ι σ (Status × Bytes) := do
  let (ret, buf) ← cl.get C.clt_id eid buf
  update C eid ({ · with file_data := buf })
  update C eid ({ · with data_stat := .ok })
  let f ← file C eid
  -- the result variable of `getattr` is the entry's own `file_attr`
  let () ← (if f.attr_stat = .none then do
    let (_, a) ← getattr C cl eid f.file_attr
    update C eid ({ · with file_attr := a })
  else pure ())
  pure (ret, buf)

/-- `extent_client::get`. -/
def get (eid : ExtentId) (buf : Bytes) : Prog Fault ι σ (Status × Bytes) := do
  enter C eid
  let f ← file C eid
  let (ret, buf) ← (match f.data_stat with
    | .none => fetch C cl eid buf
    | .ok => do
      let f ← file C eid
      pure (OK, f.file_data))
  let now_time ← time C
  update C eid fun f => { f with file_attr := { f.file_attr with atime := now_time } }
  pure (ret, buf)

/-- `extent_client::put`. -/
def put (eid : ExtentId) (buf : Bytes) : Prog Fault ι σ Status := do
  enter C eid
  let f ← file C eid
  -- the result variable of `get` is the entry's own `file_data`
  let () ← (if f.data_stat = .none ∨ f.attr_stat = .none then do
    let (_, b) ← get C cl eid f.file_data
    update C eid ({ · with file_data := b })
  else pure ())
  let now_time ← time C
  update C eid ({ · with file_data := buf })
  update C eid fun f => { f with file_attr :=
    { f.file_attr with size := .ofNat buf.length, ctime := now_time, mtime := now_time } }
  update C eid ({ · with data_stat := .ok })
  update C eid ({ · with attr_stat := .ok })
  pure OK

/-- `extent_client::remove`. -/
def remove (eid : ExtentId) : Prog Fault ι σ Status :=
  cl.remove C.clt_id eid

/-- `extent_client::flush_handler`, with the `put` call it makes. -/
def flush_handler (call : String → ExtentId → Bytes → Prog Fault ι σ Status) (eid : ExtentId) :
    Prog Fault ι σ Status := do
  match ← .read (C.fileManager · eid) with
  | none => pure OK
  | some _ => do
    let f ← file C eid
    if f.data_stat = .none then
      pure OK
    else
      let f ← file C eid
      let ret ← call C.clt_id eid f.file_data
      update C eid ({ · with data_stat := .none })
      update C eid ({ · with attr_stat := .none })
      pure ret

/-- `extent_client::flush_rm_handler`. -/
def flush_rm_handler (eid : ExtentId) : Prog Fault ι σ Status := do
  update C eid ({ · with data_stat := .none })
  update C eid ({ · with attr_stat := .none })
  pure OK

/-- `extent_client::get_attr_handler`. -/
def get_attr_handler (eid : ExtentId) : Prog Fault ι σ (Status × Attr) := do
  let f ← file C eid
  pure (OK, f.file_attr)

end Client

/-- An `extent_client` as its user sees it. -/
structure Ec (ε ι σ : Type) where
  create : UInt32 → ExtentId → Prog ε ι σ (Status × ExtentId)
  get : ExtentId → Bytes → Prog ε ι σ (Status × Bytes)
  getattr : ExtentId → Attr → Prog ε ι σ (Status × Attr)
  put : ExtentId → Bytes → Prog ε ι σ Status
  remove : ExtentId → Prog ε ι σ Status

/-- The extent client of this process. -/
def Client.ec {ι σ : Type} (C : Host σ) (cl : Calls Fault ι σ) : Ec Fault ι σ where
  create := Client.create C cl
  get := Client.get C cl
  getattr := Client.getattr C cl
  put := Client.put C cl
  remove := Client.remove C cl

end Yfs.Extent
