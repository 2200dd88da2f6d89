import Yfs.Fs.Readdir

/-!
# The requests of the kernel

`fuse.cc`: the handlers that `libfuse` calls for the requests of the kernel. A handler makes one or
more calls of `yfs_client` and replies once; in between the locks are free.

What a handler prints is left out, and so are the arguments that it ignores: `mode`, `rdev` and
`struct fuse_file_info`. `const char *` arguments are the bytes before the zero.
-/

namespace Yfs.Fs

open Extent (Bytes Ec Fault T_DIR T_FILE)

/-- The error numbers that are replied. -/
def ENOENT : ℕ := 2
@[inherit_doc ENOENT] def EEXIST : ℕ := 17
@[inherit_doc ENOENT] def ENOSYS : ℕ := 38
@[inherit_doc ENOENT] def ENOTEMPTY : ℕ := 39

/-- The types of files in `st_mode`. -/
def S_IFREG : UInt32 := 0x8000
@[inherit_doc S_IFREG] def S_IFDIR : UInt32 := 0x4000
@[inherit_doc S_IFREG] def S_IFLNK : UInt32 := 0xA000

/-- The bit of `to_set` for `st_size`. -/
def FUSE_SET_ATTR_SIZE : Int32 := 8

/-- `struct stat`, as `bzero` leaves it where nothing is set. -/
structure Stat where
  st_ino : Inum := 0
  st_mode : UInt32 := 0
  st_nlink : UInt64 := 0
  st_atime : UInt64 := 0
  st_mtime : UInt64 := 0
  st_ctime : UInt64 := 0
  st_size : Int64 := 0
  deriving DecidableEq, Repr

/-- `struct fuse_entry_param`. Timeouts and generations are always zero. -/
structure EntryParam where
  ino : Inum
  attr : Stat
  generation : ℕ := 0
  attr_timeout : ℕ := 0
  entry_timeout : ℕ := 0
  deriving DecidableEq, Repr

/-- What is replied, with the function of `libfuse` that it is passed to. -/
inductive KernelReply where
  | err (errno : ℕ)
  | attr (st : Stat) (attr_timeout : ℕ)
  | entry (e : EntryParam)
  | create (e : EntryParam)
  | buf (b : Bytes)
  | write (count : UInt64)
  | opened
  | statfs (f_namemax f_bsize : ℕ)
  | readlink (link : Bytes)
  deriving DecidableEq, Repr

/-- The reply to a `readdir`. -/
def FuseReply.toKernel : FuseReply → KernelReply
  | err errno => .err errno
  | buf b => .buf b

section Handlers

variable {σ : Type} (ec : Ec Fault Inum σ)

/-- `getattr`: what is neither a file nor a directory is a link. `isfile` is called once more for
the line that is printed. -/
def getattr (inum : Inum) : Prog Fault Inum σ (Status × Stat) := do
  let st : Stat := { st_ino := inum }
  let _ ← isfile ec inum
  let file ← isfile ec inum
  if file then
    match ← getfile ec inum with
    | (.ok, some info) => pure (.ok, { st with
        st_mode := S_IFREG ||| 0o666
        st_nlink := 1
        st_atime := info.atime.toUInt64
        st_mtime := info.mtime.toUInt64
        st_ctime := info.ctime.toUInt64
        st_size := info.size.toUInt64.toInt64 })
    | (ret, _) => pure (ret, st)
  else
    let dir ← isdir ec inum
    if dir then
      match ← getdir ec inum with
      | (.ok, some (atime, mtime, ctime)) => pure (.ok, { st with
          st_mode := S_IFDIR ||| 0o777
          st_nlink := 2
          st_atime := atime.toUInt64
          st_mtime := mtime.toUInt64
          st_ctime := ctime.toUInt64 })
      | (ret, _) => pure (ret, st)
    else
      match ← getfile ec inum with
      | (.ok, some info) => pure (.ok, { st with
          st_mode := S_IFLNK ||| 0o777
          st_nlink := 1
          st_atime := info.atime.toUInt64
          st_mtime := info.mtime.toUInt64
          st_ctime := info.ctime.toUInt64
          st_size := info.size.toUInt64.toInt64 })
      | (ret, _) => pure (ret, st)

/-- `fuseserver_getattr`. -/
def fuseserver_getattr (ino : Inum) : Prog Fault Inum σ KernelReply := do
  let (ret, st) ← getattr ec ino
  if ret ≠ .ok then pure (.err ENOENT) else pure (.attr st 0)

/-- `fuseserver_setattr`. Whether anything worked is not looked at. -/
def fuseserver_setattr (ino : Inum) (st_size : Int64) (to_set : Int32) :
    Prog Fault Inum σ KernelReply := do
  if FUSE_SET_ATTR_SIZE &&& to_set ≠ 0 then
    let () ← (if to_set &&& FUSE_SET_ATTR_SIZE ≠ 0 then do
      let _ ← setattr ec ino st_size.toUInt64
    else pure ())
    let (_, st) ← getattr ec ino
    pure (.attr st 0)
  else pure (.err ENOSYS)

/-- `fuseserver_read`. -/
def fuseserver_read (ino : Inum) (size : UInt64) (off : Int64) :
    Prog Fault Inum σ KernelReply := do
  let (r, buf) ← read ec ino size off
  if r = .ok then pure (.buf buf) else pure (.err ENOENT)

/-- `fuseserver_write`, with the `size` bytes at `buf`. -/
def fuseserver_write (ino : Inum) (buf : Bytes) (off : Int64) : Prog Fault Inum σ KernelReply := do
  let r ← write ec ino off buf
  if r = .ok then pure (.write (.ofNat buf.length)) else pure (.err ENOENT)

/-- `fuseserver_createhelper`: the status, and what is in `e` if it is used then. -/
def fuseserver_createhelper (parent : Inum) (name : Bytes) (type : UInt32) :
    Prog Fault Inum σ (Status × Option EntryParam) := do
  match ← (if type = T_FILE then create ec parent name else mkdir ec parent name) with
  | (.ok, some inum) =>
    let (ret, attr) ← getattr ec inum
    pure (ret, some { ino := inum, attr })
  | (ret, _) => pure (ret, none)

/-- The common body of `fuseserver_create`, `fuseserver_mknod` and `fuseserver_mkdir`, with the type
and the reply. -/
def makeNode (type : UInt32) (reply : EntryParam → KernelReply) (parent : Inum) (name : Bytes) :
    Prog Fault Inum σ KernelReply := do
  match ← fuseserver_createhelper ec parent name type with
  | (.ok, some e) => pure (reply e)
  | (ret, _) => if ret = .exist then pure (.err EEXIST) else pure (.err ENOENT)

/-- `fuseserver_create`. -/
def fuseserver_create (parent : Inum) (name : Bytes) : Prog Fault Inum σ KernelReply :=
  makeNode ec T_FILE .create parent name

/-- `fuseserver_mknod`. -/
def fuseserver_mknod (parent : Inum) (name : Bytes) : Prog Fault Inum σ KernelReply :=
  makeNode ec T_FILE .entry parent name

/-- `fuseserver_mkdir`. -/
def fuseserver_mkdir (parent : Inum) (name : Bytes) : Prog Fault Inum σ KernelReply :=
  makeNode ec T_DIR .entry parent name

/-- `fuseserver_lookup`: only `found` says whether it worked. -/
def fuseserver_lookup (parent : Inum) (name : Bytes) : Prog Fault Inum σ KernelReply := do
  match ← lookup ec parent name with
  | (_, some (true, ino)) =>
    let (_, attr) ← getattr ec ino
    pure (.entry { ino, attr })
  | _ => pure (.err ENOENT)

/-- `fuseserver_open`. -/
def fuseserver_open (_ino : Inum) : Prog Fault Inum σ KernelReply := pure .opened

/-- `fuseserver_unlink`. -/
def fuseserver_unlink (parent : Inum) (name : Bytes) : Prog Fault Inum σ KernelReply := do
  let r ← unlink ec parent name
  if r = .ok then pure (.err 0)
  else if r = .noent then pure (.err ENOENT)
  else pure (.err ENOTEMPTY)

/-- `fuseserver_statfs`. -/
def fuseserver_statfs : Prog Fault Inum σ KernelReply := pure (.statfs 255 512)

/-- `fuseserver_symlink`. -/
def fuseserver_symlink (link : Bytes) (parent : Inum) (name : Bytes) :
    Prog Fault Inum σ KernelReply := do
  match ← symlink ec parent link name with
  | (.ok, some id) =>
    let (ret, attr) ← getattr ec id
    if ret ≠ .ok then pure (.err ENOENT) else pure (.entry { ino := id, attr })
  | (ret, _) => if ret = .exist then pure (.err EEXIST) else pure (.err ENOENT)

/-- `fuseserver_readlink`. -/
def fuseserver_readlink (ino : Inum) : Prog Fault Inum σ KernelReply := do
  let (ret, buf) ← readlink ec ino
  if ret ≠ .ok then pure (.err ENOENT) else pure (.readlink (c_str buf))

end Handlers

/-- The requests that have a handler, as `main` enters them in `fuseserver_oper`. -/
inductive Request where
  | getattr (ino : Inum)
  | setattr (ino : Inum) (st_size : Int64) (to_set : Int32)
  | read (ino : Inum) (size : UInt64) (off : Int64)
  | write (ino : Inum) (buf : Bytes) (off : Int64)
  | create (parent : Inum) (name : Bytes)
  | mknod (parent : Inum) (name : Bytes)
  | lookup (parent : Inum) (name : Bytes)
  | readdir (ino : Inum) (size off : ℕ)
  | openFile (ino : Inum)
  | mkdir (parent : Inum) (name : Bytes)
  | unlink (parent : Inum) (name : Bytes)
  | statfs
  | symlink (link : Bytes) (parent : Inum) (name : Bytes)
  | readlink (ino : Inum)
  deriving DecidableEq, Repr

/-- The handler of a request. -/
def Request.serve {σ : Type} (ec : Ec Fault Inum σ) (fuse : Fuse) :
    Request → Prog Fault Inum σ KernelReply
  | getattr ino => fuseserver_getattr ec ino
  | setattr ino st_size to_set => fuseserver_setattr ec ino st_size to_set
  | read ino size off => fuseserver_read ec ino size off
  | write ino buf off => fuseserver_write ec ino buf off
  | create parent name => fuseserver_create ec parent name
  | mknod parent name => fuseserver_mknod ec parent name
  | lookup parent name => fuseserver_lookup ec parent name
  | readdir ino size off => do
    let r ← fuseserver_readdir ec fuse ino size off
    pure r.toKernel
  | openFile ino => fuseserver_open ino
  | mkdir parent name => fuseserver_mkdir ec parent name
  | unlink parent name => fuseserver_unlink ec parent name
  | statfs => fuseserver_statfs
  | symlink link parent name => fuseserver_symlink ec link parent name
  | readlink ino => fuseserver_readlink ec ino

end Yfs.Fs
