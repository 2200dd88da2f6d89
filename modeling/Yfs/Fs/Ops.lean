import Yfs.Fs.Directory

/-!
# The operations of the file system

`yfs_client`: every operation takes the locks of the inodes it works on, reads a whole
file or directory with `ec->get`, changes it in memory and writes it back with `ec->put`.
The code is written over any extent client `ec`; lock 0 is `create_flag`.

`mode` arguments are not used by the source and left out. A result that is returned through
a reference is `none` if the source does not assign it.
-/

namespace Yfs.Fs

open Extent (Bytes Attr Ec Fault toInt T_DIR T_FILE T_LINK)

/-- `yfs_client::xxstatus`. -/
inductive Status where
  | ok
  | rpcerr
  | noent
  | ioerr
  | exist
  | creerr
  | wrterr
  | readerr
  deriving DecidableEq, Repr

/-- `s.erase(pos, len)`. -/
def erase (s : Bytes) (pos len : ℕ) : Option Bytes :=
  if s.length < pos then none else some (s.take pos ++ s.drop (pos + len))

/-- `s.replace(pos, len, t)`. -/
def replace (s : Bytes) (pos len : ℕ) (t : Bytes) : Option Bytes :=
  if s.length < pos then none else some (s.take pos ++ t ++ s.drop (pos + len))

/-- `char fill[length]`, all zero. -/
def fill (length : Int) : Option Bytes :=
  if length < 0 then none else some (List.replicate length.toNat 0)

/-- What `write` makes of the content: `off_t off` is signed, and `int file_size` and
`int length` lose all but 32 bits of what they are given. -/
def writeAt (file_str : Bytes) (off : Int64) (data : Bytes) : Except Fault Bytes :=
  let file_size := toInt file_str.length
  if off.toInt < file_size then
    -- a negative offset is a huge position
    match replace file_str off.toUInt64.toNat data.length data with
    | some s => .ok s
    | none => .error .outOfRange
  else
    match fill (off.toInt - file_size).toInt32.toInt with
    | some zeros => .ok (file_str ++ zeros ++ data)
    | none => .error .badLength

/-- What `read` returns of the content. -/
def readAt (file_str : Bytes) (size : UInt64) (off : Int64) : Bytes :=
  if file_str.length ≤ off.toUInt64.toNat then []
  else (file_str.drop off.toUInt64.toNat).take size.toNat

/-- What `setattr` makes of the content, with the size `a_size` it was told. -/
def resize (file_str : Bytes) (a_size : UInt32) (size : UInt64) : Except Fault Bytes :=
  if size < a_size.toUInt64 then
    match erase file_str size.toNat a_size.toNat with
    | some s => .ok s
    | none => .error .outOfRange
  else
    match fill (toInt (size - a_size.toUInt64).toNat) with
    | some zeros => .ok (file_str ++ zeros)
    | none => .error .badLength

section Ops

variable {σ : Type} (ec : Ec Fault Inum σ)

/-- A value, or a fault. -/
def lift {α : Type} : Except Fault α → Prog Fault Inum σ α
  | .ok a => pure a
  | .error e => .fail e

/-- `yfs_client::yfs_client`: the root directory is written. Whether that worked is only printed. -/
def yfs_client : Prog Fault Inum σ Unit := do
  let _ ← ec.put 1 []
  pure ()

/-- The common body of `isfile`, `islink` and `isdir`, with the type they ask for. -/
def isType (type : UInt32) (inum : Inum) : Prog Fault Inum σ Bool := do
  .lock inum
  let (ret, a) ← ec.getattr inum {}
  if ret ≠ Extent.OK then
    .unlock inum
    pure false
  else if a.type = type then
    .unlock inum
    pure true
  else
    .unlock inum
    pure false

/-- `yfs_client::isfile`. -/
def isfile (inum : Inum) : Prog Fault Inum σ Bool := isType ec T_FILE inum

/-- `yfs_client::islink`. -/
def islink (inum : Inum) : Prog Fault Inum σ Bool := isType ec T_LINK inum

/-- `yfs_client::isdir`. -/
def isdir (inum : Inum) : Prog Fault Inum σ Bool := isType ec T_DIR inum

/-- `yfs_client::getfile`; of the `fileinfo` and of the attributes it is copied from all
fields but `type` are the same. -/
def getfile (inum : Inum) : Prog Fault Inum σ (Status × Option Attr) := do
  .lock inum
  let (ret, a) ← ec.getattr inum {}
  let r := if ret ≠ Extent.OK then (.ioerr, none) else (.ok, some a)
  .unlock inum
  pure r

/-- `yfs_client::getdir`, whose `dirinfo` has the times. -/
def getdir (inum : Inum) : Prog Fault Inum σ (Status × Option (UInt32 × UInt32 × UInt32)) := do
  .lock inum
  let (ret, a) ← ec.getattr inum {}
  let r := if ret ≠ Extent.OK then (.ioerr, none) else (.ok, some (a.atime, a.mtime, a.ctime))
  .unlock inum
  pure r

/-- `yfs_client::setattr`. -/
def setattr (ino : Inum) (size : UInt64) : Prog Fault Inum σ Status := do
  .lock ino
  let (ret, a) ← ec.getattr ino {}
  if ret ≠ Extent.OK then
    .unlock ino
    pure .rpcerr
  else if a.size.toUInt64 = size then
    .unlock ino
    pure .ok
  else
    let (ret, file_str) ← ec.get ino []
    if ret ≠ Extent.OK then
      .unlock ino
      pure .rpcerr
    else
      let file_str ← lift (resize file_str a.size size)
      let ret ← ec.put ino file_str
      if ret ≠ Extent.OK then
        .unlock ino
        pure .rpcerr
      else
        .unlock ino
        pure .ok

/-- The common body of `create` and `mkdir`, with the type they differ in. -/
def createType (type : UInt32) (parent : Inum) (name : Bytes) :
    Prog Fault Inum σ (Status × Option Inum) := do
  .lock 0
  .lock parent
  let (ret, dir_str) ← ec.get parent []
  if ret ≠ Extent.OK then
    .unlock 0
    .unlock parent
    pure (.readerr, none)
  else
    let direct := Directory.ofString dir_str
    let r ← (if direct.find name ≠ 0 then pure (.exist, none)
      else do
        let (ret, ino_out) ← ec.create type 0
        if ret ≠ Extent.OK then pure (.creerr, some ino_out)
        else
          let direct := direct.addent { name := name, inum := ino_out }
          let ret ← ec.put parent direct.tostring
          if ret ≠ Extent.OK then pure (.wrterr, some ino_out) else pure (.ok, some ino_out))
    .unlock 0
    .unlock parent
    pure r

/-- `yfs_client::create`. -/
def create (parent : Inum) (name : Bytes) : Prog Fault Inum σ (Status × Option Inum) :=
  createType ec T_FILE parent name

/-- `yfs_client::mkdir`. -/
def mkdir (parent : Inum) (name : Bytes) : Prog Fault Inum σ (Status × Option Inum) :=
  createType ec T_DIR parent name

/-- `yfs_client::symlink`: like `create`, but the text goes into the new inode before it is
entered, and whether that worked is not looked at. -/
def symlink (parent : Inum) (link name : Bytes) : Prog Fault Inum σ (Status × Option Inum) := do
  .lock 0
  .lock parent
  let (ret, dir_str) ← ec.get parent []
  if ret ≠ Extent.OK then
    .unlock 0
    .unlock parent
    pure (.readerr, none)
  else
    let direct := Directory.ofString dir_str
    let r ← (if direct.find name ≠ 0 then pure (.exist, none)
      else do
        let (ret, ino_out) ← ec.create T_LINK 0
        if ret ≠ Extent.OK then pure (.creerr, some ino_out)
        else
          let _ ← ec.put ino_out link
          let direct := direct.addent { name := name, inum := ino_out }
          let ret ← ec.put parent direct.tostring
          if ret ≠ Extent.OK then pure (.wrterr, some ino_out) else pure (.ok, some ino_out))
    .unlock 0
    .unlock parent
    pure r

/-- `yfs_client::lookup`: the status, `found` and `ino_out`. -/
def lookup (parent : Inum) (name : Bytes) : Prog Fault Inum σ (Status × Option (Bool × Inum)) := do
  .lock parent
  let (ret, dir_str) ← ec.get parent []
  if ret ≠ Extent.OK then
    .unlock parent
    pure (.readerr, none)
  else
    let ino_out := (Directory.ofString dir_str).find name
    .unlock parent
    pure (if ino_out = 0 then (.noent, some (false, 0)) else (.ok, some (true, ino_out)))

/-- `yfs_client::readdir`. -/
def readdir (dir : Inum) : Prog Fault Inum σ (Status × List Dirent) := do
  .lock dir
  let (ret, dir_str) ← ec.get dir []
  if ret ≠ Extent.OK then
    .unlock dir
    pure (.readerr, [])
  else
    let list := (Directory.ofString dir_str).getdir
    .unlock dir
    pure (.ok, list)

/-- `yfs_client::read`. -/
def read (ino : Inum) (size : UInt64) (off : Int64) : Prog Fault Inum σ (Status × Bytes) := do
  .lock ino
  let (ret, file_str) ← ec.get ino []
  if ret ≠ Extent.OK then
    .unlock ino
    pure (.rpcerr, [])
  else
    let data := readAt file_str size off
    .unlock ino
    pure (.ok, data)

/-- `yfs_client::write`, with the `size` bytes at `data`. `bytes_written` is not assigned. -/
def write (ino : Inum) (off : Int64) (data : Bytes) : Prog Fault Inum σ Status := do
  .lock ino
  let (ret, file_str) ← ec.get ino []
  if ret ≠ Extent.OK then
    .unlock ino
    pure .rpcerr
  else
    let file_str ← lift (writeAt file_str off data)
    let ret ← ec.put ino file_str
    .unlock ino
    pure (if ret ≠ Extent.OK then .rpcerr else .ok)

/-- `yfs_client::unlink`. `finum = direct.find(name_str)==0` is the comparison's value, and
`!finum == 0` is true only if `finum` is not 0, which it is not here: nothing is removed. -/
def unlink (parent : Inum) (name : Bytes) : Prog Fault Inum σ Status := do
  .lock parent
  let (ret, dir_str) ← ec.get parent []
  if ret ≠ Extent.OK then
    .unlock parent
    pure .readerr
  else
    let direct := Directory.ofString dir_str
    let finum : Inum := if direct.find name = 0 then 1 else 0
    if finum ≠ 0 then
      .unlock parent
      pure .ok
    else
      let direct := direct.delent name
      let ret ← ec.put parent direct.tostring
      let r : Status := if ret ≠ Extent.OK then .wrterr else .ok
      let () ← (if (if finum = 0 then 1 else 0) = 0 then do
        .lock finum
        let _ ← ec.remove finum
        .unlock finum
      else pure ())
      .unlock parent
      pure r

/-- `yfs_client::readlink`. A failed `get` returns with the lock. -/
def readlink (ino : Inum) : Prog Fault Inum σ (Status × Bytes) := do
  .lock ino
  let (ret, link) ← ec.get ino []
  if ret ≠ Extent.OK then
    pure (.rpcerr, link)
  else
    .unlock ino
    pure (.ok, link)

end Ops

end Yfs.Fs
