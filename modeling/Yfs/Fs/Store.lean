import Yfs.Extent.Server
import Yfs.Fs.Ops

/-!
# The file system without caches

The calls of `yfs_client` with their replies, and the plainest store they can be made on: an
extent client that keeps the files themselves, and gives new files the numbers it is told
(`Store.ec`). What the calls do there, one at a time, is what they are meant to do
everywhere; the code is the same.
-/

namespace Yfs.Fs

open Extent (Bytes Attr Ec Fault File OK T_DIR T_FILE T_LINK)

/-- The calls of the file system whose replies do not depend on sizes or times. To `mount` is to
run the constructor while nobody is at the root directory: the source takes no lock there. -/
inductive Call where
  | mount
  | isfile (inum : Inum)
  | islink (inum : Inum)
  | isdir (inum : Inum)
  | create (parent : Inum) (name : Bytes)
  | mkdir (parent : Inum) (name : Bytes)
  | symlink (parent : Inum) (link name : Bytes)
  | lookup (parent : Inum) (name : Bytes)
  | readdir (dir : Inum)
  | unlink (parent : Inum) (name : Bytes)
  | read (ino : Inum) (size : UInt64) (off : Int64)
  | write (ino : Inum) (off : Int64) (data : Bytes)
  | readlink (ino : Inum)
  deriving DecidableEq, Repr

/-- What they reply. -/
inductive Reply where
  | answer (b : Bool)
  | made (st : Status) (ino : Option Inum)
  | found (st : Status) (r : Option (Bool × Inum))
  | entries (st : Status) (list : List Dirent)
  | bytes (st : Status) (buf : Bytes)
  | status (st : Status)
  deriving DecidableEq, Repr

namespace Call

/-- The code of a call, on an extent client. -/
def prog {σ : Type} (ec : Ec Fault Inum σ) : Call → Prog Fault Inum σ Reply
  | mount => do
    .lock 1
    Fs.yfs_client ec
    .unlock 1
    pure (.status .ok)
  | isfile inum => do
    let b ← Fs.isfile ec inum
    pure (.answer b)
  | islink inum => do
    let b ← Fs.islink ec inum
    pure (.answer b)
  | isdir inum => do
    let b ← Fs.isdir ec inum
    pure (.answer b)
  | create parent name => do
    let (st, ino) ← Fs.create ec parent name
    pure (.made st ino)
  | mkdir parent name => do
    let (st, ino) ← Fs.mkdir ec parent name
    pure (.made st ino)
  | symlink parent link name => do
    let (st, ino) ← Fs.symlink ec parent link name
    pure (.made st ino)
  | lookup parent name => do
    let (st, r) ← Fs.lookup ec parent name
    pure (.found st r)
  | readdir dir => do
    let (st, list) ← Fs.readdir ec dir
    pure (.entries st list)
  | unlink parent name => do
    let st ← Fs.unlink ec parent name
    pure (.status st)
  | read ino size off => do
    let (st, buf) ← Fs.read ec ino size off
    pure (.bytes st buf)
  | write ino off data => do
    let st ← Fs.write ec ino off data
    pure (.status st)
  | readlink ino => do
    let (st, buf) ← Fs.readlink ec ino
    pure (.bytes st buf)

/-- The inode that a call is on. -/
def inum : Call → Inum
  | mount => 1
  | isfile i | islink i | isdir i | create i _ | mkdir i _ | symlink i _ _ | lookup i _ | readdir i
  | unlink i _ | read i _ _ | write i _ _ | readlink i => i

end Call

/-- The files by their numbers, and the numbers that new files will get. -/
structure Store where
  files : Inum → Option File
  names : List Inum

namespace Store

/-- The type of an inode as it is kept. -/
abbrev short (type : UInt32) : Int16 := type.toUInt16.toInt16

/-- An extent client that keeps the files itself. -/
def ec : Ec Fault Inum Store where
  create type _ := .atom (fun s =>
    match s.names with
    | [] => none
    | i :: names => some ((OK, i), ⟨Function.update s.files i (some ⟨short type, []⟩), names⟩)) .ret
  get id _ := .atom (fun s => (s.files id).map fun f => ((OK, f.data), s)) .ret
  getattr id _ := .atom (fun s => (s.files id).map fun f =>
    ((OK, { type := f.type.toInt32.toUInt32, size := .ofNat f.data.length }), s)) .ret
  put id buf := .atom (fun s => (s.files id).map fun f =>
    (OK, { s with files := Function.update s.files id (some { f with data := buf }) })) .ret
  remove id := .atom (fun s => (s.files id).map fun _ =>
    (OK, { s with files := Function.update s.files id none })) .ret

/-- Calls made one after the other. -/
def replay : List Call → Store → Option (List Reply × Store)
  | [], s => some ([], s)
  | c :: cs, s =>
    match (c.prog ec).run s with
    | .done r s => (replay cs s).map fun x => (r :: x.1, x.2)
    | .failed _ _ | .blocked _ => none

section Run

variable {α : Type} {s : Store} {id i : Inum} {f : File} {names : List Inum}

theorem run_get {k : Extent.Status × Bytes → Prog Fault Inum Store α} {buf : Bytes}
    (h : s.files id = some f) : (ec.get id buf >>= k).run s = (k (OK, f.data)).run s := by
  simp only [ec, Prog.atom_bind, Prog.ret_bind, Prog.run, h, Option.map_some]

theorem run_getattr {k : Extent.Status × Attr → Prog Fault Inum Store α} {a : Attr}
    (h : s.files id = some f) : (ec.getattr id a >>= k).run s =
      (k (OK, { type := f.type.toInt32.toUInt32, size := .ofNat f.data.length })).run s := by
  simp only [ec, Prog.atom_bind, Prog.ret_bind, Prog.run, h, Option.map_some]

theorem run_put {k : Extent.Status → Prog Fault Inum Store α} {buf : Bytes}
    (h : s.files id = some f) : (ec.put id buf >>= k).run s =
      (k OK).run { s with files := Function.update s.files id (some { f with data := buf }) } := by
  simp only [ec, Prog.atom_bind, Prog.ret_bind, Prog.run, h, Option.map_some]

theorem run_create {k : Extent.Status × Inum → Prog Fault Inum Store α} {type : UInt32}
    (h : s.names = i :: names) : (ec.create type id >>= k).run s =
      (k (OK, i)).run ⟨Function.update s.files i (some ⟨short type, []⟩), names⟩ := by
  simp only [ec, Prog.atom_bind, Prog.ret_bind, Prog.run, h]

theorem run_create_blocked {k : Extent.Status × Inum → Prog Fault Inum Store α} {type : UInt32}
    (h : s.names = []) : (ec.create type id >>= k).run s = .blocked s := by
  simp only [ec, Prog.atom_bind, Prog.run, h]

end Run

/-! ## What the calls do -/

section Calls

variable {s : Store} {p i ino : Inum} {f : File} {names : List Inum} {name link data : Bytes}
  {type : UInt32} {off : Int64} {size : UInt64}

/-- The directory with one more entry. -/
def enter (f : File) (name : Bytes) (i : Inum) : File :=
  { f with data := f.data ++ Directory.entryString ⟨name, i⟩ }

theorem run_mount (hf : s.files 1 = some f) : (Call.mount.prog ec).run s = .done (.status .ok)
    { s with files := Function.update s.files 1 (some { f with data := [] }) } := by
  simp only [Call.prog, yfs_client, Prog.lock_bind, Prog.run, bind_assoc, run_put hf, Prog.ret_bind,
    Prog.unlock_bind, Prog.pure_eq]

theorem run_isType (hf : s.files i = some f) :
    (isType ec type i).run s = .done (decide (f.type.toInt32.toUInt32 = type)) s := by
  simp only [isType, Prog.lock_bind, Prog.run, run_getattr hf, ne_eq, not_true_eq_false, if_false]
  split
  case isTrue h => simp only [Prog.unlock_bind, Prog.run, Prog.pure_eq, h, decide_true]
  case isFalse h => simp only [Prog.unlock_bind, Prog.run, Prog.pure_eq, h, decide_false]

theorem run_createType_exist (hf : s.files p = some f)
    (hname : (Directory.ofString f.data).find name ≠ 0) :
    (createType ec type p name).run s = .done (.exist, none) s := by
  simp only [createType, Prog.lock_bind, Prog.run, run_get hf, ne_eq, not_true_eq_false,
    if_false, hname, not_false_eq_true, if_true, Prog.ret_bind, Prog.unlock_bind, Prog.pure_eq]

theorem run_createType_new (hf : s.files p = some f)
    (hname : (Directory.ofString f.data).find name = 0) (hn : s.names = i :: names) (hi : p ≠ i) :
    (createType ec type p name).run s = .done (.ok, some i)
      ⟨Function.update (Function.update s.files i (some ⟨short type, []⟩)) p
        (some (enter f name i)), names⟩ := by
  have hf' : (⟨Function.update s.files i (some ⟨short type, []⟩), names⟩ : Store).files
      p = some f := by
    show Function.update _ _ _ p = _
    rw [Function.update_of_ne hi, hf]
  simp only [createType, Prog.lock_bind, Prog.run, run_get hf, ne_eq, not_true_eq_false,
    if_false, hname,
    bind_assoc, run_create hn, run_put hf', Prog.ret_bind, Prog.unlock_bind, Prog.pure_eq]
  rfl

theorem run_createType_blocked (hf : s.files p = some f)
    (hname : (Directory.ofString f.data).find name = 0) (hn : s.names = []) :
    (createType ec type p name).run s = .blocked s := by
  simp only [createType, Prog.lock_bind, Prog.run, run_get hf, ne_eq, not_true_eq_false,
    if_false, hname, bind_assoc, run_create_blocked hn]

theorem run_symlink_exist (hf : s.files p = some f)
    (hname : (Directory.ofString f.data).find name ≠ 0) :
    (symlink ec p link name).run s = .done (.exist, none) s := by
  simp only [symlink, Prog.lock_bind, Prog.run, run_get hf, ne_eq, not_true_eq_false,
    if_false, hname, not_false_eq_true, if_true, Prog.ret_bind, Prog.unlock_bind, Prog.pure_eq]

theorem run_symlink_new (hf : s.files p = some f)
    (hname : (Directory.ofString f.data).find name = 0) (hn : s.names = i :: names) (hi : p ≠ i) :
    (symlink ec p link name).run s = .done (.ok, some i)
      ⟨Function.update (Function.update s.files i (some ⟨short T_LINK, link⟩)) p
        (some (enter f name i)), names⟩ := by
  have hnew : (⟨Function.update s.files i (some ⟨short T_LINK, []⟩), names⟩ : Store).files i =
      some ⟨short T_LINK, []⟩ := Function.update_self ..
  have hf' : (⟨Function.update s.files i (some ⟨short T_LINK, link⟩), names⟩ : Store).files p =
      some f := by
    show Function.update _ _ _ p = _
    rw [Function.update_of_ne hi, hf]
  simp only [symlink, Prog.lock_bind, Prog.run, run_get hf, ne_eq, not_true_eq_false,
    if_false, hname,
    bind_assoc, run_create hn, run_put hnew, Function.update_idem, run_put hf', Prog.ret_bind,
    Prog.unlock_bind, Prog.pure_eq]
  rfl

theorem run_symlink_blocked (hf : s.files p = some f)
    (hname : (Directory.ofString f.data).find name = 0) (hn : s.names = []) :
    (symlink ec p link name).run s = .blocked s := by
  simp only [symlink, Prog.lock_bind, Prog.run, run_get hf, ne_eq, not_true_eq_false,
    if_false, hname, bind_assoc, run_create_blocked hn]

theorem run_lookup (hf : s.files p = some f) : (lookup ec p name).run s = .done
    (if (Directory.ofString f.data).find name = 0 then (.noent, some (false, 0))
      else (.ok, some (true, (Directory.ofString f.data).find name))) s := by
  simp only [lookup, Prog.lock_bind, Prog.run, run_get hf, ne_eq, not_true_eq_false, if_false,
    Prog.unlock_bind, Prog.pure_eq]

theorem run_readdir (hf : s.files p = some f) :
    (readdir ec p).run s = .done (.ok, parse 0 f.data) s := by
  simp only [readdir, Prog.lock_bind, Prog.run, run_get hf, ne_eq, not_true_eq_false, if_false,
    Prog.unlock_bind, Prog.pure_eq]
  rfl

/-- What `unlink` leaves of a directory. -/
def remove (f : File) (name : Bytes) : File :=
  if (Directory.ofString f.data).find name = 0 then f
  else { f with data := ((Directory.ofString f.data).delent name).tostring }

theorem run_unlink (hf : s.files p = some f) : (unlink ec p name).run s = .done .ok
    { s with files := Function.update s.files p (some (remove f name)) } := by
  simp only [unlink, Prog.lock_bind, Prog.run, run_get hf, ne_eq, not_true_eq_false,
    if_false, remove]
  split
  case isTrue h =>
    have h1 : ¬ (1 : Inum) = 0 := by decide
    simp only [h1, not_false_eq_true, if_true, Prog.unlock_bind, Prog.run, Prog.pure_eq, ← hf,
      Function.update_eq_self]
  case isFalse h =>
    simp only [not_true_eq_false, if_false, run_put hf, if_true, one_ne_zero, Prog.ret_bind,
      Prog.unlock_bind, Prog.run, Prog.pure_eq]

theorem run_read (hf : s.files ino = some f) :
    (read ec ino size off).run s = .done (.ok, readAt f.data size off) s := by
  simp only [read, Prog.lock_bind, Prog.run, run_get hf, ne_eq, not_true_eq_false, if_false,
    Prog.unlock_bind, Prog.pure_eq]

theorem run_write {buf : Bytes} (hf : s.files ino = some f)
    (hw : writeAt f.data off data = .ok buf) :
    (write ec ino off data).run s = .done .ok
      { s with files := Function.update s.files ino (some { f with data := buf }) } := by
  simp only [write, Prog.lock_bind, Prog.run, run_get hf, ne_eq, not_true_eq_false,
    if_false, hw, lift, Prog.ret_bind, run_put hf, Prog.unlock_bind, Prog.pure_eq]

theorem run_write_failed {e : Fault} (hf : s.files ino = some f)
    (hw : writeAt f.data off data = .error e) : (write ec ino off data).run s = .failed e s := by
  simp only [write, Prog.lock_bind, Prog.run, run_get hf, ne_eq, not_true_eq_false,
    if_false, hw, lift, Prog.fail_bind]

theorem run_readlink (hf : s.files ino = some f) :
    (readlink ec ino).run s = .done (.ok, f.data) s := by
  simp only [readlink, Prog.lock_bind, Prog.run, run_get hf, ne_eq, not_true_eq_false, if_false,
    Prog.unlock_bind, Prog.pure_eq]

end Calls

end Store

end Yfs.Fs
