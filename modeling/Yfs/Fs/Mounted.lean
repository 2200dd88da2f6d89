import Yfs.Fs.Contracts
import Yfs.Fs.Fuse

/-!
# The mounted file system

What the kernel can count on: a machine on namespaces that answers requests (`Replies`) and moves
on (`afterRequest`), with real file attributes, contents that are cut and filled as `truncate` and
`pwrite` do it, and directories in pages. The handlers of `fuse.cc` are that machine, on any
extent client that keeps files (`EcKeeps.serve`).

The kernel asks for what it knows to be there and of the right type, and for names without a slash
(`Legal`); offsets and lengths are below 2^31.
-/

namespace Yfs.Fs

open Extent (Bytes Ec Fault File T_DIR T_FILE T_LINK fit)

namespace Node

/-- The type and the permissions of an inode. -/
def mode : Node → UInt32
  | file _ => S_IFREG ||| 0o666
  | dir _ => S_IFDIR ||| 0o777
  | link _ => S_IFLNK ||| 0o777

/-- The links to it, as they are told. -/
def nlink : Node → UInt64
  | file _ | link _ => 1
  | dir _ => 2

/-- Its size, as it is told: lengths are kept in 32 bits, and directories have none. -/
def size : Node → ℕ
  | file v => v.length % 2 ^ 32
  | dir _ => 0
  | link text => text.length % 2 ^ 32

/-- The attributes of inode `i`, which is `n`. The times are not known here. -/
structure Describes (n : Node) (i : Inum) (st : Stat) : Prop where
  ino : st.st_ino = i
  mode : st.st_mode = n.mode
  nlink : st.st_nlink = n.nlink
  size : st.st_size.toInt = n.size

end Node

namespace Request

/-- The directory, the name and the inode that a request makes, and how it is told. -/
def new : Request → Option (Inum × Bytes × Node × (EntryParam → KernelReply))
  | create d name => some (d, name, .file [], .create)
  | mknod d name => some (d, name, .file [], .entry)
  | mkdir d name => some (d, name, .dir [], .entry)
  | symlink link d name => some (d, name, .link link, .entry)
  | _ => none

/-- The size is to be set. -/
def setsSize (to_set : Int32) : Bool := FUSE_SET_ATTR_SIZE &&& to_set ≠ 0

end Request

namespace Namespace

variable (fuse : Fuse)

/-- The requests that the kernel makes. -/
def LegalRequest (ns : Namespace) : Request → Prop
  | .getattr i => ns i ≠ none
  | .setattr i st_size to_set => Request.setsSize to_set →
      (∃ v, ns i = some (.file v)) ∧ st_size.toUInt64.toNat < 2 ^ 31
  | .read i _ off => (∃ v, ns i = some (.file v)) ∧ 0 ≤ off.toInt
  | .write i buf off => (∃ v, ns i = some (.file v)) ∧ InRange off buf
  | .create d name | .mknod d name | .mkdir d name | .symlink _ d name | .lookup d name
  | .unlink d name => (∃ es, ns d = some (.dir es)) ∧ slash ∉ name
  | .readdir i _ _ => ns i ≠ none ∧ ∀ es, ns i = some (.dir es) → fuse.Carries es
  | .openFile _ | .statfs => True
  | .readlink i => ∃ text, ns i = some (.link text)

/-- The replies of a request that makes `n`. -/
def MakesNode (ns : Namespace) (d : Inum) (name : Bytes) (n : Node)
    (told : EntryParam → KernelReply) (r : KernelReply) : Prop :=
  match ns.get d name with
  | some _ => r = .err EEXIST
  | none => ∃ i st, i ≠ 0 ∧ ns i = none ∧ n.Describes i st ∧ r = told { ino := i, attr := st }

/-- The replies that a request may get. -/
def Replies (ns : Namespace) : Request → KernelReply → Prop
  | .getattr i, r => ∃ n st, ns i = some n ∧ n.Describes i st ∧ r = .attr st 0
  | .setattr i st_size to_set, r =>
    if Request.setsSize to_set then ∃ v st, ns i = some (.file v) ∧
      (Node.file (fit v st_size.toUInt64.toNat)).Describes i st ∧ r = .attr st 0
    else r = .err ENOSYS
  | .read i size off, r => ∃ v, ns i = some (.file v) ∧
      r = .buf ((v.drop off.toInt.toNat).take size.toNat)
  | .write _ buf _, r => r = .write (.ofNat buf.length)
  | .create d name, r => ns.MakesNode d name (.file []) .create r
  | .mknod d name, r => ns.MakesNode d name (.file []) .entry r
  | .mkdir d name, r => ns.MakesNode d name (.dir []) .entry r
  | .symlink link d name, r => ns.MakesNode d name (.link link) .entry r
  | .lookup d name, r =>
    match ns.get d name with
    | some i => ∃ n st, ns i = some n ∧ n.Describes i st ∧ r = .entry { ino := i, attr := st }
    | none => r = .err ENOENT
  | .readdir i size off, r =>
    match ns i with
    | some (.dir es) =>
      r = .buf (((fuse.format.buffer 0 (es.map Dirent.sent)).drop off).take size)
    | _ => r = .err ENOTDIR
  | .openFile _, r => r = .opened
  | .unlink _ _, r => r = .err 0
  | .statfs, r => r = .statfs 255 512
  | .readlink i, r => ∃ text, ns i = some (.link text) ∧ r = .readlink (c_str text)

/-- The content of a file is changed. -/
def edit (ns : Namespace) (i : Inum) (f : Bytes → Bytes) : Namespace :=
  match ns i with
  | some (.file v) => Function.update ns i (some (.file (f v)))
  | _ => ns

/-- What a request does, that has got the reply `r`. -/
def afterRequest (ns : Namespace) : Request → KernelReply → Namespace
  | .create d name, .create e => ns.add d name e.ino (.file [])
  | .mknod d name, .entry e => ns.add d name e.ino (.file [])
  | .mkdir d name, .entry e => ns.add d name e.ino (.dir [])
  | .symlink link d name, .entry e => ns.add d name e.ino (.link link)
  | .unlink d name, _ => ns.drop d name
  | .setattr i st_size to_set, _ =>
    if Request.setsSize to_set then ns.edit i (fit · st_size.toUInt64.toNat) else ns
  | .write i buf off, _ => ns.edit i (splice · off.toInt.toNat buf)
  | _, _ => ns

theorem length_fit {v : Bytes} {k : ℕ} : (fit v k).length = k := by
  rw [fit, List.length_append, List.length_take, List.length_replicate]
  omega

section Lemmas

variable {fuse : Fuse} {ns : Namespace} {d i : Inum} {name : Bytes} {n : Node} {req : Request}
  {told : EntryParam → KernelReply} {r : KernelReply}

theorem edit_file {v : Bytes} {f : Bytes → Bytes} (hi : ns i = some (.file v)) :
    ns.edit i f = Function.update ns i (some (.file (f v))) := by
  simp only [edit, hi]

/-- What has been made is there, beside its directory. -/
theorem add_self {es : List Dirent} (hd : ns d = some (.dir es)) (hi : ns i = none) :
    ns.add d name i n i = some n := by
  have hid : i ≠ d := by
    rintro rfl
    rw [hd] at hi
    cases hi
  rw [add, Function.update_of_ne hid, Function.update_self]

theorem legalRequest_new (h : req.new = some (d, name, n, told)) :
    ns.LegalRequest fuse req ↔ (∃ es, ns d = some (.dir es)) ∧ slash ∉ name := by
  cases req <;> cases h <;> rfl

theorem replies_new (h : req.new = some (d, name, n, told)) :
    ns.Replies fuse req r ↔ ns.MakesNode d name n told r := by
  cases req <;> cases h <;> rfl

theorem afterRequest_new {e : EntryParam} (h : req.new = some (d, name, n, told)) :
    ns.afterRequest req (told e) = ns.add d name e.ino n := by
  cases req <;> cases h <;> rfl

theorem afterRequest_exist {errno : ℕ} (h : req.new = some (d, name, n, told)) :
    ns.afterRequest req (.err errno) = ns := by
  cases req <;> cases h <;> rfl

/-- A new directory is empty. -/
theorem request_new_dir (h : req.new = some (d, name, n, told)) : ∀ es, n = .dir es → es = [] := by
  rintro es rfl
  cases req <;> cases h
  rfl

/-- A request that makes an inode, or finds one there. -/
theorem MakesNode.cases (h : ns.MakesNode d name n told r) :
    r = .err EEXIST ∨ ns.get d name = none ∧ ∃ i st, i ≠ 0 ∧ ns i = none ∧
      r = told { ino := i, attr := st } := by
  unfold MakesNode at h
  cases hg : ns.get d name with
  | some j =>
    rw [hg] at h
    exact .inl h
  | none =>
    rw [hg] at h
    obtain ⟨i, st, hi, hni, -, hr⟩ := h
    exact .inr ⟨rfl, i, st, hi, hni, hr⟩

/-- **Legal requests keep the namespace well-formed.** -/
theorem Wf.afterRequest (h : Wf ns) (hlegal : ns.LegalRequest fuse req)
    (hreply : ns.Replies fuse req r) : Wf (ns.afterRequest req r) := by
  cases hreq : req.new with
  | some x =>
    obtain ⟨d, name, n, told⟩ := x
    obtain ⟨⟨es, hd⟩, hname⟩ := (legalRequest_new hreq).mp hlegal
    rcases ((replies_new hreq).mp hreply).cases with rfl | ⟨hfree, i, st, hi, hni, rfl⟩
    · rwa [afterRequest_exist hreq]
    · rw [afterRequest_new hreq]
      exact h.add hd hni hi (request_new_dir hreq) hname hfree
  | none =>
    cases req with
    | create | mknod | mkdir | symlink => cases hreq
    | unlink d name =>
      obtain ⟨⟨es, hd⟩, -⟩ := hlegal
      refine h.sublist hd ?_
      rw [entries_eq hd]
      exact List.filter_sublist
    | setattr i st_size to_set =>
      rw [Namespace.afterRequest]
      split
      case isTrue hset =>
        obtain ⟨⟨v, hv⟩, -⟩ := hlegal hset
        rw [edit_file hv]
        exact h.file hv
      case isFalse => exact h
    | write i buf off =>
      obtain ⟨⟨v, hv⟩, -⟩ := hlegal
      rw [Namespace.afterRequest, edit_file hv]
      exact h.file hv
    | getattr | read | lookup | readdir | openFile | statfs | readlink => exact h

/-- Files stay below 2^31 bytes. -/
theorem Small.afterRequest (h : ∀ i, ns.Small i) (hlegal : ns.LegalRequest fuse req)
    (hreply : ns.Replies fuse req r) (i : Inum) : (ns.afterRequest req r).Small i := by
  have hfile : ∀ {j v}, v.length < 2 ^ 31 → Small (Function.update ns j (some (.file v))) i := by
    intro j v hv w hw
    rw [Function.update_apply] at hw
    split at hw
    · cases hw
      exact hv
    · exact h i w hw
  cases hreq : req.new with
  | some x =>
    obtain ⟨d, name, n, told⟩ := x
    rcases ((replies_new hreq).mp hreply).cases with rfl | ⟨-, j, st, -, -, rfl⟩
    · rw [afterRequest_exist hreq]
      exact h i
    · rw [afterRequest_new hreq]
      intro v hv
      rw [Namespace.add, Function.update_apply] at hv
      split at hv
      · cases hv
      · rw [Function.update_apply] at hv
        split at hv
        · cases hv
          cases req <;> cases hreq <;> decide
        · exact h i v hv
  | none =>
    cases req with
    | create | mknod | mkdir | symlink => cases hreq
    | unlink d name =>
      intro v hv
      rw [Namespace.afterRequest, drop, Function.update_apply] at hv
      split at hv
      · cases hv
      · exact h i v hv
    | setattr j st_size to_set =>
      rw [Namespace.afterRequest]
      split
      case isTrue hset =>
        obtain ⟨⟨v, hv⟩, hsize⟩ := hlegal hset
        rw [edit_file hv]
        exact hfile (by rwa [length_fit])
      case isFalse => exact h i
    | write j buf off =>
      obtain ⟨⟨v, hv⟩, h0, hoff⟩ := hlegal
      rw [Namespace.afterRequest, edit_file hv]
      have hlen := h j v hv
      exact hfile (by rw [length_splice]; omega)
    | getattr | read | lookup | readdir | openFile | statfs | readlink => exact h i

end Lemmas

end Namespace

/-! ## What the handlers do -/

/-- What `read` makes of an offset that is not negative. -/
theorem readAt_of_nonneg {v : Bytes} {size : UInt64} {off : Int64} (h : 0 ≤ off.toInt) :
    readAt v size off = (v.drop off.toInt.toNat).take size.toNat := by
  rw [readAt, toNat_of_nonneg h]
  split
  case isTrue hle => rw [List.drop_of_length_le hle, List.take_nil]
  case isFalse => rfl

/-- The request has got a reply that it may get, and the files are those that it should leave. -/
def Served {σ : Type} (fuse : Fuse) (V : (Inum → Option File) → σ → Prop) (ns : Namespace)
    (req : Request) (r : KernelReply) (s : σ) : Prop :=
  ns.Replies fuse req r ∧ Backed V (ns.afterRequest req r) s

namespace EcKeeps

variable {σ : Type} {ec : Ec Fault Inum σ} {V : (Inum → Option File) → σ → Prop} {B : σ → Prop}
  {ns : Namespace} {s : σ} {n : Node} {d i : Inum} {es : List Dirent} {name : Bytes}
  {fuse : Fuse} {req : Request}

/-- Sizes are kept in 32 bits. -/
theorem toInt_size {a : Extent.Attr} {k : ℕ} (h : a.size = .ofNat k) :
    a.size.toUInt64.toInt64.toInt = (k % 2 ^ 32 : ℕ) := by
  have hk : a.size.toUInt64.toBitVec.toNat = k % 2 ^ 32 := by
    rw [UInt64.toNat_toBitVec, UInt32.toNat_toUInt64, h, UInt32.toNat_ofNat']
  have hlt : 2 * a.size.toUInt64.toBitVec.toNat < 2 ^ 64 := by omega
  show a.size.toUInt64.toBitVec.toInt = _
  rw [BitVec.toInt_eq_toNat_of_lt hlt, hk]

variable (K : EcKeeps ec V B)

include K

/-- `getattr` tells what the inode is. -/
theorem stat {Q : Status × Stat → σ → Prop} (hs : Backed V ns s) (hn : ns i = some n)
    (h : ∀ st s', n.Describes i st → Backed V ns s' → Q (.ok, st) s') :
    (Fs.getattr ec i).returns Q B s := by
  rw [Fs.getattr, Prog.returns_bind]
  refine K.isType hs hn fun s₁ hs₁ => ?_
  rw [Prog.returns_bind]
  refine K.isType hs₁ hn fun s₂ hs₂ => ?_
  cases n with
  | file v =>
    rw [if_pos (show decide ((Node.file v).type = T_FILE) = true from rfl), Prog.returns_bind]
    refine K.getfile hs₂ hn fun a s₃ hsize hs₃ => ?_
    exact h _ s₃ ⟨rfl, rfl, rfl, toInt_size hsize⟩ hs₃
  | dir es =>
    rw [if_neg (show ¬ decide ((Node.dir es).type = T_FILE) = true from nofun), Prog.returns_bind]
    refine K.isType hs₂ hn fun s₃ hs₃ => ?_
    rw [if_pos (show decide ((Node.dir es).type = T_DIR) = true from rfl), Prog.returns_bind]
    refine K.getdir hs₃ hn fun times s₄ hs₄ => ?_
    exact h _ s₄ ⟨rfl, rfl, rfl, rfl⟩ hs₄
  | link text =>
    rw [if_neg (show ¬ decide ((Node.link text).type = T_FILE) = true from nofun),
      Prog.returns_bind]
    refine K.isType hs₂ hn fun s₃ hs₃ => ?_
    rw [if_neg (show ¬ decide ((Node.link text).type = T_DIR) = true from nofun),
      Prog.returns_bind]
    refine K.getfile hs₃ hn fun a s₄ hsize hs₄ => ?_
    exact h _ s₄ ⟨rfl, rfl, rfl, toInt_size hsize⟩ hs₄

/-- A handler that makes an inode and tells what it is. -/
theorem makeNode {Q : KernelReply → σ → Prop} {type : UInt32} {told : EntryParam → KernelReply}
    (hs : Backed V ns s) (hwf : ns.Wf) (hd : ns d = some (.dir es))
    (htype : type = T_FILE ∨ type = T_DIR) (hnew : n.Shows ⟨Store.short type, []⟩)
    (hexist : ∀ j s', ns.get d name = some j → Backed V ns s' → Q (.err EEXIST) s')
    (hmake : ∀ i st s', ns.get d name = none → i ≠ 0 → ns i = none → n.Describes i st →
      Backed V (ns.add d name i n) s' → Q (told { ino := i, attr := st }) s') :
    (Fs.makeNode ec type told d name).returns Q B s := by
  have hcreate : (if type = T_FILE then Fs.create ec d name else Fs.mkdir ec d name) =
      Fs.createType ec type d name := by
    rcases htype with rfl | rfl
    · rfl
    · rfl
  rw [Fs.makeNode, fuseserver_createhelper, bind_assoc, hcreate, Prog.returns_bind]
  refine K.createType hs hwf hd hnew (fun j s₁ hj hs₁ => ?_) fun i s₁ hfree hi hni hs₁ => ?_
  · exact hexist j s₁ hj hs₁
  · rw [bind_assoc, Prog.returns_bind]
    have hn : ns.add d name i n i = some n := Namespace.add_self hd hni
    exact K.stat hs₁ hn fun st s₂ hst hs₂ => hmake i st s₂ hfree hi hni hst hs₂

/-- The requests that make an inode. -/
theorem serve_new {told : EntryParam → KernelReply} (hs : Backed V ns s) (hwf : ns.Wf)
    (hreq : req.new = some (d, name, n, told)) (hd : ns d = some (.dir es)) :
    (req.serve ec fuse).returns (Served fuse V ns req) B s := by
  -- what is told of both ways in which the code can go
  have hexist : ∀ j s', ns.get d name = some j → Backed V ns s' →
      Served fuse V ns req (.err EEXIST) s' := by
    intro j s' hj hs'
    refine ⟨(Namespace.replies_new hreq).mpr ?_, ?_⟩
    · simp only [Namespace.MakesNode, hj]
    · rw [Namespace.afterRequest_exist hreq]
      exact hs'
  have hmake : ∀ i st s', ns.get d name = none → i ≠ 0 → ns i = none → n.Describes i st →
      Backed V (ns.add d name i n) s' →
        Served fuse V ns req (told { ino := i, attr := st }) s' := by
    intro i st s' hfree hi hni hst hs'
    refine ⟨(Namespace.replies_new hreq).mpr ?_, ?_⟩
    · simp only [Namespace.MakesNode, hfree]
      exact ⟨i, st, hi, hni, hst, rfl⟩
    · rw [Namespace.afterRequest_new hreq]
      exact hs'
  cases req with
  | create | mknod =>
    cases hreq
    have hshow : (Node.file []).Shows ⟨Store.short T_FILE, []⟩ := rfl
    exact K.makeNode hs hwf hd (.inl rfl) hshow hexist hmake
  | mkdir =>
    cases hreq
    have hshow : (Node.dir []).Shows ⟨Store.short T_DIR, []⟩ := rfl
    exact K.makeNode hs hwf hd (.inr rfl) hshow hexist hmake
  | symlink link d name =>
    cases hreq
    show (fuseserver_symlink ec link d name).returns _ B s
    rw [fuseserver_symlink, Prog.returns_bind]
    refine K.symlink hs hwf hd (fun j s₁ hj hs₁ => hexist j s₁ hj hs₁)
      fun i s₁ hfree hi hni hs₁ => ?_
    have hn : ns.add d name i (.link link) i = some (.link link) := Namespace.add_self hd hni
    rw [Prog.returns_bind]
    exact K.stat hs₁ hn fun st s₂ hst hs₂ => hmake i st s₂ hfree hi hni hst hs₂
  | _ => cases hreq

/-- `fuseserver_readdir` replies with a piece of the whole directory. -/
theorem serve_readdir {size off : ℕ} (hs : Backed V ns s) (hwf : ns.Wf)
    (hlegal : ns.LegalRequest fuse (.readdir i size off)) :
    ((Request.readdir i size off).serve ec fuse).returns
      (Served fuse V ns (.readdir i size off)) B s := by
  obtain ⟨hi, hcarries⟩ := hlegal
  obtain ⟨n, hn⟩ := Option.ne_none_iff_exists'.mp hi
  rw [Request.serve, Prog.returns_bind, fuseserver_readdir, Prog.returns_bind]
  refine K.isType hs hn fun s₁ hs₁ => ?_
  cases n with
  | file v =>
    refine ⟨?_, hs₁⟩
    simp only [Namespace.Replies, hn]
    rfl
  | link text =>
    refine ⟨?_, hs₁⟩
    simp only [Namespace.Replies, hn]
    rfl
  | dir es =>
    show (Fs.readdir ec i >>= _).returns _ B s₁
    rw [Prog.returns_bind]
    refine K.readdir hs₁ hwf hn fun s₂ hs₂ => ⟨?_, hs₂⟩
    have hsize := Format.length_buffer (hcarries es hn)
    simp only [Namespace.Replies, hn]
    rw [foldl_dirbuf_add, Nat.zero_add, List.nil_append, ← hsize, reply_buf_limited_eq]
    rfl

/-- `fuseserver_setattr` sets the size, and replies with the attributes after that. -/
theorem serve_setattr {st_size : Int64} {to_set : Int32} (hs : Backed V ns s)
    (hsmall : ∀ i, ns.Small i) (hlegal : ns.LegalRequest fuse (.setattr i st_size to_set)) :
    ((Request.setattr i st_size to_set).serve ec fuse).returns
      (Served fuse V ns (.setattr i st_size to_set)) B s := by
  by_cases hset : Request.setsSize to_set = true
  case pos =>
    obtain ⟨⟨v, hv⟩, hsize⟩ := hlegal hset
    have hbit : FUSE_SET_ATTR_SIZE &&& to_set ≠ 0 := of_decide_eq_true hset
    have hbit' : to_set &&& FUSE_SET_ATTR_SIZE ≠ 0 := by rwa [Int32.and_comm]
    have hlen := hsmall i v hv
    show (fuseserver_setattr ec i st_size to_set).returns _ B s
    rw [fuseserver_setattr, if_pos hbit, if_pos hbit', bind_assoc, Prog.returns_bind]
    refine K.setattr hs hv (by omega) (by omega) fun s₁ hs₁ => ?_
    rw [pure_bind, Prog.returns_bind]
    refine K.stat hs₁ (Function.update_self ..) fun st s₂ hst hs₂ => ⟨?_, ?_⟩
    · simp only [Namespace.Replies, hset, if_true]
      exact ⟨v, st, hv, hst, rfl⟩
    · rw [Namespace.afterRequest, if_pos hset, Namespace.edit_file hv]
      exact hs₂
  case neg =>
    have hbit : ¬ FUSE_SET_ATTR_SIZE &&& to_set ≠ 0 := fun h => hset (decide_eq_true h)
    show (fuseserver_setattr ec i st_size to_set).returns _ B s
    rw [fuseserver_setattr, if_neg hbit]
    refine ⟨?_, ?_⟩
    · simp only [Namespace.Replies, hset, Bool.false_eq_true, if_false]
    · rw [Namespace.afterRequest, if_neg hset]
      exact hs

/-- `fuseserver_lookup` tells what has the name. -/
theorem serve_lookup (hs : Backed V ns s) (hwf : ns.Wf) (hd : ns d = some (.dir es)) :
    ((Request.lookup d name).serve ec fuse).returns (Served fuse V ns (.lookup d name)) B s := by
  show (fuseserver_lookup ec d name).returns _ B s
  rw [fuseserver_lookup, Prog.returns_bind]
  refine K.lookup hs hwf hd (fun j s₁ hj hs₁ => ?_) fun s₁ hfree hs₁ => ⟨?_, hs₁⟩
  · obtain ⟨e, he, hej⟩ := Option.map_eq_some_iff.mp hj
    obtain ⟨n, hn⟩ := Option.ne_none_iff_exists'.mp (hwf.there d e (List.mem_of_find?_eq_some he))
    rw [hej] at hn
    rw [Prog.returns_bind]
    refine K.stat hs₁ hn fun st s₂ hst hs₂ => ⟨?_, hs₂⟩
    simp only [Namespace.Replies, hj]
    exact ⟨n, st, hn, hst, rfl⟩
  · simp only [Namespace.Replies, hfree]

/-- **A handler answers as the mounted file system does.** -/
theorem serve (hs : Backed V ns s) (hwf : ns.Wf) (hsmall : ∀ i, ns.Small i)
    (hlegal : ns.LegalRequest fuse req) :
    (req.serve ec fuse).returns (Served fuse V ns req) B s := by
  cases hreq : req.new with
  | some x =>
    obtain ⟨d, name, n, told⟩ := x
    obtain ⟨⟨es, hd⟩, -⟩ := (Namespace.legalRequest_new hreq).mp hlegal
    exact K.serve_new hs hwf hreq hd
  | none =>
    cases req with
    | create | mknod | mkdir | symlink => cases hreq
    | getattr i =>
      obtain ⟨n, hn⟩ := Option.ne_none_iff_exists'.mp hlegal
      show (fuseserver_getattr ec i).returns _ B s
      rw [fuseserver_getattr, Prog.returns_bind]
      exact K.stat hs hn fun st s₁ hst hs₁ => ⟨⟨n, st, hn, hst, rfl⟩, hs₁⟩
    | setattr i st_size to_set => exact K.serve_setattr hs hsmall hlegal
    | read i size off =>
      obtain ⟨⟨v, hv⟩, hoff⟩ := hlegal
      show (fuseserver_read ec i size off).returns _ B s
      rw [fuseserver_read, Prog.returns_bind]
      refine K.read hs hv fun s₁ hs₁ => ⟨⟨v, hv, ?_⟩, hs₁⟩
      rw [readAt_of_nonneg hoff]
    | write i buf off =>
      obtain ⟨⟨v, hv⟩, hoff⟩ := hlegal
      show (fuseserver_write ec i buf off).returns _ B s
      rw [fuseserver_write, Prog.returns_bind]
      refine K.write hs hv (hsmall i v hv) hoff fun s₁ hs₁ => ⟨rfl, ?_⟩
      rw [Namespace.afterRequest, Namespace.edit_file hv]
      exact hs₁
    | lookup d name =>
      obtain ⟨⟨es, hd⟩, -⟩ := hlegal
      exact K.serve_lookup hs hwf hd
    | readdir i size off => exact K.serve_readdir hs hwf hlegal
    | openFile i => exact ⟨rfl, hs⟩
    | unlink d name =>
      obtain ⟨⟨es, hd⟩, -⟩ := hlegal
      show (fuseserver_unlink ec d name).returns _ B s
      rw [fuseserver_unlink, Prog.returns_bind]
      exact K.unlink hs hwf hd fun s₁ hs₁ => ⟨rfl, hs₁⟩
    | statfs => exact ⟨rfl, hs⟩
    | readlink i =>
      obtain ⟨text, hl⟩ := hlegal
      show (fuseserver_readlink ec i).returns _ B s
      rw [fuseserver_readlink, Prog.returns_bind]
      exact K.readlink hs hl fun s₁ hs₁ => ⟨⟨text, hl, rfl⟩, hs₁⟩

end EcKeeps

end Yfs.Fs
