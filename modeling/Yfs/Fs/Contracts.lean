import Yfs.Extent.Calls
import Yfs.Fs.History

/-!
# What the operations do

The contracts of `yfs_client`: what every operation does to the namespace and what it returns, on
any extent client that keeps files (`EcKeeps`). They are for one thread. Each is written for what
comes after the operation, so that the code of a caller is gone through from the top.
-/

namespace Yfs.Fs

open Extent (Attr Bytes Ec Fault File OK T_DIR T_FILE T_LINK fit)

/-- An extent client that keeps files; `V g s` says that they are `g` in state `s`. It never faults,
and where it cannot go on `B` is true. -/
structure EcKeeps {σ : Type} (ec : Ec Fault Inum σ) (V : (Inum → Option File) → σ → Prop)
    (B : σ → Prop) : Prop where
  create : ∀ {g s type id}, V g s → (ec.create type id).returns (fun r s' =>
    r.1 = OK ∧ r.2 ≠ 0 ∧ g r.2 = none ∧
      V (Function.update g r.2 (some ⟨Store.short type, []⟩)) s') B s
  get : ∀ {g s i f buf}, V g s → g i = some f →
    (ec.get i buf).returns (fun r s' => r = (OK, f.data) ∧ V g s') B s
  getattr : ∀ {g s i f a}, V g s → g i = some f → (ec.getattr i a).returns (fun r s' =>
    r.1 = OK ∧ r.2.type = f.type.toInt32.toUInt32 ∧ r.2.size = .ofNat f.data.length ∧ V g s') B s
  put : ∀ {g s i f buf}, V g s → g i = some f → (ec.put i buf).returns (fun r s' =>
    r = OK ∧ V (Function.update g i (some { f with data := buf })) s') B s

/-- The files are those of a namespace. -/
def Backed {σ : Type} (V : (Inum → Option File) → σ → Prop) (ns : Namespace) (s : σ) : Prop :=
  ∃ g, V g s ∧ Rep ns g

/-- A new name in a directory, as text. -/
theorem Backed.add {σ : Type} {V : (Inum → Option File) → σ → Prop} {ns : Namespace}
    {g : Inum → Option File} {s : σ} {d i : Inum} {es : List Dirent} {name : Bytes} {new : Node}
    {file : File} (hrep : Rep ns g) (hd : ns d = some (.dir es)) (hshow : new.Shows file)
    (hV : V (Function.update (Function.update g i (some file)) d
      (some ⟨Store.short T_DIR, es.flatMap Directory.entryString ++
        Directory.entryString ⟨name, i⟩⟩)) s) : Backed V (ns.add d name i new) s := by
  refine ⟨_, hV, (hrep.update hshow).update ?_⟩
  rw [Namespace.entries_eq hd]
  show File.mk _ _ = _
  rw [List.flatMap_append, List.flatMap_singleton]

/-- The bytes in the file of an inode. -/
def Node.text : Node → Bytes
  | file v => v
  | dir es => es.flatMap Directory.entryString
  | link text => text

theorem Node.Shows.data {n : Node} {f : File} (h : n.Shows f) : f.data = n.text := by
  cases n <;> rw [show f = _ from h] <;> rfl

namespace EcKeeps

variable {σ : Type} {ec : Ec Fault Inum σ} {V : (Inum → Option File) → σ → Prop} {B : σ → Prop}
  {g : Inum → Option File} {s : σ} {i : Inum} {f : File}

/-! ## The functions of the extent client -/

section Ec

variable {β : Type} {Q : β → σ → Prop} (K : EcKeeps ec V B)

include K

theorem get_bind {buf : Bytes} {k : Extent.Status × Bytes → Prog Fault Inum σ β} (hV : V g s)
    (hf : g i = some f) (h : ∀ s', V g s' → (k (OK, f.data)).returns Q B s') :
    (ec.get i buf >>= k).returns Q B s := by
  rw [Prog.returns_bind]
  refine Prog.returns_mono (K.get hV hf) ?_ fun _ => id
  rintro _ s' ⟨rfl, hV'⟩
  exact h s' hV'

theorem getattr_bind {a₀ : Attr} {k : Extent.Status × Attr → Prog Fault Inum σ β} (hV : V g s)
    (hf : g i = some f)
    (h : ∀ a s', a.type = f.type.toInt32.toUInt32 → a.size = .ofNat f.data.length → V g s' →
      (k (OK, a)).returns Q B s') : (ec.getattr i a₀ >>= k).returns Q B s := by
  rw [Prog.returns_bind]
  refine Prog.returns_mono (K.getattr hV hf) ?_ fun _ => id
  rintro ⟨_, a⟩ s' ⟨rfl, htype, hsize, hV'⟩
  exact h a s' htype hsize hV'

theorem put_bind {buf : Bytes} {k : Extent.Status → Prog Fault Inum σ β} (hV : V g s)
    (hf : g i = some f)
    (h : ∀ s', V (Function.update g i (some { f with data := buf })) s' →
      (k OK).returns Q B s') : (ec.put i buf >>= k).returns Q B s := by
  rw [Prog.returns_bind]
  refine Prog.returns_mono (K.put hV hf) ?_ fun _ => id
  rintro _ s' ⟨rfl, hV'⟩
  exact h s' hV'

theorem create_bind {type : UInt32} {i₀ : Inum} {k : Extent.Status × Inum → Prog Fault Inum σ β}
    (hV : V g s)
    (h : ∀ i s', i ≠ 0 → g i = none → V (Function.update g i (some ⟨Store.short type, []⟩)) s' →
      (k (OK, i)).returns Q B s') : (ec.create type i₀ >>= k).returns Q B s := by
  rw [Prog.returns_bind]
  refine Prog.returns_mono (K.create hV) ?_ fun _ => id
  rintro ⟨_, i⟩ s' ⟨rfl, hi, hg, hV'⟩
  exact h i s' hi hg hV'

/-- A file is made beside one that is there, which stays as it is. -/
theorem create_beside {ns : Namespace} {d : Inum} {type : UInt32} {i₀ : Inum}
    {k : Extent.Status × Inum → Prog Fault Inum σ β} (hV : V g s) (hrep : Rep ns g)
    (hf : g d = some f)
    (h : ∀ i s', i ≠ 0 → ns i = none → (∀ x, Function.update g i x d = some f) →
      V (Function.update g i (some ⟨Store.short type, []⟩)) s' → (k (OK, i)).returns Q B s') :
    (ec.create type i₀ >>= k).returns Q B s := by
  refine K.create_bind hV fun i s' hi hgi hV' => h i s' hi (hrep.eq_none_iff.mp hgi) ?_ hV'
  intro x
  have hdi : d ≠ i := by
    rintro rfl
    rw [hf] at hgi
    cases hgi
  rw [Function.update_of_ne hdi, hf]

end Ec

/-! ## The operations -/

section Ops

variable {ns : Namespace} {n : Node} {d ino : Inum} {es : List Dirent} {name link data v : Bytes}
  {type : UInt32} {size : UInt64} {off : Int64} (K : EcKeeps ec V B)

include K

/-- `isfile`, `islink` and `isdir` compare the type. -/
theorem isType {Q : Bool → σ → Prop} (hs : Backed V ns s) (hn : ns i = some n)
    (h : ∀ s', Backed V ns s' → Q (decide (n.type = type)) s') :
    (Fs.isType ec type i).returns Q B s := by
  obtain ⟨g, hV, hrep⟩ := hs
  obtain ⟨f, hf, hshow⟩ := hrep.some i n hn
  rw [Fs.isType, Prog.returns_bind]
  refine K.getattr_bind hV hf fun a s' htype _ hV' => ?_
  have hq := h s' ⟨g, hV', hrep⟩
  rw [← hshow.type, ← htype] at hq
  simp only [ne_eq, not_true_eq_false, if_false]
  split
  case isTrue ht =>
    rw [decide_eq_true ht] at hq
    exact hq
  case isFalse ht =>
    rw [decide_eq_false ht] at hq
    exact hq

/-- `getfile` gives the length, modulo 2^32. -/
theorem getfile {Q : Status × Option Attr → σ → Prop} (hs : Backed V ns s) (hn : ns i = some n)
    (h : ∀ a s', a.size = .ofNat n.text.length → Backed V ns s' → Q (.ok, some a) s') :
    (Fs.getfile ec i).returns Q B s := by
  obtain ⟨g, hV, hrep⟩ := hs
  obtain ⟨f, hf, hshow⟩ := hrep.some i n hn
  rw [Fs.getfile, Prog.returns_bind]
  refine K.getattr_bind hV hf fun a s' _ hsize hV' => ?_
  exact h a s' (by rw [hsize, hshow.data]) ⟨g, hV', hrep⟩

/-- `getdir` gives times. -/
theorem getdir {Q : Status × Option (UInt32 × UInt32 × UInt32) → σ → Prop} (hs : Backed V ns s)
    (hn : ns i = some n) (h : ∀ times s', Backed V ns s' → Q (.ok, some times) s') :
    (Fs.getdir ec i).returns Q B s := by
  obtain ⟨g, hV, hrep⟩ := hs
  obtain ⟨f, hf, -⟩ := hrep.some i n hn
  rw [Fs.getdir, Prog.returns_bind]
  refine K.getattr_bind hV hf fun a s' _ _ hV' => ?_
  exact h _ s' ⟨g, hV', hrep⟩

/-- `setattr` makes a file fit, as long as the gap fits into an `int`. -/
theorem setattr {Q : Status → σ → Prop} (hs : Backed V ns s) (hn : ns i = some (.file v))
    (hv : v.length < 2 ^ 32) (hgap : size.toNat < v.length + 2 ^ 31)
    (h : ∀ s', Backed V (Function.update ns i (some (.file (fit v size.toNat)))) s' → Q .ok s') :
    (Fs.setattr ec i size).returns Q B s := by
  obtain ⟨g, hV, hrep⟩ := hs
  obtain ⟨f, hf, hshow⟩ := hrep.some i _ hn
  obtain rfl : f = ⟨Store.short T_FILE, v⟩ := hshow
  rw [Fs.setattr, Prog.returns_bind]
  refine K.getattr_bind hV hf fun a s' _ hsize hV' => ?_
  have hlen : a.size.toNat = v.length := by
    rw [hsize]
    exact UInt32.toNat_ofNat_of_lt' hv
  simp only [ne_eq, not_true_eq_false, if_false]
  split
  case isTrue heq =>
    -- the file has this size already
    have hlen' : size.toNat = v.length := by
      rw [← heq, UInt32.toNat_toUInt64, hlen]
    refine h s' ⟨g, hV', ?_⟩
    rw [hlen', fit, List.take_length, Nat.sub_self, List.replicate_zero, List.append_nil, ← hn,
      Function.update_eq_self]
    exact hrep
  case isFalse =>
    refine K.get_bind hV' hf fun s₂ hV₂ => ?_
    simp only [not_true_eq_false, if_false, Extent.resize_fit hlen hgap, lift, pure_bind]
    refine K.put_bind hV₂ hf fun s₃ hV₃ => ?_
    exact h s₃ ⟨_, hV₃, hrep.update rfl⟩

/-- `create` and `mkdir` make an inode, unless the name is there. -/
theorem createType {Q : Status × Option Inum → σ → Prop} {new : Node} (hs : Backed V ns s)
    (hwf : ns.Wf) (hd : ns d = some (.dir es)) (hnew : new.Shows ⟨Store.short type, []⟩)
    (hexist : ∀ j s', ns.get d name = some j → Backed V ns s' → Q (.exist, none) s')
    (hmake : ∀ i s', ns.get d name = none → i ≠ 0 → ns i = none →
      Backed V (ns.add d name i new) s' → Q (.ok, some i) s') :
    (Fs.createType ec type d name).returns Q B s := by
  obtain ⟨g, hV, hrep⟩ := hs
  obtain ⟨f, hf, hshow, -⟩ := hrep.dir hwf hd
  obtain rfl : f = ⟨Store.short T_DIR, es.flatMap Directory.entryString⟩ := hshow
  have hget := hrep.get_eq_none hwf hd hf name
  rw [Fs.createType, Prog.returns_bind, Prog.returns_lock, Prog.returns_bind, Prog.returns_lock]
  refine K.get_bind hV hf fun s₁ hV₁ => ?_
  simp only [ne_eq, not_true_eq_false, if_false]
  split
  case isTrue hfind =>
    obtain ⟨j, hj⟩ := Option.ne_none_iff_exists'.mp (mt hget.mp hfind)
    exact hexist j s₁ hj ⟨g, hV₁, hrep⟩
  case isFalse hfind =>
    have hfree := hget.mpr (not_not.mp hfind)
    rw [bind_assoc]
    refine K.create_beside hV₁ hrep hf fun i s₂ hi hni hd₂ hV₂ => ?_
    simp only [not_true_eq_false, if_false, bind_assoc]
    refine K.put_bind hV₂ (hd₂ _) fun s₃ hV₃ => ?_
    exact hmake i s₃ hfree hi hni (.add hrep hd hnew hV₃)

/-- `symlink` makes a link. -/
theorem symlink {Q : Status × Option Inum → σ → Prop} (hs : Backed V ns s)
    (hwf : ns.Wf) (hd : ns d = some (.dir es))
    (hexist : ∀ j s', ns.get d name = some j → Backed V ns s' → Q (.exist, none) s')
    (hmake : ∀ i s', ns.get d name = none → i ≠ 0 → ns i = none →
      Backed V (ns.add d name i (.link link)) s' → Q (.ok, some i) s') :
    (Fs.symlink ec d link name).returns Q B s := by
  obtain ⟨g, hV, hrep⟩ := hs
  obtain ⟨f, hf, hshow, -⟩ := hrep.dir hwf hd
  obtain rfl : f = ⟨Store.short T_DIR, es.flatMap Directory.entryString⟩ := hshow
  have hget := hrep.get_eq_none hwf hd hf name
  rw [Fs.symlink, Prog.returns_bind, Prog.returns_lock, Prog.returns_bind, Prog.returns_lock]
  refine K.get_bind hV hf fun s₁ hV₁ => ?_
  simp only [ne_eq, not_true_eq_false, if_false]
  split
  case isTrue hfind =>
    obtain ⟨j, hj⟩ := Option.ne_none_iff_exists'.mp (mt hget.mp hfind)
    exact hexist j s₁ hj ⟨g, hV₁, hrep⟩
  case isFalse hfind =>
    have hfree := hget.mpr (not_not.mp hfind)
    rw [bind_assoc]
    refine K.create_beside hV₁ hrep hf fun i s₂ hi hni hd₂ hV₂ => ?_
    simp only [not_true_eq_false, if_false, bind_assoc]
    refine K.put_bind hV₂ (Function.update_self ..) fun s₃ hV₃ => ?_
    rw [Function.update_idem] at hV₃
    refine K.put_bind hV₃ (hd₂ _) fun s₄ hV₄ => ?_
    exact hmake i s₄ hfree hi hni (.add hrep hd rfl hV₄)

/-- `lookup` finds what has the name. -/
theorem lookup {Q : Status × Option (Bool × Inum) → σ → Prop} (hs : Backed V ns s) (hwf : ns.Wf)
    (hd : ns d = some (.dir es))
    (hfound : ∀ j s', ns.get d name = some j → Backed V ns s' → Q (.ok, some (true, j)) s')
    (hnot : ∀ s', ns.get d name = none → Backed V ns s' → Q (.noent, some (false, 0)) s') :
    (Fs.lookup ec d name).returns Q B s := by
  obtain ⟨g, hV, hrep⟩ := hs
  obtain ⟨f, hf, -, -, hfind⟩ := hrep.dir hwf hd
  have hget := hrep.get_eq_none hwf hd hf name
  rw [Fs.lookup, Prog.returns_bind, Prog.returns_lock]
  refine K.get_bind hV hf fun s₁ hV₁ => ?_
  show Q (if (Directory.ofString f.data).find name = 0 then _ else _) s₁
  split
  case isTrue h0 => exact hnot s₁ (hget.mpr h0) ⟨g, hV₁, hrep⟩
  case isFalse h0 =>
    obtain ⟨j, hj⟩ := Option.ne_none_iff_exists'.mp (mt hget.mp h0)
    have hq := hfound j s₁ hj ⟨g, hV₁, hrep⟩
    rw [hfind name, hj]
    exact hq

/-- `readdir` lists the directory. -/
theorem readdir {Q : Status × List Dirent → σ → Prop} (hs : Backed V ns s) (hwf : ns.Wf)
    (hd : ns d = some (.dir es)) (h : ∀ s', Backed V ns s' → Q (.ok, es) s') :
    (Fs.readdir ec d).returns Q B s := by
  obtain ⟨g, hV, hrep⟩ := hs
  obtain ⟨f, hf, -, hparse, -⟩ := hrep.dir hwf hd
  rw [Fs.readdir, Prog.returns_bind, Prog.returns_lock]
  refine K.get_bind hV hf fun s₁ hV₁ => ?_
  have hq := h s₁ ⟨g, hV₁, hrep⟩
  rw [← hparse] at hq
  exact hq

/-- `unlink` removes the name, if it is there. -/
theorem unlink {Q : Status → σ → Prop} (hs : Backed V ns s) (hwf : ns.Wf)
    (hd : ns d = some (.dir es)) (h : ∀ s', Backed V (ns.drop d name) s' → Q .ok s') :
    (Fs.unlink ec d name).returns Q B s := by
  obtain ⟨g, hV, hrep⟩ := hs
  obtain ⟨f, hf, hshow, hparse, -⟩ := hrep.dir hwf hd
  obtain rfl : f = ⟨Store.short T_DIR, es.flatMap Directory.entryString⟩ := hshow
  have hget := hrep.get_eq_none hwf hd hf name
  rw [Namespace.drop, Namespace.entries_eq hd] at h
  rw [Fs.unlink, Prog.returns_bind, Prog.returns_lock]
  refine K.get_bind hV hf fun s₁ hV₁ => ?_
  simp only [ne_eq, not_true_eq_false, if_false]
  by_cases h0 : (Directory.ofString (es.flatMap Directory.entryString)).find name = 0
  case pos =>
    -- nothing has this name
    have hall : ∀ e ∈ es, e.name ≠ name := by
      have := hget.mpr h0
      simpa [Namespace.get, Namespace.entries_eq hd] using this
    rw [if_pos h0, if_pos (show (1 : Inum) ≠ 0 by decide)]
    refine h s₁ ⟨g, hV₁, ?_⟩
    rw [List.filter_eq_self.mpr fun e he => decide_eq_true (hall e he), ← hd,
      Function.update_eq_self]
    exact hrep
  case neg =>
    simp only [if_neg h0, not_true_eq_false, if_false]
    refine K.put_bind hV₁ hf fun s₂ hV₂ => ?_
    refine h s₂ ⟨_, hV₂, hrep.update ?_⟩
    show File.mk _ (((Directory.ofString _).delent name).tostring) = _
    simp only [Directory.tostring, Directory.delent, Directory.ofString, hparse]

/-- `read` returns a piece of the file. -/
theorem read {Q : Status × Bytes → σ → Prop} (hs : Backed V ns s) (hn : ns i = some (.file v))
    (h : ∀ s', Backed V ns s' → Q (.ok, readAt v size off) s') :
    (Fs.read ec i size off).returns Q B s := by
  obtain ⟨g, hV, hrep⟩ := hs
  obtain ⟨f, hf, hshow⟩ := hrep.some i _ hn
  obtain rfl : f = ⟨Store.short T_FILE, v⟩ := hshow
  rw [Fs.read, Prog.returns_bind, Prog.returns_lock]
  exact K.get_bind hV hf fun s₁ hV₁ => h s₁ ⟨g, hV₁, hrep⟩

/-- `write` puts its bytes in place, within 2^31 bytes. -/
theorem write {Q : Status → σ → Prop} (hs : Backed V ns s) (hn : ns i = some (.file v))
    (hv : v.length < 2 ^ 31) (hoff : InRange off data)
    (h : ∀ s', Backed V (Function.update ns i (some (.file (splice v off.toInt.toNat data)))) s' →
      Q .ok s') : (Fs.write ec i off data).returns Q B s := by
  obtain ⟨g, hV, hrep⟩ := hs
  obtain ⟨f, hf, hshow⟩ := hrep.some i _ hn
  obtain rfl : f = ⟨Store.short T_FILE, v⟩ := hshow
  rw [Fs.write, Prog.returns_bind, Prog.returns_lock]
  refine K.get_bind hV hf fun s₁ hV₁ => ?_
  simp only [ne_eq, not_true_eq_false, if_false, writeAt_eq hv hoff, lift, pure_bind]
  refine K.put_bind hV₁ hf fun s₂ hV₂ => ?_
  exact h s₂ ⟨_, hV₂, hrep.update rfl⟩

/-- `readlink` returns the text. -/
theorem readlink {Q : Status × Bytes → σ → Prop} (hs : Backed V ns s)
    (hn : ns i = some (.link link)) (h : ∀ s', Backed V ns s' → Q (.ok, link) s') :
    (Fs.readlink ec i).returns Q B s := by
  obtain ⟨g, hV, hrep⟩ := hs
  obtain ⟨f, hf, hshow⟩ := hrep.some i _ hn
  obtain rfl : f = ⟨Store.short T_LINK, link⟩ := hshow
  rw [Fs.readlink, Prog.returns_bind, Prog.returns_lock]
  exact K.get_bind hV hf fun s₁ hV₁ => h s₁ ⟨g, hV₁, hrep⟩

end Ops

end EcKeeps

end Yfs.Fs
