import Yfs.Fs.Store

/-!
# The namespace

What the file system is for: a finite map from directories and names to inodes, which are
files, directories or links. A `Namespace` is such a map, with the entries of a directory in
the order in which they were made and the contents of the files; `effect` says what a call
does to it, and `Answers` what it has to reply.

The calls on a store without caches do this (`Store.refines`), for names without a slash and
inodes of the right type: directories are kept as text there, and parsed again in every call.
-/

namespace Yfs.Fs

open Extent (Bytes Fault File T_DIR T_FILE T_LINK)

/-- What an inode is. -/
inductive Node where
  | file (content : Bytes)
  | dir (entries : List Dirent)
  | link (text : Bytes)
  deriving DecidableEq, Repr

/-- The type that the call that makes it gives it. -/
def Node.type : Node → UInt32
  | file _ => T_FILE
  | dir _ => T_DIR
  | link _ => T_LINK

/-- What a call makes: the directory, the name and the inode. -/
def Call.new : Call → Option (Inum × Bytes × Node)
  | create d name => some (d, name, .file [])
  | mkdir d name => some (d, name, .dir [])
  | symlink d link name => some (d, name, .link link)
  | _ => none

/-- The inodes that there are. -/
abbrev Namespace := Inum → Option Node

namespace Namespace

/-- The entries of a directory. -/
def entries (ns : Namespace) (d : Inum) : List Dirent :=
  match ns d with
  | some (.dir es) => es
  | _ => []

/-- The inode with this name. -/
def get (ns : Namespace) (d : Inum) (name : Bytes) : Option Inum :=
  ((ns.entries d).find? (·.name = name)).map Dirent.inum

/-- A new inode, under a new name. -/
def add (ns : Namespace) (d : Inum) (name : Bytes) (i : Inum) (n : Node) : Namespace :=
  Function.update (Function.update ns i (some n)) d (some (.dir (ns.entries d ++ [⟨name, i⟩])))

/-- A name less. -/
def drop (ns : Namespace) (d : Inum) (name : Bytes) : Namespace :=
  Function.update ns d (some (.dir ((ns.entries d).filter (·.name ≠ name))))

/-- A file is written. -/
def write (ns : Namespace) (i : Inum) (off : Int64) (data : Bytes) : Namespace :=
  match ns i with
  | some (.file v) =>
    match writeAt v off data with
    | .ok v' => Function.update ns i (some (.file v'))
    | .error _ => ns
  | _ => ns

/-- What a call does, that has replied `r`. -/
def effect (ns : Namespace) : Call → Reply → Namespace
  | .mount, _ => Function.update ns 1 (some (.dir []))
  | .create d name, .made .ok (some i) => ns.add d name i (.file [])
  | .mkdir d name, .made .ok (some i) => ns.add d name i (.dir [])
  | .symlink d link name, .made .ok (some i) => ns.add d name i (.link link)
  | .unlink d name, _ => ns.drop d name
  | .write i off data, _ => ns.write i off data
  | _, _ => ns

/-- The calls that the kernel makes: names have no slash, and inodes the right type. -/
def Legal (ns : Namespace) : Call → Prop
  | .mount => ∃ es, ns 1 = some (.dir es)
  | .isfile i | .islink i | .isdir i => ns i ≠ none
  | .create d name | .mkdir d name | .symlink d _ name | .lookup d name | .unlink d name =>
    (∃ es, ns d = some (.dir es)) ∧ slash ∉ name
  | .readdir d => ∃ es, ns d = some (.dir es)
  | .read i _ _ | .write i _ _ => ∃ v, ns i = some (.file v)
  | .readlink i => ∃ text, ns i = some (.link text)

/-- A name that is there is not made again; a new one gets an inode that no entry is for. -/
def Makes (ns : Namespace) (d : Inum) (name : Bytes) (r : Reply) : Prop :=
  match ns.get d name with
  | some _ => r = .made .exist none
  | none =>
    ∃ i, r = .made .ok (some i) ∧ i ≠ 0 ∧ ns i = none ∧ ∀ d', ∀ e ∈ ns.entries d', e.inum ≠ i

/-- The replies that a call may give. -/
def Answers (ns : Namespace) : Call → Reply → Prop
  | .mount, r => r = .status .ok
  | .isfile i, r => ∃ n, ns i = some n ∧ r = .answer (n.type = T_FILE)
  | .islink i, r => ∃ n, ns i = some n ∧ r = .answer (n.type = T_LINK)
  | .isdir i, r => ∃ n, ns i = some n ∧ r = .answer (n.type = T_DIR)
  | .create d name, r | .mkdir d name, r | .symlink d _ name, r => ns.Makes d name r
  | .lookup d name, r =>
    match ns.get d name with
    | some i => r = .found .ok (some (true, i))
    | none => r = .found .noent (some (false, 0))
  | .readdir d, r => r = .entries .ok (ns.entries d)
  | .unlink _ _, r => r = .status .ok
  | .read i size off, r => ∃ v, ns i = some (.file v) ∧ r = .bytes .ok (readAt v size off)
  | .write _ _ _, r => r = .status .ok
  | .readlink i, r => ∃ text, ns i = some (.link text) ∧ r = .bytes .ok text

/-- No name twice in a directory, and every entry is for an inode. -/
structure Wf (ns : Namespace) : Prop where
  zero : ns 0 = none
  nodup : ∀ d, ((ns.entries d).map Dirent.name).Nodup
  slash : ∀ d, ∀ e ∈ ns.entries d, slash ∉ e.name
  there : ∀ d, ∀ e ∈ ns.entries d, ns e.inum ≠ none

/-- The root directory alone. -/
def root : Namespace := fun i => if i = 1 then some (.dir []) else none

section Lemmas

variable {ns : Namespace} {d i : Inum} {name : Bytes} {es : List Dirent} {n : Node}

theorem entries_eq (h : ns d = some (.dir es)) : ns.entries d = es := by
  simp only [entries, h]

theorem entries_update {d' : Inum} : entries (Function.update ns d (some n)) d' =
    if d' = d then (match n with | .dir es => es | _ => []) else ns.entries d' := by
  by_cases h : d' = d
  · subst h
    cases n <;> simp [entries]
  · simp [entries, h]

theorem entries_root : root.entries d = [] := by
  by_cases h : d = 1 <;> simp [entries, Namespace.root, h]

theorem Wf.root : Wf root := by
  refine ⟨rfl, fun d => ?_, fun d e he => ?_, fun d e he => ?_⟩
  · rw [entries_root]
    exact .nil
  · rw [entries_root] at he
    cases he
  · rw [entries_root] at he
    cases he

/-- Fewer entries. -/
theorem Wf.sublist (h : Wf ns) (hd : ns d = some (.dir es)) {es' : List Dirent}
    (hsub : es'.Sublist es) :
    Wf (Function.update ns d (some (.dir es'))) := by
  have hentries : ∀ d',
      (entries (Function.update ns d (some (.dir es'))) d').Sublist (ns.entries d') := by
    intro d'
    rw [entries_update]
    split
    case isTrue hdd =>
      rw [hdd, entries_eq hd]
      exact hsub
    case isFalse => exact List.Sublist.refl _
  refine ⟨?_, fun d' => ?_, fun d' e he => ?_, fun d' e he => ?_⟩
  · rw [Function.update_of_ne]
    · exact h.zero
    · rintro rfl
      rw [h.zero] at hd
      cases hd
  · exact (h.nodup d').sublist ((hentries d').map _)
  · exact h.slash d' e ((hentries d').subset he)
  · have := h.there d' e ((hentries d').subset he)
    rw [Function.update_apply]
    split <;> simp [this]

/-- Another content. -/
theorem entries_file {v v' : Bytes} (hi : ns i = some (.file v)) :
    entries (Function.update ns i (some (.file v'))) d = ns.entries d := by
  rw [entries_update]
  split
  case isTrue hd => rw [hd, entries, hi]
  case isFalse => rfl

theorem Wf.file {v v' : Bytes} (h : Wf ns) (hi : ns i = some (.file v)) :
    Wf (Function.update ns i (some (.file v'))) := by
  have hentries : ∀ d, entries (Function.update ns i (some (.file v'))) d = ns.entries d :=
    fun d => entries_file hi
  refine ⟨?_, fun d => hentries d ▸ h.nodup d, fun d e he => ?_, fun d e he => ?_⟩
  · rw [Function.update_of_ne]
    · exact h.zero
    · rintro rfl
      rw [h.zero] at hi
      cases hi
  · rw [hentries] at he
    exact h.slash d e he
  · rw [hentries] at he
    have := h.there d e he
    rw [Function.update_apply]
    split <;> simp [this]

/-- One more entry, for a new inode without entries. -/
theorem entries_add {d' : Inum} (hd : ns d = some (.dir es)) (hi : ns i = none)
    (hn : ∀ es, n = .dir es → es = []) :
    entries (ns.add d name i n) d' = if d' = d then es ++ [⟨name, i⟩] else ns.entries d' := by
  rw [Namespace.add, entries_update, entries_eq hd]
  split
  case isTrue => rfl
  case isFalse =>
    rw [entries_update]
    split
    case isTrue hdi' =>
      rw [hdi', entries, hi]
      cases n with
      | dir es => exact hn es rfl
      | _ => rfl
    case isFalse => rfl

theorem Wf.add (h : Wf ns) (hd : ns d = some (.dir es)) (hi : ns i = none) (hi0 : i ≠ 0)
    (hn : ∀ es, n = .dir es → es = []) (hname : Fs.slash ∉ name) (hnew : ns.get d name = none) :
    Wf (ns.add d name i n) := by
  have hdi : d ≠ i := by
    rintro rfl
    rw [hd] at hi
    cases hi
  have hentries : ∀ d', entries (ns.add d name i n) d' =
      if d' = d then es ++ [⟨name, i⟩] else ns.entries d' := fun d' => entries_add hd hi hn
  have hthere : ∀ j, ns j ≠ none → ns.add d name i n j ≠ none := by
    intro j hj
    rw [Namespace.add, Function.update_apply]
    split
    · simp
    · rw [Function.update_apply]
      split <;> simp [hj]
  have hself : ns.add d name i n i ≠ none := by
    rw [Namespace.add, Function.update_of_ne hdi.symm, Function.update_self]
    simp
  have hfresh : ∀ e ∈ es, e.name ≠ name := by
    have hfind : es.find? (·.name = name) = none := by
      simpa [get, entries_eq hd] using hnew
    simpa using hfind
  refine ⟨?_, fun d' => ?_, fun d' e he => ?_, fun d' e he => ?_⟩
  · have hd0 : d ≠ 0 := by
      rintro rfl
      rw [h.zero] at hd
      cases hd
    rw [Namespace.add, Function.update_of_ne hd0.symm, Function.update_of_ne hi0.symm, h.zero]
  · rw [hentries]
    split
    case isTrue =>
      have := h.nodup d
      rw [entries_eq hd] at this
      rw [List.map_append, List.map_singleton]
      refine this.append (List.nodup_singleton name) fun x hx hx' => ?_
      obtain ⟨e, he, rfl⟩ := List.mem_map.mp hx
      exact hfresh e he (List.mem_singleton.mp hx')
    case isFalse => exact h.nodup d'
  · rw [hentries] at he
    split at he
    case isTrue =>
      rcases List.mem_append.mp he with he | he
      · exact h.slash d e (by rwa [entries_eq hd])
      · rw [List.mem_singleton.mp he]
        exact hname
    case isFalse => exact h.slash d' e he
  · rw [hentries] at he
    split at he
    case isTrue =>
      rcases List.mem_append.mp he with he | he
      · exact hthere _ (h.there d e (by rwa [entries_eq hd]))
      · rw [List.mem_singleton.mp he]
        exact hself
    case isFalse => exact hthere _ (h.there d' e he)

section New

variable {c : Call} {r : Reply}

theorem legal_new (hc : c.new = some (d, name, n)) :
    ns.Legal c ↔ (∃ es, ns d = some (.dir es)) ∧ Fs.slash ∉ name := by
  cases c <;> cases hc <;> rfl

theorem answers_new (hc : c.new = some (d, name, n)) : ns.Answers c r ↔ ns.Makes d name r := by
  cases c <;> cases hc <;> rfl

theorem effect_new (hc : c.new = some (d, name, n)) :
    ns.effect c (.made .ok (some i)) = ns.add d name i n := by
  cases c <;> cases hc <;> rfl

theorem effect_exist (hc : c.new = some (d, name, n)) : ns.effect c (.made .exist none) = ns := by
  cases c <;> cases hc <;> rfl

/-- A new directory is empty. -/
theorem new_dir (hc : c.new = some (d, name, n)) : ∀ es, n = .dir es → es = [] := by
  rintro es rfl
  cases c <;> cases hc
  rfl

end New

/-- A call that makes an inode. -/
theorem Makes.cases {r : Reply} (h : ns.Makes d name r) :
    (∃ i, ns.get d name = some i) ∧ r = .made .exist none ∨ ns.get d name = none ∧ ∃ i,
      r = .made .ok (some i) ∧ i ≠ 0 ∧ ns i = none ∧ ∀ d', ∀ e ∈ ns.entries d', e.inum ≠ i := by
  unfold Makes at h
  cases hg : ns.get d name with
  | some i =>
    rw [hg] at h
    exact .inl ⟨⟨i, rfl⟩, h⟩
  | none =>
    rw [hg] at h
    exact .inr ⟨rfl, h⟩

/-- **Legal calls keep the namespace well-formed.** -/
theorem Wf.effect {c : Call} {r : Reply} (h : Wf ns) (hlegal : ns.Legal c) (hans : ns.Answers c r) :
    Wf (ns.effect c r) := by
  cases hc : c.new with
  | some x =>
    obtain ⟨d, name, n⟩ := x
    obtain ⟨⟨es, hd⟩, hname⟩ := (legal_new hc).mp hlegal
    obtain ⟨-, rfl⟩ | ⟨hnew, i, rfl, hi0, hi, -⟩ := ((answers_new hc).mp hans).cases
    · rwa [effect_exist hc]
    · rw [effect_new hc]
      exact h.add hd hi hi0 (new_dir hc) hname hnew
  | none =>
    cases c with
    | create | mkdir | symlink => cases hc
    | mount =>
      obtain ⟨es, hd⟩ := hlegal
      exact h.sublist hd (List.nil_sublist es)
    | unlink d name =>
      obtain ⟨⟨es, hd⟩, -⟩ := hlegal
      refine h.sublist hd ?_
      rw [entries_eq hd]
      exact List.filter_sublist
    | write i off data =>
      obtain ⟨v, hv⟩ := hlegal
      show Wf (ns.write i off data)
      simp only [write, hv]
      cases writeAt v off data with
      | ok v' => exact h.file hv
      | error => exact h
    | isfile | islink | isdir | lookup | readdir | read | readlink => exact h

end Lemmas

end Namespace

/-! ## The store keeps a namespace -/

/-- The file of an inode. -/
def Node.Shows : Node → File → Prop
  | file v, f => f = ⟨Store.short T_FILE, v⟩
  | dir es, f => f = ⟨Store.short T_DIR, es.flatMap Directory.entryString⟩
  | link text, f => f = ⟨Store.short T_LINK, text⟩

theorem Node.Shows.type {n : Node} {f : File} (h : n.Shows f) :
    f.type.toInt32.toUInt32 = n.type := by
  cases n with
  | file v =>
    rw [show f = _ from h]
    exact show (Store.short T_FILE).toInt32.toUInt32 = T_FILE by decide
  | dir es =>
    rw [show f = _ from h]
    exact show (Store.short T_DIR).toInt32.toUInt32 = T_DIR by decide
  | link text =>
    rw [show f = _ from h]
    exact show (Store.short T_LINK).toInt32.toUInt32 = T_LINK by decide

/-- The files of a namespace. -/
structure Rep (ns : Namespace) (files : Inum → Option File) : Prop where
  some : ∀ i n, ns i = some n → ∃ f, files i = some f ∧ n.Shows f
  none : ∀ i, ns i = none → files i = none

namespace Rep

variable {ns : Namespace} {files : Inum → Option File} {d i : Inum} {f : File} {n : Node}
  {es : List Dirent} {name : Bytes}

theorem eq_none_iff (h : Rep ns files) : files i = Option.none ↔ ns i = Option.none := by
  refine ⟨fun hf => ?_, h.none i⟩
  cases hn : ns i with
  | none => rfl
  | some n =>
    obtain ⟨f, hf', -⟩ := h.some i n hn
    rw [hf] at hf'
    cases hf'

/-- One file is written. -/
theorem update (h : Rep ns files) (hn : n.Shows f) :
    Rep (Function.update ns i (Option.some n)) (Function.update files i (Option.some f)) := by
  refine ⟨fun j m hj => ?_, fun j hj => ?_⟩
  · by_cases hji : j = i
    · subst hji
      rw [Function.update_self] at hj ⊢
      cases hj
      exact ⟨f, rfl, hn⟩
    · rw [Function.update_of_ne hji] at hj ⊢
      exact h.some j m hj
  · by_cases hji : j = i
    · subst hji
      rw [Function.update_self] at hj
      cases hj
    · rw [Function.update_of_ne hji] at hj ⊢
      exact h.none j hj

/-- A directory, as it is parsed. -/
theorem dir (h : Rep ns files) (hwf : ns.Wf) (hd : ns d = Option.some (.dir es)) :
    ∃ f, files d = Option.some f ∧ (Node.dir es).Shows f ∧ parse 0 f.data = es ∧
      ∀ name, (Directory.ofString f.data).find name = (ns.get d name).getD 0 := by
  obtain ⟨f, hf, hshow⟩ := h.some d _ hd
  obtain rfl : f = ⟨Store.short T_DIR, es.flatMap Directory.entryString⟩ := hshow
  have hparse : parse 0 (es.flatMap Directory.entryString) = es :=
    parse_print fun e he => hwf.slash d e (by rwa [Namespace.entries_eq hd])
  refine ⟨_, hf, rfl, hparse, fun name => ?_⟩
  simp only [Directory.ofString, Directory.find, hparse, Namespace.get, Namespace.entries_eq hd]
  cases es.find? (·.name = name) <;> rfl

/-- A name is there if `find` finds it. -/
theorem get_eq_none (h : Rep ns files) (hwf : ns.Wf) (hd : ns d = Option.some (.dir es))
    (hf : files d = Option.some f) (name : Bytes) :
    ns.get d name = Option.none ↔ (Directory.ofString f.data).find name = 0 := by
  obtain ⟨f', hf', -, -, hfind⟩ := h.dir hwf hd
  rw [hf] at hf'
  cases hf'
  rw [hfind name]
  cases hget : ns.get d name with
  | none => simp
  | some i =>
    obtain ⟨e, he, rfl⟩ := Option.map_eq_some_iff.mp hget
    have hthere := hwf.there d e (List.mem_of_find?_eq_some he)
    simp only [Option.getD_some, reduceCtorEq, false_iff]
    intro h0
    rw [h0] at hthere
    exact hthere hwf.zero

end Rep

namespace Store

variable {ns : Namespace} {st st' : Store} {d : Inum} {r : Reply} {name : Bytes}

/-- The calls that make an inode: `new`, which is kept as `file`. -/
theorem refines_make {p : Prog Fault Inum Store Reply} {es : List Dirent} (new : Node) (file : File)
    (hrep : Rep ns st.files) (hwf : ns.Wf) (hnames : ∀ i ∈ st.names, i ≠ 0 ∧ st.files i = none)
    (hd : ns d = some (.dir es)) (hshow : new.Shows file)
    (hexist : ∀ f, st.files d = some f → (Directory.ofString f.data).find name ≠ 0 →
      p.run st = .done (.made .exist none) st)
    (hmake : ∀ f i names, st.files d = some f → (Directory.ofString f.data).find name = 0 →
      st.names = i :: names → d ≠ i → p.run st = .done (.made .ok (some i))
        ⟨Function.update (Function.update st.files i (some file)) d (some (enter f name i)), names⟩)
    (hblocked : ∀ f, st.files d = some f → (Directory.ofString f.data).find name = 0 →
      st.names = [] → p.run st = .blocked st)
    (hrun : p.run st = .done r st') :
    ns.Makes d name r ∧ (r = .made .exist none ∧ st'.files = st.files ∨
      ∃ i, r = .made .ok (some i) ∧ Rep (ns.add d name i new) st'.files) := by
  obtain ⟨f, hf, hshowd, -, -⟩ := hrep.dir hwf hd
  have hget := hrep.get_eq_none hwf hd hf name
  unfold Namespace.Makes
  cases hg : ns.get d name with
  | some j =>
    have hfind : (Directory.ofString f.data).find name ≠ 0 := fun h0 => by simp [hget.mpr h0] at hg
    rw [hexist f hf hfind] at hrun
    cases hrun
    exact ⟨rfl, .inl ⟨rfl, rfl⟩⟩
  | none =>
    have hfind := hget.mp hg
    cases hn : st.names with
    | nil =>
      rw [hblocked f hf hfind hn] at hrun
      cases hrun
    | cons i names =>
      obtain ⟨hi0, hi⟩ := hnames i (by simp [hn])
      have hdi : d ≠ i := by
        rintro rfl
        rw [hf] at hi
        cases hi
      have hnone : ns i = none := hrep.eq_none_iff.mp hi
      rw [hmake f i names hf hfind hn hdi] at hrun
      cases hrun
      refine ⟨⟨i, rfl, hi0, hnone, fun d' e he hei => ?_⟩,
        .inr ⟨i, rfl, (hrep.update hshow).update ?_⟩⟩
      · exact hwf.there d' e he (hei ▸ hnone)
      · obtain rfl : f = ⟨short T_DIR, es.flatMap Directory.entryString⟩ := hshowd
        rw [Namespace.entries_eq hd]
        show enter _ name i = _
        simp [enter]

/-- The calls that ask for a type. -/
theorem refines_isType {type : UInt32} {i : Inum} (hrep : Rep ns st.files) (hi : ns i ≠ none)
    (hrun : (isType ec type i >>= fun b => pure (.answer b)).run st = .done r st') :
    (∃ n, ns i = some n ∧ r = .answer (n.type = type)) ∧ st' = st := by
  obtain ⟨n, hn⟩ := Option.ne_none_iff_exists'.mp hi
  obtain ⟨f, hf, hshow⟩ := hrep.some i n hn
  rw [Prog.run_bind, run_isType hf, hshow.type] at hrun
  cases hrun
  exact ⟨⟨n, hn, rfl⟩, rfl⟩

/-- **The store refines the namespace**: a legal call that returns gives an answer that it may
give, and the files are then those of the namespace that it should leave. -/
theorem refines {c : Call} (hrun : (c.prog ec).run st = .done r st')
    (hrep : Rep ns st.files) (hwf : ns.Wf)
    (hnames : ∀ i ∈ st.names, i ≠ 0 ∧ st.files i = none) (hlegal : ns.Legal c) :
    ns.Answers c r ∧ Rep (ns.effect c r) st'.files := by
  cases c with
  | mount =>
    obtain ⟨es, hd⟩ := hlegal
    obtain ⟨f, hf, hshow, -⟩ := hrep.dir hwf hd
    obtain rfl : f = ⟨short T_DIR, es.flatMap Directory.entryString⟩ := hshow
    rw [run_mount hf] at hrun
    cases hrun
    exact ⟨rfl, hrep.update rfl⟩
  | isfile i | islink i | isdir i =>
    obtain ⟨hans, rfl⟩ := refines_isType hrep hlegal hrun
    exact ⟨hans, hrep⟩
  | create d name =>
    obtain ⟨⟨es, hd⟩, -⟩ := hlegal
    obtain ⟨hmakes, ⟨rfl, hsame⟩ | ⟨i, rfl, hrep'⟩⟩ := refines_make (.file [])
      ⟨short T_FILE, []⟩ hrep hwf hnames hd rfl
      (fun f hf hfind =>
        by rw [Call.prog, Prog.run_bind, create, run_createType_exist hf hfind]; rfl)
      (fun f i names hf hfind hn hdi => by
        rw [Call.prog, Prog.run_bind, create, run_createType_new hf hfind hn hdi]; rfl)
      (fun f hf hfind hn =>
        by rw [Call.prog, Prog.run_bind, create, run_createType_blocked hf hfind hn])
      hrun
    · exact ⟨hmakes, hsame ▸ hrep⟩
    · exact ⟨hmakes, hrep'⟩
  | mkdir d name =>
    obtain ⟨⟨es, hd⟩, -⟩ := hlegal
    obtain ⟨hmakes, ⟨rfl, hsame⟩ | ⟨i, rfl, hrep'⟩⟩ := refines_make (.dir [])
      ⟨short T_DIR, []⟩ hrep hwf hnames hd rfl
      (fun f hf hfind =>
        by rw [Call.prog, Prog.run_bind, mkdir, run_createType_exist hf hfind]; rfl)
      (fun f i names hf hfind hn hdi => by
        rw [Call.prog, Prog.run_bind, mkdir, run_createType_new hf hfind hn hdi]; rfl)
      (fun f hf hfind hn =>
        by rw [Call.prog, Prog.run_bind, mkdir, run_createType_blocked hf hfind hn])
      hrun
    · exact ⟨hmakes, hsame ▸ hrep⟩
    · exact ⟨hmakes, hrep'⟩
  | symlink d link name =>
    obtain ⟨⟨es, hd⟩, -⟩ := hlegal
    obtain ⟨hmakes, ⟨rfl, hsame⟩ | ⟨i, rfl, hrep'⟩⟩ := refines_make (.link link)
      ⟨short T_LINK, link⟩ hrep hwf hnames hd rfl
      (fun f hf hfind => by rw [Call.prog, Prog.run_bind, run_symlink_exist hf hfind]; rfl)
      (fun f i names hf hfind hn hdi => by
        rw [Call.prog, Prog.run_bind, run_symlink_new hf hfind hn hdi]; rfl)
      (fun f hf hfind hn => by rw [Call.prog, Prog.run_bind, run_symlink_blocked hf hfind hn])
      hrun
    · exact ⟨hmakes, hsame ▸ hrep⟩
    · exact ⟨hmakes, hrep'⟩
  | lookup d name =>
    obtain ⟨⟨es, hd⟩, hname⟩ := hlegal
    obtain ⟨f, hf, -, -, hfind⟩ := hrep.dir hwf hd
    have hget := hrep.get_eq_none hwf hd hf name
    rw [Call.prog, Prog.run_bind, run_lookup hf] at hrun
    cases hg : ns.get d name with
    | none =>
      rw [if_pos (hget.mp hg)] at hrun
      cases hrun
      exact ⟨by simp only [Namespace.Answers, hg], hrep⟩
    | some i =>
      rw [if_neg fun h0 => by simp [hget.mpr h0] at hg, hfind name, hg] at hrun
      cases hrun
      exact ⟨by simp only [Namespace.Answers, hg, Option.getD_some], hrep⟩
  | readdir d =>
    obtain ⟨es, hd⟩ := hlegal
    obtain ⟨f, hf, -, hparse, -⟩ := hrep.dir hwf hd
    rw [Call.prog, Prog.run_bind, run_readdir hf, hparse] at hrun
    cases hrun
    refine ⟨?_, hrep⟩
    rw [Namespace.Answers, Namespace.entries_eq hd]
  | unlink d name =>
    obtain ⟨⟨es, hd⟩, hname⟩ := hlegal
    obtain ⟨f, hf, hshow, hparse, -⟩ := hrep.dir hwf hd
    have hget := hrep.get_eq_none hwf hd hf name
    rw [Call.prog, Prog.run_bind, run_unlink hf] at hrun
    cases hrun
    have hfilter : (ns.entries d).filter (·.name ≠ name) = es.filter (·.name ≠ name) := by
      rw [Namespace.entries_eq hd]
    refine ⟨rfl, hrep.update ?_⟩
    rw [hfilter]
    obtain rfl : f = ⟨short T_DIR, es.flatMap Directory.entryString⟩ := hshow
    show remove _ name = _
    unfold remove
    split
    case isTrue h0 =>
      -- nothing has this name
      have hall : ∀ e ∈ es, e.name ≠ name := by
        have := hget.mpr h0
        simpa [Namespace.get, Namespace.entries_eq hd] using this
      rw [List.filter_eq_self.mpr fun e he => decide_eq_true (hall e he)]
    case isFalse =>
      simp only [Directory.tostring, Directory.delent, Directory.ofString, hparse]
  | read i size off =>
    obtain ⟨v, hv⟩ := hlegal
    obtain ⟨f, hf, hshow⟩ := hrep.some i _ hv
    obtain rfl : f = ⟨short T_FILE, v⟩ := hshow
    rw [Call.prog, Prog.run_bind, run_read hf] at hrun
    cases hrun
    exact ⟨⟨v, hv, rfl⟩, hrep⟩
  | write i off data =>
    obtain ⟨v, hv⟩ := hlegal
    obtain ⟨f, hf, hshow⟩ := hrep.some i _ hv
    obtain rfl : f = ⟨short T_FILE, v⟩ := hshow
    rw [Call.prog, Prog.run_bind] at hrun
    cases hw : writeAt v off data with
    | error e =>
      rw [run_write_failed hf hw] at hrun
      cases hrun
    | ok buf =>
      rw [run_write hf hw] at hrun
      cases hrun
      have heffect : ns.effect (.write i off data) (.status .ok) =
          Function.update ns i (some (.file buf)) := by
        simp only [Namespace.effect, Namespace.write, hv, hw]
      exact ⟨rfl, heffect ▸ hrep.update rfl⟩
  | readlink i =>
    obtain ⟨text, hl⟩ := hlegal
    obtain ⟨f, hf, hshow⟩ := hrep.some i _ hl
    obtain rfl : f = ⟨short T_LINK, text⟩ := hshow
    rw [Call.prog, Prog.run_bind, run_readlink hf] at hrun
    cases hrun
    exact ⟨⟨text, hl, rfl⟩, hrep⟩

end Store

end Yfs.Fs
