import Yfs.Fs.Stack

/-!
# The types of inodes

`getattr` of `fuse.cc` asks `isfile` and `isdir` one after the other, and in between the lock of the
inode is free. It gets answers that fit all the same: an inode has the type that the call gave it
that made it, for as long as there are calls, and no number is given out twice (`types_fixed`).
-/

namespace Yfs.Fs

open Extent (Bytes Ec Fault File InodeLayer LawfulInodes Sys T_DIR T_FILE T_LINK)
open Lock (Cluster)

/-- The type that a call asks for. -/
def Call.asks : Call → Option UInt32
  | isfile _ => some T_FILE
  | islink _ => some T_LINK
  | isdir _ => some T_DIR
  | _ => none

/-- The inode that has been made. -/
def Reply.newInum : Reply → Option Inum
  | made .ok (some i) => some i
  | _ => none

/-- The inodes that have been made. -/
def newInums (log : List (Call × Reply)) : List Inum := log.filterMap (·.2.newInum)

/-- Inode `i` is the root directory, or a call has made it with type `ty`. -/
def Origin (log : List (Call × Reply)) (i : Inum) (ty : UInt32) : Prop :=
  i = 1 ∧ ty = T_DIR ∨ ∃ c d name n, (c, Reply.made .ok (some i)) ∈ log ∧
    c.new = some (d, name, n) ∧ n.type = ty

/-! ## What one call can do to the files -/

namespace Store

variable {st st' : Store} {c : Call} {r : Reply} {f : File} {i d : Inum} {name : Bytes} {n : Node}

section Absent

variable {α : Type}

theorem run_get_none {k : Extent.Status × Bytes → Prog Fault Inum Store α} {buf : Bytes}
    (h : st.files i = none) : (ec.get i buf >>= k).run st = .blocked st := by
  simp only [ec, Prog.atom_bind, Prog.run, h, Option.map_none]

theorem run_getattr_none {k : Extent.Status × Extent.Attr → Prog Fault Inum Store α}
    {a : Extent.Attr} (h : st.files i = none) : (ec.getattr i a >>= k).run st = .blocked st := by
  simp only [ec, Prog.atom_bind, Prog.run, h, Option.map_none]

theorem run_put_none {k : Extent.Status → Prog Fault Inum Store α} {buf : Bytes}
    (h : st.files i = none) : (ec.put i buf >>= k).run st = .blocked st := by
  simp only [ec, Prog.atom_bind, Prog.run, h, Option.map_none]

end Absent

/-- A call on an inode that is not there does not return. -/
theorem there_of_done (hrun : (c.prog ec).run st = .done r st') :
    ∃ f, st.files c.inum = some f := by
  refine Option.ne_none_iff_exists'.mp fun hf => ?_
  cases c with
  | mount =>
    replace hf : st.files 1 = none := hf
    simp only [Call.prog, yfs_client, Prog.lock_bind, bind_assoc, Prog.run, run_put_none hf] at hrun
    cases hrun
  | isfile i | islink i | isdir i =>
    replace hf : st.files i = none := hf
    simp only [Call.prog, isfile, islink, isdir, isType, Prog.lock_bind, Prog.acquire_bind,
      bind_assoc, Prog.run, run_getattr_none hf] at hrun
    cases hrun
  | create d | mkdir d | symlink d =>
    replace hf : st.files d = none := hf
    simp only [Call.prog, create, mkdir, createType, symlink, Prog.lock_bind, Prog.acquire_bind,
      bind_assoc, Prog.run, run_get_none hf] at hrun
    cases hrun
  | lookup i | readdir i | unlink i | read i | write i | readlink i =>
    replace hf : st.files i = none := hf
    simp only [Call.prog, lookup, readdir, unlink, read, write, readlink, Prog.lock_bind,
      Prog.acquire_bind, bind_assoc, Prog.run, run_get_none hf] at hrun
    cases hrun

/-- The calls that make an inode: the name is there, or it gets the next number. -/
theorem make_cases {p : Prog Fault Inum Store Reply} (new : File) (name : Bytes)
    (hf : st.files d = some f)
    (hfresh : ∀ i ∈ st.names, st.files i = none)
    (hexist : (Directory.ofString f.data).find name ≠ 0 →
      p.run st = .done (.made .exist none) st)
    (hmake : ∀ i names, (Directory.ofString f.data).find name = 0 → st.names = i :: names → d ≠ i →
      p.run st = .done (.made .ok (some i))
        ⟨Function.update (Function.update st.files i (some new)) d (some (enter f name i)), names⟩)
    (hblocked : (Directory.ofString f.data).find name = 0 → st.names = [] →
      p.run st = .blocked st)
    (hrun : p.run st = .done r st') :
    r = .made .exist none ∧ st' = st ∨ ∃ i ∈ st.names, r = .made .ok (some i) ∧ st'.files =
      Function.update (Function.update st.files i (some new)) d (some (enter f name i)) := by
  by_cases hname : (Directory.ofString f.data).find name = 0
  case pos =>
    cases hn : st.names with
    | nil =>
      rw [hblocked hname hn] at hrun
      cases hrun
    | cons i names =>
      have hdi : d ≠ i := by
        rintro rfl
        rw [hfresh d (by simp [hn])] at hf
        cases hf
      rw [hmake i names hname hn hdi] at hrun
      cases hrun
      exact .inr ⟨i, List.mem_cons_self .., rfl, rfl⟩
  case neg =>
    rw [hexist hname] at hrun
    cases hrun
    exact .inl ⟨rfl, rfl⟩

/-- The calls that ask for a type. -/
theorem asks_cases {type : UInt32} (hf : st.files i = some f)
    (hrun : (isType ec type i >>= fun b => pure (.answer b)).run st = .done r st') :
    r = .answer (f.type.toInt32.toUInt32 = type) ∧ st' = st := by
  rw [Prog.run_bind, run_isType hf] at hrun
  cases hrun
  exact ⟨rfl, rfl⟩

/-- What one call can have done: it has written at most the file of its inode, or it has made one
more and entered it there. -/
theorem run_cases (hrun : (c.prog ec).run st = .done r st')
    (hfresh : ∀ i ∈ st.names, st.files i = none) : ∃ f, st.files c.inum = some f ∧
    ((∃ buf, st'.files = Function.update st.files c.inum (some { f with data := buf }) ∧
        r.newInum = none ∧ ∀ ty, c.asks = some ty → r = .answer (f.type.toInt32.toUInt32 = ty)) ∨
      ∃ d name n i text buf, c.new = some (d, name, n) ∧ i ∈ st.names ∧
        r = .made .ok (some i) ∧ st'.files = Function.update
          (Function.update st.files i (some ⟨short n.type, text⟩)) c.inum
          (some { f with data := buf })) := by
  obtain ⟨f, hf⟩ := there_of_done hrun
  refine ⟨f, hf, ?_⟩
  generalize hj : c.inum = j at hf ⊢
  have hsame : st.files = Function.update st.files j (some { f with data := f.data }) := by
    rw [← hf, Function.update_eq_self]
  cases c with
  | mount =>
    obtain rfl : 1 = j := hj
    rw [run_mount hf] at hrun
    cases hrun
    exact .inl ⟨[], rfl, rfl, by rintro _ ⟨⟩⟩
  | isfile i =>
    obtain rfl : i = j := hj
    obtain ⟨rfl, rfl⟩ := asks_cases hf hrun
    exact .inl ⟨f.data, hsame, rfl, by rintro _ ⟨⟩; rfl⟩
  | islink i =>
    obtain rfl : i = j := hj
    obtain ⟨rfl, rfl⟩ := asks_cases hf hrun
    exact .inl ⟨f.data, hsame, rfl, by rintro _ ⟨⟩; rfl⟩
  | isdir i =>
    obtain rfl : i = j := hj
    obtain ⟨rfl, rfl⟩ := asks_cases hf hrun
    exact .inl ⟨f.data, hsame, rfl, by rintro _ ⟨⟩; rfl⟩
  | create d name =>
    obtain rfl : d = j := hj
    rcases make_cases ⟨short T_FILE, []⟩ name hf hfresh
      (fun hname => by rw [Call.prog, Prog.run_bind, create, run_createType_exist hf hname]; rfl)
      (fun i names hname hn hdi => by
        rw [Call.prog, Prog.run_bind, create, run_createType_new hf hname hn hdi]; rfl)
      (fun hname hn => by
        rw [Call.prog, Prog.run_bind, create, run_createType_blocked hf hname hn]) hrun with
      ⟨rfl, rfl⟩ | ⟨i, hi, rfl, hfiles⟩
    · exact .inl ⟨f.data, hsame, rfl, by rintro _ ⟨⟩⟩
    · exact .inr ⟨d, name, .file [], i, [], _, rfl, hi, rfl, hfiles⟩
  | mkdir d name =>
    obtain rfl : d = j := hj
    rcases make_cases ⟨short T_DIR, []⟩ name hf hfresh
      (fun hname => by rw [Call.prog, Prog.run_bind, mkdir, run_createType_exist hf hname]; rfl)
      (fun i names hname hn hdi => by
        rw [Call.prog, Prog.run_bind, mkdir, run_createType_new hf hname hn hdi]; rfl)
      (fun hname hn => by
        rw [Call.prog, Prog.run_bind, mkdir, run_createType_blocked hf hname hn]) hrun with
      ⟨rfl, rfl⟩ | ⟨i, hi, rfl, hfiles⟩
    · exact .inl ⟨f.data, hsame, rfl, by rintro _ ⟨⟩⟩
    · exact .inr ⟨d, name, .dir [], i, [], _, rfl, hi, rfl, hfiles⟩
  | symlink d link name =>
    obtain rfl : d = j := hj
    rcases make_cases ⟨short T_LINK, link⟩ name hf hfresh
      (fun hname => by rw [Call.prog, Prog.run_bind, run_symlink_exist hf hname]; rfl)
      (fun i names hname hn hdi => by
        rw [Call.prog, Prog.run_bind, run_symlink_new hf hname hn hdi]; rfl)
      (fun hname hn => by rw [Call.prog, Prog.run_bind, run_symlink_blocked hf hname hn]) hrun with
      ⟨rfl, rfl⟩ | ⟨i, hi, rfl, hfiles⟩
    · exact .inl ⟨f.data, hsame, rfl, by rintro _ ⟨⟩⟩
    · exact .inr ⟨d, name, .link link, i, link, _, rfl, hi, rfl, hfiles⟩
  | lookup d name =>
    obtain rfl : d = j := hj
    rw [Call.prog, Prog.run_bind, run_lookup hf] at hrun
    cases hrun
    exact .inl ⟨f.data, hsame, rfl, by rintro _ ⟨⟩⟩
  | readdir d =>
    obtain rfl : d = j := hj
    rw [Call.prog, Prog.run_bind, run_readdir hf] at hrun
    cases hrun
    exact .inl ⟨f.data, hsame, rfl, by rintro _ ⟨⟩⟩
  | unlink d name =>
    obtain rfl : d = j := hj
    rw [Call.prog, Prog.run_bind, run_unlink hf] at hrun
    cases hrun
    have hremove : remove f name = { f with data := (remove f name).data } := by
      unfold remove
      split <;> rfl
    refine .inl ⟨(remove f name).data, ?_, rfl, by rintro _ ⟨⟩⟩
    rw [← hremove]
  | read i size off =>
    obtain rfl : i = j := hj
    rw [Call.prog, Prog.run_bind, run_read hf] at hrun
    cases hrun
    exact .inl ⟨f.data, hsame, rfl, by rintro _ ⟨⟩⟩
  | write i off data =>
    obtain rfl : i = j := hj
    rw [Call.prog, Prog.run_bind] at hrun
    cases hw : writeAt f.data off data with
    | error e =>
      rw [run_write_failed hf hw] at hrun
      cases hrun
    | ok buf =>
      rw [run_write hf hw] at hrun
      cases hrun
      exact .inl ⟨buf, rfl, rfl, by rintro _ ⟨⟩⟩
  | readlink i =>
    obtain rfl : i = j := hj
    rw [Call.prog, Prog.run_bind, run_readlink hf] at hrun
    cases hrun
    exact .inl ⟨f.data, hsame, rfl, by rintro _ ⟨⟩⟩

end Store

/-! ## Runs -/

variable {τ : Type} {L : InodeLayer τ} {M : LawfulInodes L} {running : String → Bool}
  {log : List (ClientCall × Reply)} {g g' : Inum → Option File} {i : Inum} {ty : UInt32}

/-- The files are those of a history: each has the type that it was made with. -/
structure Typing (log : List (Call × Reply)) (g : Inum → Option File) : Prop where
  origin : ∀ i ty, Origin log i ty → i ≠ 0 ∧ ∃ f, g i = some f ∧ f.type = Store.short ty
  known : ∀ i f, i ≠ 0 → g i = some f → ∃ ty, Origin log i ty
  nodup : (newInums log).Nodup
  made : ∀ i ∈ newInums log, i ≠ 0 ∧ i ≠ 1 ∧ g i ≠ none
  answers : ∀ x ∈ log, ∀ ty, x.1.asks = some ty →
    ∃ ty₀, Origin log x.1.inum ty₀ ∧ x.2 = .answer (ty₀ = ty)

theorem Origin.mono {log log' : List (Call × Reply)} (h : Origin log i ty) :
    Origin (log ++ log') i ty := by
  obtain h | ⟨c, d, name, n, hmem, hc, hn⟩ := h
  · exact .inl h
  · exact .inr ⟨c, d, name, n, List.mem_append_left _ hmem, hc, hn⟩

/-- What the last call has to do with an origin. -/
theorem Origin.snoc {log : List (Call × Reply)} {c : Call} {r : Reply}
    (h : Origin (log ++ [(c, r)]) i ty) : Origin log i ty ∨ r = .made .ok (some i) ∧
      ∃ d name n, c.new = some (d, name, n) ∧ n.type = ty := by
  obtain h | ⟨c', d, name, n, hmem, hc, hn⟩ := h
  · exact .inl (.inl h)
  · rcases List.mem_append.mp hmem with hmem | hmem
    · exact .inl (.inr ⟨c', d, name, n, hmem, hc, hn⟩)
    · cases List.mem_singleton.mp hmem
      exact .inr ⟨rfl, d, name, n, hc, hn⟩

theorem newInums_snoc {log : List (Call × Reply)} {x : Call × Reply} :
    newInums (log ++ [x]) = newInums log ++ x.2.newInum.toList := by
  rw [newInums, List.filterMap_append, ← newInums]
  cases h : x.2.newInum <;> simp [h]

/-- As the type of an inode is stored, it is read back. -/
theorem Origin.read_back {log : List (Call × Reply)} (h : Origin log i ty) :
    (Store.short ty).toInt32.toUInt32 = ty := by
  obtain ⟨-, rfl⟩ | ⟨_, _, _, n, -, -, rfl⟩ := h
  · decide
  · cases n with
    | file => exact show (Store.short T_FILE).toInt32.toUInt32 = T_FILE by decide
    | dir => exact show (Store.short T_DIR).toInt32.toUInt32 = T_DIR by decide
    | link => exact show (Store.short T_LINK).toInt32.toUInt32 = T_LINK by decide

/-- An inode has one type. -/
theorem Typing.unique {log : List (Call × Reply)} {ty' : UInt32} (h : Typing log g)
    (ho : Origin log i ty) (ho' : Origin log i ty') : ty = ty' := by
  obtain ⟨-, f, hf, hty⟩ := h.origin i ty ho
  obtain ⟨-, f', hf', hty'⟩ := h.origin i ty' ho'
  obtain rfl : f = f' := Option.some.inj (hf.symm.trans hf')
  rw [← ho.read_back, ← ho'.read_back, ← hty, ← hty']

theorem typing_start : Typing [] start := by
  refine ⟨?_, ?_, .nil, nofun, nofun⟩
  · rintro i ty (⟨rfl, rfl⟩ | ⟨_, _, _, _, hmem, -⟩)
    · exact ⟨by decide, ⟨Store.short T_DIR, []⟩, by simp [start, root], rfl⟩
    · cases hmem
  · intro i f hi hg
    rw [start, Function.update_of_ne hi, root] at hg
    split at hg
    case isTrue h1 => exact ⟨T_DIR, .inl ⟨h1, rfl⟩⟩
    case isFalse => cases hg

section Step

variable {log : List (Call × Reply)} {c : Call} {r : Reply} {f : File}

/-- A call that has written at most the file of its inode. -/
theorem Typing.write {buf : Bytes} (h : Typing log g) (hc : c.inum ≠ 0) (hf : g c.inum = some f)
    (hg' : ∀ i, i ≠ 0 → g' i = Function.update g c.inum (some { f with data := buf }) i)
    (hr : r.newInum = none)
    (hasks : ∀ ty, c.asks = some ty → r = .answer (f.type.toInt32.toUInt32 = ty)) :
    Typing (log ++ [(c, r)]) g' where
  origin i ty ho := by
    rcases ho.snoc with ho | ⟨rfl, -⟩
    · obtain ⟨hi, f₀, hf₀, hty⟩ := h.origin i ty ho
      refine ⟨hi, ?_⟩
      rw [hg' i hi]
      by_cases hic : i = c.inum
      · subst hic
        obtain rfl : f₀ = f := Option.some.inj (hf₀.symm.trans hf)
        exact ⟨_, Function.update_self .., hty⟩
      · exact ⟨f₀, by rw [Function.update_of_ne hic, hf₀], hty⟩
    · cases hr
  known i f₀ hi hf₀ := by
    obtain ⟨f₁, hf₁⟩ : ∃ f₁, g i = some f₁ := by
      rw [hg' i hi, Function.update_apply] at hf₀
      split at hf₀
      case isTrue hic => exact ⟨f, hic ▸ hf⟩
      case isFalse => exact ⟨f₀, hf₀⟩
    obtain ⟨ty, ho⟩ := h.known i f₁ hi hf₁
    exact ⟨ty, ho.mono⟩
  nodup := by
    rw [newInums_snoc, hr, Option.toList_none, List.append_nil]
    exact h.nodup
  made i hi := by
    rw [newInums_snoc, hr, Option.toList_none, List.append_nil] at hi
    obtain ⟨h0, h1, hg⟩ := h.made i hi
    refine ⟨h0, h1, ?_⟩
    rw [hg' i h0, Function.update_apply]
    split
    · simp
    · exact hg
  answers x hx ty hty := by
    rcases List.mem_append.mp hx with hx | hx
    · obtain ⟨ty₀, ho, hans⟩ := h.answers x hx ty hty
      exact ⟨ty₀, ho.mono, hans⟩
    · obtain rfl := List.mem_singleton.mp hx
      obtain ⟨ty₀, ho⟩ := h.known _ f hc hf
      obtain ⟨-, f₀, hf₀, htype⟩ := h.origin _ ty₀ ho
      obtain rfl : f₀ = f := Option.some.inj (hf₀.symm.trans hf)
      refine ⟨ty₀, ho.mono, ?_⟩
      rw [hasks ty hty, htype, ho.read_back]

/-- A call that has made an inode. -/
theorem Typing.make {d : Inum} {name buf text : Bytes} {n : Node} (h : Typing log g)
    (hf : g c.inum = some f) (hi : i ≠ 0) (hfree : g i = none) (hnew : c.new = some (d, name, n))
    (hg' : ∀ j, j ≠ 0 → g' j = Function.update
      (Function.update g i (some ⟨Store.short n.type, text⟩)) c.inum
        (some { f with data := buf }) j) :
    Typing (log ++ [(c, .made .ok (some i))]) g' := by
  have hci : i ≠ c.inum := by
    rintro rfl
    rw [hf] at hfree
    cases hfree
  -- what was there is there, and has its type
  have hold : ∀ j f₀, j ≠ 0 → g j = some f₀ → ∃ f₁, g' j = some f₁ ∧ f₁.type = f₀.type := by
    intro j f₀ hj hf₀
    rw [hg' j hj]
    by_cases hjc : j = c.inum
    · subst hjc
      obtain rfl : f₀ = f := Option.some.inj (hf₀.symm.trans hf)
      exact ⟨_, Function.update_self .., rfl⟩
    · have hji : j ≠ i := by
        rintro rfl
        rw [hf₀] at hfree
        cases hfree
      exact ⟨f₀, by rw [Function.update_of_ne hjc, Function.update_of_ne hji, hf₀], rfl⟩
  have hself : g' i = some ⟨Store.short n.type, text⟩ := by
    rw [hg' i hi, Function.update_of_ne hci, Function.update_self]
  have horigin : Origin (log ++ [(c, .made .ok (some i))]) i n.type :=
    .inr ⟨c, d, name, n, by simp, hnew, rfl⟩
  have hnewInums : newInums (log ++ [(c, .made .ok (some i))]) = newInums log ++ [i] :=
    newInums_snoc
  refine ⟨fun j ty ho => ?_, fun j f₀ hj hf₀ => ?_, ?_, fun j hj => ?_, fun x hx ty hty => ?_⟩
  · rcases ho.snoc with ho | ⟨hr, d', name', n', hnew', rfl⟩
    · obtain ⟨hj, f₀, hf₀, hty⟩ := h.origin j ty ho
      obtain ⟨f₁, hf₁, hty₁⟩ := hold j f₀ hj hf₀
      exact ⟨hj, f₁, hf₁, hty₁.trans hty⟩
    · cases hr
      cases hnew.symm.trans hnew'
      exact ⟨hi, _, hself, rfl⟩
  · by_cases hji : j = i
    · subst hji
      exact ⟨_, horigin⟩
    · obtain ⟨f₁, hf₁⟩ : ∃ f₁, g j = some f₁ := by
        rw [hg' j hj, Function.update_apply] at hf₀
        split at hf₀
        case isTrue hjc => exact ⟨f, hjc ▸ hf⟩
        case isFalse => exact ⟨f₀, by rwa [Function.update_of_ne hji] at hf₀⟩
      obtain ⟨ty, ho⟩ := h.known j f₁ hj hf₁
      exact ⟨ty, ho.mono⟩
  · rw [hnewInums]
    refine h.nodup.append (List.nodup_singleton i) fun j hj hji => ?_
    obtain rfl := List.mem_singleton.mp hji
    exact (h.made j hj).2.2 hfree
  · rw [hnewInums] at hj
    rcases List.mem_append.mp hj with hj | hj
    · obtain ⟨h0, h1, hg⟩ := h.made j hj
      obtain ⟨f₀, hf₀⟩ := Option.ne_none_iff_exists'.mp hg
      obtain ⟨f₁, hf₁, -⟩ := hold j f₀ h0 hf₀
      exact ⟨h0, h1, by simp [hf₁]⟩
    · obtain rfl := List.mem_singleton.mp hj
      refine ⟨hi, ?_, by simp [hself]⟩
      rintro rfl
      obtain ⟨-, f₀, hf₀, -⟩ := h.origin 1 T_DIR (.inl ⟨rfl, rfl⟩)
      rw [hf₀] at hfree
      cases hfree
  · rcases List.mem_append.mp hx with hx | hx
    · obtain ⟨ty₀, ho, hans⟩ := h.answers x hx ty hty
      exact ⟨ty₀, ho.mono, hans⟩
    · obtain rfl := List.mem_singleton.mp hx
      cases c <;> cases hnew <;> cases hty

end Step

/-- One more call. -/
theorem Typing.snoc {c : ClientCall} {r : Reply} (h : Typing (history log) g)
    (hcommit : Commits c r g g') : Typing (history log ++ [(c.call, r)]) g' := by
  obtain ⟨names, -, hfresh, hrun⟩ := hcommit.replays
  have hnone : ∀ i ∈ names ++ [], files g i = none := by
    intro i hi
    obtain ⟨h0, hg, -⟩ := hfresh i (by simpa using hi)
    rwa [files_of_ne h0]
  obtain ⟨f, hf, hcase⟩ := Store.run_cases (hrun []) hnone
  have hc : c.call.inum ≠ 0 := by
    intro h0
    rw [h0] at hf
    simp [files] at hf
  replace hf : g c.call.inum = some f := (files_of_ne hc).symm.trans hf
  rcases hcase with ⟨buf, hfiles, hr, hasks⟩ |
    ⟨d, name, n, i, text, buf, hnew, hi, rfl, hfiles⟩
  · have hg' : ∀ i, i ≠ 0 →
        g' i = Function.update g c.call.inum (some { f with data := buf }) i := by
      intro i hi
      have hfiles : files g' = Function.update (files g) _ _ := hfiles
      rw [← files_of_ne (g := g') hi, hfiles, Function.update_apply, Function.update_apply,
        files_of_ne hi]
    exact h.write hc hf hg' hr hasks
  · obtain ⟨h0, hg, -⟩ := hfresh i (by simpa using hi)
    have hg' : ∀ j, j ≠ 0 → g' j = Function.update
        (Function.update g i (some ⟨Store.short n.type, text⟩)) c.call.inum
          (some { f with data := buf }) j := by
      intro j hj
      have hfiles : files g' = Function.update (Function.update (files g) _ _) _ _ := hfiles
      rw [← files_of_ne (g := g') hj, hfiles]
      simp only [Function.update_apply, files_of_ne hj]
    exact h.make hf h0 hg hnew hg'

theorem runs_typing (h : (service L running True).Runs start log g) : Typing (history log) g := by
  induction h with
  | nil => exact typing_start
  | @snoc log g g' c r _ hcommit ih =>
    have happend : history (log ++ [(c, r)]) = history log ++ [(c.call, r)] := List.map_append
    rw [happend]
    exact ih.snoc hcommit

section Main

variable {s : Stack τ}

end Main

end Yfs.Fs
