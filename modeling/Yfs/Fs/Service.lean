import Yfs.Extent.Calls
import Yfs.Fs.Store

/-!
# The file system over the write-back cache

The calls of any number of `yfs_client`s, on the server and with the caches between them.
Inodes are objects in the sense of `Lib.Pool`: an object is a file with its type and its
content, wherever the copy is that counts. Every call keeps to the inodes it holds the locks
of, and does to them what it does to the files of a store without caches (`holds_call`).
Lock 0, `create_flag`, is an object without a file.
-/

namespace Yfs.Fs

open Extent (Bytes Attr Fault File InodeLayer LawfulInodes Sys Idle objects OK T_DIR T_FILE
  T_LINK)

variable {τ : Type} {L : InodeLayer τ} {M : LawfulInodes L} {running : String → Bool}

/-- A call, and the client at which it is made. -/
structure ClientCall where
  client : String
  call : Call
  deriving DecidableEq, Repr

/-- Its code: on the extent client of that client. -/
def ClientCall.prog (L : InodeLayer τ) (running : String → Bool) (c : ClientCall) :
    Prog Fault Inum (Sys τ) Reply :=
  c.call.prog (Extent.Client.ec (Sys.host c.client) (Sys.calls L running))

/-- More than one client runs, so that data is written back. -/
def Several (running : String → Bool) : Prop :=
  ∃ c c', running c = true ∧ running c' = true ∧ c' ≠ c

/-- Inodes as objects. -/
def inodes (M : LawfulInodes L) (running : String → Bool) : Objects Inum File (Sys τ) :=
  objects M (Several running) fun i f sl => i = 0 ∨ i.toNat < 2 ^ 31 ∧
    Idle running False f.type f.data sl

/-- The files among the objects. -/
def files (g : Inum → Option File) : Inum → Option File := Function.update g 0 none

theorem files_of_ne {g : Inum → Option File} {i : Inum} (hi : i ≠ 0) : files g i = g i :=
  Function.update_of_ne hi _ _

theorem files_update {g : Inum → Option File} {i : Inum} (hi : i ≠ 0) (f : Option File) :
    files (Function.update g i f) = Function.update (files g) i f :=
  Function.update_comm hi _ _ _

/-- The call does to the files, and replies, what it does and replies on a store that gives
new files numbers that are not in use. -/
def Replays (c : Call) (r : Reply) (g g' : Inum → Option File) : Prop :=
  ∃ names : List Inum, names.Nodup ∧ (∀ n ∈ names, n ≠ 0 ∧ g n = none ∧ g' n ≠ none) ∧
    ∀ rest, (c.prog Store.ec).run ⟨files g, names ++ rest⟩ = .done r ⟨files g', rest⟩

/-- What a call does to the objects. -/
structure Commits (c : ClientCall) (r : Reply) (g g' : Inum → Option File) : Prop where
  replays : Replays c.call r g g'
  grows : ∀ i, g i ≠ none → g' i ≠ none
  made : ∀ i, r = .made .ok (some i) → i ≠ 0 ∧ g' i ≠ none

/-- The calls as a service. If there are writes, `W`, what ends a process in one of them is not
held against it. -/
def service (L : InodeLayer τ) (running : String → Bool) (W : Prop) :
    Service Fault Inum File (Sys τ) ClientCall Reply where
  prog := ClientCall.prog L running
  commit := Commits
  excused e := W ∧ (e = .outOfRange ∨ e = .badLength)

section Rules

variable {s : Sys τ} {g : Inum → Option File} {call : ClientCall} {c : String} {i : Inum}
  {F : Set Inum} {ty : Int16} {v : Bytes} {W : Prop}

/-- The rest `k` of a call, by a thread that holds the inodes in `H`. -/
abbrev Keeps (M : LawfulInodes L) (running : String → Bool) (W : Prop) (call : ClientCall)
    (k : Prog Fault Inum (Sys τ) Reply) (H : Set Inum) (s : Sys τ)
    (g : Inum → Option File) : Prop :=
  Holds (inodes M running) (service L running W) (fun _ => ()) call k H s g

/-- What is there, and not just made. -/
def There (M : LawfulInodes L) (F : Set Inum) (s : Sys τ) : Prop :=
  ∀ j ∈ F, j ≠ 0 → (s.slice M j).disk ≠ none

theorem There.not_free (h : There M F s) : ∀ j ∈ F, ¬ (inodes M running).free j s :=
  fun j hj hf => h j hj hf.1 hf.2

/-- `ec->get` on an inode whose lock is held. -/
theorem keeps_get {k : Extent.Status × Bytes → Prog Fault Inum (Sys τ) Reply} {buf : Bytes}
    (hr : running c = true) (hlt : i.toNat < 2 ^ 31) (hidle : Idle running False ty v (s.slice M i))
    (hi : i ∉ F) (hF : There M F s)
    (h : ∀ s' g', Idle running False ty v (s'.slice M i) → (∀ j ∈ F, s'.slice M j = s.slice M j) →
      (∀ j ∈ insert i F, g' j = g j) → Keeps M running W call (k (OK, v)) (insert i F) s' g') :
    Keeps M running W call
      ((Extent.Client.ec (Sys.host c) (Sys.calls L running)).get i buf >>= k) (insert i F) s g := by
  refine Holds.bind ?_
  have hseg : Seg (inodes M running) (service L running W).excused
      (Extent.Client.get (Sys.host c) (Sys.calls L running) i buf)
      (fun r H' s' => H' = {i} ∧ r = (OK, v) ∧ Idle running False ty v (s'.slice M i)) {i} s := by
    rw [← bind_pure (Extent.Client.get _ _ _ _)]
    refine Extent.seg_get rfl hlt rfl hidle hr
      (fun o ho hne => ⟨c, o, hr, ho, hne⟩) fun s' sl' hs' hhas _ => ⟨rfl, rfl, ?_⟩
    exact hs'.symm ▸ hhas.idle
  refine (hseg.frame (Set.disjoint_singleton_left.mpr hi) hF.not_free).mono ?_
  rintro _ _ s' ⟨_, rfl, -, hsame, rfl, rfl, hidle'⟩ g' - hg' -
  exact h s' g' hidle' hsame hg'

/-- `ec->put`. -/
theorem keeps_put {k : Extent.Status → Prog Fault Inum (Sys τ) Reply} {buf : Bytes}
    (hr : running c = true) (hlt : i.toNat < 2 ^ 31) (hidle : Idle running False ty v (s.slice M i))
    (hi : i ∉ F) (hF : There M F s)
    (h : ∀ s' g', Idle running False ty buf (s'.slice M i) → (∀ j ∈ F, s'.slice M j = s.slice M j) →
      (∀ j ∈ insert i F, g' j = g j) → Keeps M running W call (k OK) (insert i F) s' g') :
    Keeps M running W call
      ((Extent.Client.ec (Sys.host c) (Sys.calls L running)).put i buf >>= k) (insert i F) s g := by
  refine Holds.bind ?_
  have hseg : Seg (inodes M running) (service L running W).excused
      (Extent.Client.put (Sys.host c) (Sys.calls L running) i buf)
      (fun r H' s' => H' = {i} ∧ r = OK ∧ Idle running False ty buf (s'.slice M i)) {i} s := by
    rw [← bind_pure (Extent.Client.put _ _ _ _)]
    refine Extent.seg_put rfl hlt rfl hidle hr (fun o ho hne => ⟨c, o, hr, ho, hne⟩)
      (fun hW => hW.elim) fun s' sl' hs' hidle' => ⟨rfl, rfl, ?_⟩
    exact hs'.symm ▸ hidle'
  refine (hseg.frame (Set.disjoint_singleton_left.mpr hi) hF.not_free).mono ?_
  rintro _ _ s' ⟨_, rfl, -, hsame, rfl, rfl, hidle'⟩ g' - hg' -
  exact h s' g' hidle' hsame hg'

/-- `ec->getattr`. -/
theorem keeps_getattr {k : Extent.Status × Attr → Prog Fault Inum (Sys τ) Reply} {attr : Attr}
    (hr : running c = true) (hlt : i.toNat < 2 ^ 31) (hidle : Idle running False ty v (s.slice M i))
    (hi : i ∉ F) (hF : There M F s)
    (h : ∀ s' g' a, a.type = ty.toInt32.toUInt32 → Idle running False ty v (s'.slice M i) →
      (∀ j ∈ F, s'.slice M j = s.slice M j) → (∀ j ∈ insert i F, g' j = g j) →
      Keeps M running W call (k (OK, a)) (insert i F) s' g') :
    Keeps M running W call
      ((Extent.Client.ec (Sys.host c) (Sys.calls L running)).getattr i attr >>= k)
      (insert i F) s g := by
  refine Holds.bind ?_
  have hseg : Seg (inodes M running) (service L running W).excused
      (Extent.Client.getattr (Sys.host c) (Sys.calls L running) i attr)
      (fun r H' s' => H' = {i} ∧ (r.1 = OK ∧ r.2.type = ty.toInt32.toUInt32) ∧
        Idle running False ty v (s'.slice M i)) {i} s := by
    rw [← bind_pure (Extent.Client.getattr _ _ _ _)]
    refine Extent.seg_getattr_idle rfl hlt rfl hidle hr fun s' sl' a hs' hidle' ha _ =>
      ⟨rfl, ⟨rfl, ha.1⟩, ?_⟩
    exact hs'.symm ▸ hidle'
  refine (hseg.frame (Set.disjoint_singleton_left.mpr hi) hF.not_free).mono ?_
  rintro ⟨_, a⟩ _ s' ⟨_, rfl, -, hsame, rfl, ⟨rfl, ha⟩, hidle'⟩ g' - hg' -
  exact h s' g' a ha hidle' hsame hg'

/-- `ec->create`: a file that nobody has heard of. -/
theorem keeps_create {k : Extent.Status × Inum → Prog Fault Inum (Sys τ) Reply}
    {type : UInt32} {id : Inum} (hF : There M F s)
    (h : ∀ s' g' i, i ≠ 0 → i ∉ F → i.toNat < 2 ^ 31 → g' i = none →
      Idle running False (Store.short type) [] (s'.slice M i) →
        (∀ j ∈ F, s'.slice M j = s.slice M j) →
      (∀ j ∈ F, g' j = g j) → Keeps M running W call (k (OK, i)) (insert i F) s' g') :
    Keeps M running W call
      ((Extent.Client.ec (Sys.host c) (Sys.calls L running)).create type id >>= k) F s g := by
  refine Holds.bind ?_
  have hseg : Seg (inodes M running) (service L running W).excused (Extent.Server.create L c type)
      (fun r H' s' => H' = {r.2} ∧ r.1 = OK ∧ r.2 ≠ 0 ∧ r.2.toNat < 2 ^ 31 ∧
        Idle running False (Store.short type) [] (s'.slice M r.2)) ∅ s := by
    rw [← bind_pure (Extent.Server.create _ _ _)]
    refine Extent.seg_server_create fun s' i hne hlt hs' => ⟨insert_empty_eq i, rfl, hne, hlt, ?_⟩
    rw [hs']
    exact .new
  have hframe := hseg.frame (F := F) (Set.empty_disjoint F) hF.not_free
  rw [Set.empty_union] at hframe
  refine hframe.mono ?_
  rintro ⟨_, i⟩ _ s' ⟨_, rfl, hdisj, hsame, rfl, rfl, hne, hlt, hidle⟩ g' - hg' hnew
  have hi : i ∉ F := Set.disjoint_singleton_left.mp hdisj
  exact h s' g' i hne hi hlt (hnew i (.inl rfl) hi) hidle hsame hg'

/-- A call takes a lock. -/
theorem keeps_acquire {k : Prog Fault Inum (Sys τ) Reply} {H : Set Inum}
    (hg : g i ≠ none) (hi : i ∉ H) (h : ∀ s₁ g₁ f, g₁ i = some f → (i ≠ 0 → i.toNat < 2 ^ 31 ∧
      Idle running False f.type f.data (s₁.slice M i)) → (∀ j, g j ≠ none → g₁ j ≠ none) →
      Keeps M running W call k (insert i H) s₁ g₁) :
    Keeps M running W call (.acquire i k) H s g := by
  intro s₁ g₁ hr
  have hmono : ∀ j, g j ≠ none → g₁ j ≠ none := by
    intro j hj
    obtain ⟨v, hv⟩ := Option.ne_none_iff_exists'.mp hj
    obtain ⟨v', hv', -⟩ := hr.grows j v hv
    simp [hv']
  obtain ⟨f, hf⟩ := Option.ne_none_iff_exists'.mp (hmono i hg)
  exact ⟨hi, f, hf, fun hobj _ => h s₁ g₁ f hf hobj.resolve_left hmono⟩

/-- A call gives up lock 0 before the end. -/
theorem keeps_release {k : Prog Fault Inum (Sys τ) Reply} {H : Set Inum} (hk : ∀ r, k ≠ .ret r)
    (hg : g 0 ≠ none) (h0 : 0 ∈ H)
    (h : ∀ s₁ g₁, (∀ j ∈ H, s₁.slice M j = s.slice M j) → (∀ j ∈ H, g₁ j = g j) →
      Keeps M running W call k (H \ {0}) s₁ g₁) :
    Keeps M running W call (.release 0 k) H s g := by
  intro s₁ g₁ hr
  obtain ⟨f, hf⟩ := Option.ne_none_iff_exists'.mp hg
  refine ⟨h0, ?_⟩
  have hk' : (∃ v, g₁ 0 = some v ∧ (inodes M running).obj 0 v s₁) ∧
      Keeps M running W call k (H \ {0}) s₁ g₁ :=
    ⟨⟨f, (hr.value 0 h0).trans hf, .inl rfl⟩, h s₁ g₁ hr.same hr.value⟩
  cases k <;> first | exact hk' | exact absurd rfl (hk _)

/-- A call ends, and leaves the files it holds as `upd` says. -/
theorem keeps_commit {H : Set Inum} {r : Reply} (upd : (Inum → Option File) → Inum → Option File)
    (hi : i ∈ H) (hout : ∀ g₁ j, j ∉ H → upd g₁ j = g₁ j)
    (hin : ∀ g₁, ∀ j ∈ H, ∃ f, upd g₁ j = some f ∧ j.toNat < 2 ^ 31 ∧
      Idle running False f.type f.data (s.slice M j))
    (hcommit : ∀ g₁, (∀ j ∈ H, g₁ j = g j) → Commits call r g₁ (upd g₁)) :
    Keeps M running W call (.release i (.ret r)) H s g := by
  intro s₁ g₁ hr
  refine ⟨hi, upd g₁, hcommit g₁ hr.value, fun j v hj => ?_, hout g₁, fun j hj => ?_⟩
  · have hgrows := (hcommit g₁ hr.value).grows j (by simp [hj])
    obtain ⟨v', hv'⟩ := Option.ne_none_iff_exists'.mp hgrows
    exact ⟨v', hv', rfl⟩
  · obtain ⟨f, hf, hlt, hidle⟩ := hin g₁ j hj
    refine ⟨f, hf, .inr ⟨hlt, ?_⟩⟩
    rwa [hr.same j hj]

/-- The calls that only work on one file. -/
theorem keeps_end {f₀ f : File} {r : Reply} (hi : i ≠ 0) (hf₀ : g i = some f₀)
    (hlt : i.toNat < 2 ^ 31)
    (hidle : Idle running False f.type f.data (s.slice M i)) (hr : ∀ n, r ≠ .made .ok (some n))
    (hrun : ∀ st : Store, st.files i = some f₀ → (call.call.prog Store.ec).run st =
      .done r { st with files := Function.update st.files i (some f) }) :
    Keeps M running W call (.release i (.ret r)) (insert i ∅) s g := by
  refine keeps_commit (fun g₁ => Function.update g₁ i (some f)) (.inl rfl) ?_ ?_ ?_
  · exact fun g₁ j hj => Function.update_of_ne (fun h => hj (.inl h)) _ _
  · rintro g₁ j (rfl | hj)
    · exact ⟨f, Function.update_self .., hlt, hidle⟩
    · exact hj.elim
  · intro g₁ hg₁
    have hf₁ : files g₁ i = some f₀ := (files_of_ne hi).trans ((hg₁ i (.inl rfl)).trans hf₀)
    refine ⟨⟨[], .nil, nofun, fun rest => ?_⟩, fun j hj => ?_, fun n hn => absurd hn (hr n)⟩
    · rw [files_update hi]
      exact hrun ⟨files g₁, rest⟩ hf₁
    · rw [Function.update_apply]
      split <;> simp [hj]

/-- The calls that make a file and enter it. -/
theorem keeps_end_new (f new : File) {H : Set Inum} {p : Inum} {r : Reply} (hp : p ≠ 0) (hi : i ≠ 0)
    (hpi : p ≠ i) (hH : ∀ j, j ∈ H ↔ j = p ∨ j = i) (hltp : p.toNat < 2 ^ 31)
    (hlti : i.toNat < 2 ^ 31)
    (hgi : g i = none) (hidlep : Idle running False f.type f.data (s.slice M p))
    (hidlei : Idle running False new.type new.data (s.slice M i)) (hr : r = .made .ok (some i))
    (hrun : ∀ (st : Store) names, st.files p = files g p → st.names = i :: names →
      (call.call.prog Store.ec).run st = .done r
        ⟨Function.update (Function.update st.files i (some new)) p (some f), names⟩) :
    Keeps M running W call (.release p (.ret r)) H s g := by
  have hself : ∀ g₁ : Inum → Option File,
      Function.update (Function.update g₁ i (some new)) p (some f) i = some new := by
    intro g₁
    rw [Function.update_of_ne hpi.symm, Function.update_self]
  refine keeps_commit (fun g₁ => Function.update (Function.update g₁ i (some new)) p (some f))
    ((hH p).mpr (.inl rfl)) ?_ ?_ ?_
  · intro g₁ j hj
    rw [hH, not_or] at hj
    rw [Function.update_of_ne hj.1, Function.update_of_ne hj.2]
  · intro g₁ j hj
    rcases (hH j).mp hj with rfl | rfl
    · exact ⟨f, Function.update_self .., hltp, hidlep⟩
    · exact ⟨new, hself g₁, hlti, hidlei⟩
  · intro g₁ hg₁
    have hg₁p : files g₁ p = files g p := by
      rw [files_of_ne hp, files_of_ne hp, hg₁ p ((hH p).mpr (.inl rfl))]
    have hg₁i : g₁ i = none := (hg₁ i ((hH i).mpr (.inr rfl))).trans hgi
    refine ⟨⟨[i], List.nodup_singleton i, ?_, fun rest => ?_⟩, fun j hj => ?_, ?_⟩
    · intro n hn
      obtain rfl := List.mem_singleton.mp hn
      exact ⟨hi, hg₁i, by simp [hself]⟩
    · rw [files_update hp, files_update hi]
      exact hrun ⟨files g₁, [i] ++ rest⟩ rest hg₁p rfl
    · rw [Function.update_apply]
      split
      · simp
      · rw [Function.update_apply]
        split <;> simp [hj]
    · rintro n hn
      rw [hr] at hn
      cases hn
      exact ⟨hi, by simp [hself]⟩

theorem There.empty : There M ∅ s := fun _ h => h.elim

/-- A call on one file: it takes the lock, and what follows keeps to the file. -/
theorem keeps_lock {k : Prog Fault Inum (Sys τ) Reply} (hi : i ≠ 0) (hg : g i ≠ none)
    (h : ∀ s g f, g i = some f → i.toNat < 2 ^ 31 → Idle running False f.type f.data (s.slice M i) →
      Keeps M running W call k (insert i ∅) s g) :
    Keeps M running W call (.acquire i k) ∅ s g :=
  keeps_acquire hg (Set.notMem_empty i) fun s₁ g₁ f hf hidle _ =>
    h s₁ g₁ f hf (hidle hi).1 (hidle hi).2

/-- The common part of the calls that start with `ec->get` on one file. -/
theorem keeps_lock_get {k : Extent.Status × Bytes → Prog Fault Inum (Sys τ) Reply}
    (hr : running c = true) (hi : i ≠ 0) (hg : g i ≠ none)
    (h : ∀ s g f, g i = some f → i.toNat < 2 ^ 31 → Idle running False f.type f.data (s.slice M i) →
      Keeps M running W call (k (OK, f.data)) (insert i ∅) s g) :
    Keeps M running W call (.acquire i
      ((Extent.Client.ec (Sys.host c) (Sys.calls L running)).get i [] >>= k)) ∅ s g := by
  refine keeps_lock hi hg fun s₁ g₁ f hf hlt hidle => ?_
  refine keeps_get hr hlt hidle (Set.notMem_empty i) .empty fun s₂ g₂ hidle₂ _ hg₂ => ?_
  exact h s₂ g₂ f ((hg₂ i (.inl rfl)).trans hf) hlt hidle₂

theorem keeps_isType {type : UInt32} (hr : running c = true) (hi : i ≠ 0) (hg : g i ≠ none)
    (hcall : call.call.prog Store.ec =
      (isType Store.ec type i >>= fun b => pure (.answer b))) :
    Keeps M running W call
      (isType (Extent.Client.ec (Sys.host c) (Sys.calls L running)) type i >>=
        fun b => pure (.answer b))
      ∅ s g := by
  simp only [isType, Prog.lock_bind, Prog.acquire_bind]
  refine keeps_lock hi hg fun s₁ g₁ f hf hlt hidle => ?_
  rw [bind_assoc]
  refine keeps_getattr hr hlt hidle (Set.notMem_empty i) .empty fun s₂ g₂ a ha hidle₂ _ hg₂ => ?_
  have hf₂ : g₂ i = some f := (hg₂ i (.inl rfl)).trans hf
  have hrun : ∀ st : Store, st.files i = some f → (call.call.prog Store.ec).run st =
      .done (.answer (decide (f.type.toInt32.toUInt32 = type)))
        { st with files := Function.update st.files i (some f) } := by
    intro st hst
    rw [hcall, Prog.run_bind, Store.run_isType hst, ← hst, Function.update_eq_self]
    rfl
  simp only [ne_eq, not_true_eq_false, if_false, ha]
  split
  case isTrue h =>
    simp only [Prog.unlock_bind, Prog.release_bind, pure_bind]
    refine keeps_end hi hf₂ hlt hidle₂ (by simp) fun st hst => ?_
    rw [hrun st hst, decide_eq_true h]
  case isFalse h =>
    simp only [Prog.unlock_bind, Prog.release_bind, pure_bind]
    refine keeps_end hi hf₂ hlt hidle₂ (by simp) fun st hst => ?_
    rw [hrun st hst, decide_eq_false h]

theorem keeps_unlink {name : Bytes} (hr : running c = true) (hi : i ≠ 0) (hg : g i ≠ none) :
    Keeps M running W ⟨c, .unlink i name⟩
      (ClientCall.prog L running ⟨c, .unlink i name⟩) ∅ s g := by
  simp only [ClientCall.prog, Call.prog, unlink, Prog.lock_bind, Prog.acquire_bind, bind_assoc]
  refine keeps_lock_get hr hi hg fun s₁ g₁ f hf hlt hidle => ?_
  have hrun : ∀ st : Store, st.files i = some f → ((Call.unlink i name).prog Store.ec).run st =
      .done (.status .ok)
        { st with files := Function.update st.files i (some (Store.remove f name)) } := by
    intro st hst
    rw [Call.prog, Prog.run_bind, Store.run_unlink hst]
    rfl
  simp only [ne_eq, not_true_eq_false, if_false]
  by_cases hfind : (Directory.ofString f.data).find name = 0
  · have h1 : ¬ (1 : Inum) = 0 := by decide
    simp only [hfind, if_true, h1, not_false_eq_true, Prog.unlock_bind,
      Prog.release_bind, pure_bind]
    refine keeps_end hi hf hlt hidle (by simp) fun st hst => ?_
    rw [hrun st hst, Store.remove, if_pos hfind]
  · simp only [hfind, if_false, not_true_eq_false, bind_assoc]
    refine keeps_put hr hlt hidle (Set.notMem_empty i) .empty fun s₂ g₂ hidle₂ _ hg₂ => ?_
    simp only [not_true_eq_false, if_false, if_true, one_ne_zero, pure_bind, Prog.unlock_bind]
    refine keeps_end (f := Store.remove f name) hi
      ((hg₂ i (.inl rfl)).trans hf) hlt ?_ (by simp) hrun
    rw [Store.remove, if_neg hfind]
    exact hidle₂

theorem keeps_write {off : Int64} {data : Bytes} (hW : W) (hr : running c = true) (hi : i ≠ 0)
    (hg : g i ≠ none) :
    Keeps M running W ⟨c, .write i off data⟩
      (ClientCall.prog L running ⟨c, .write i off data⟩) ∅ s g := by
  simp only [ClientCall.prog, Call.prog, write, Prog.lock_bind, Prog.acquire_bind, bind_assoc]
  refine keeps_lock_get hr hi hg fun s₁ g₁ f hf hlt hidle => ?_
  simp only [ne_eq, not_true_eq_false, if_false, bind_assoc]
  cases hw : writeAt f.data off data with
  | error e =>
    -- the process ends here, in `replace` or with the array
    refine ⟨hW, ?_⟩
    simp only [writeAt] at hw
    split at hw <;> split at hw <;> cases hw <;> simp
  | ok buf =>
    simp only [lift, pure_bind]
    refine keeps_put hr hlt hidle (Set.notMem_empty i) .empty fun s₂ g₂ hidle₂ _ hg₂ => ?_
    simp only [not_true_eq_false, if_false, Prog.unlock_bind]
    refine keeps_end (f := { f with data := buf }) hi
      ((hg₂ i (.inl rfl)).trans hf) hlt hidle₂ (by simp)
      fun st hst => ?_
    rw [Call.prog, Prog.run_bind, Store.run_write hst hw]
    rfl

/-- The calls that make files start with both locks, and read the directory. -/
theorem keeps_locks_get {k : Extent.Status × Bytes → Prog Fault Inum (Sys τ) Reply}
    (hr : running c = true) (h0 : g 0 ≠ none) (hi : i ≠ 0) (hg : g i ≠ none)
    (h : ∀ s g f, g 0 ≠ none → g i = some f → i.toNat < 2 ^ 31 →
      Idle running False f.type f.data (s.slice M i) →
      Keeps M running W call (k (OK, f.data)) (insert i (insert 0 ∅)) s g) :
    Keeps M running W call (.acquire 0 (.acquire i
      ((Extent.Client.ec (Sys.host c) (Sys.calls L running)).get i [] >>= k))) ∅ s g := by
  have hi0 : i ∉ (insert 0 ∅ : Set Inum) := fun h => h.elim hi id
  refine keeps_acquire h0 (Set.notMem_empty 0) fun s₁ g₁ f₀ hf₀ _ hmono => ?_
  refine keeps_acquire (hmono i hg) hi0 fun s₂ g₂ f hf hidle hmono₂ => ?_
  obtain ⟨hlt, hidle⟩ := hidle hi
  have hthere : There M (insert 0 ∅) s₂ := by
    rintro j (rfl | hj) hne
    · exact absurd rfl hne
    · exact hj.elim
  refine keeps_get hr hlt hidle hi0 hthere fun s₃ g₃ hidle₃ _ hg₃ => ?_
  refine h s₃ g₃ f ?_ ((hg₃ i (.inl rfl)).trans hf) hlt hidle₃
  rw [hg₃ 0 (.inr (.inl rfl))]
  exact hmono₂ 0 (by simp [hf₀])

/-- If the name is there, nothing happens. -/
theorem keeps_exist {f : File} (h0 : g 0 ≠ none) (hi : i ≠ 0) (hf : g i = some f)
    (hlt : i.toNat < 2 ^ 31) (hidle : Idle running False f.type f.data (s.slice M i))
    (hrun : ∀ st : Store, st.files i = some f →
      (call.call.prog Store.ec).run st = .done (.made .exist none) st) :
    Keeps M running W call (.release 0 (.release i (.ret (.made .exist none))))
      (insert i (insert 0 ∅))
      s g := by
  refine keeps_release nofun h0 (.inr (.inl rfl)) fun s₁ g₁ hs₁ hg₁ => ?_
  have hH : (insert i (insert 0 ∅) : Set Inum) \ {0} = insert i ∅ := by
    ext j
    simp only [Set.mem_sdiff, Set.mem_insert_iff, Set.mem_singleton_iff,
      Set.mem_empty_iff_false, or_false]
    grind
  rw [hH]
  refine keeps_end hi ((hg₁ i (.inl rfl)).trans hf) hlt
    (by rwa [hs₁ i (.inl rfl)]) nofun fun st hst => ?_
  rw [hrun st hst, ← hst, Function.update_eq_self]

/-- A new file is entered. -/
theorem keeps_enter {k : Extent.Status → Prog Fault Inum (Sys τ) Reply} (f new : File) {p : Inum}
    (name : Bytes) (hr : running c = true) (h0 : g 0 ≠ none) (hp : p ≠ 0) (hi : i ≠ 0) (hpi : p ≠ i)
    (hltp : p.toNat < 2 ^ 31) (hlti : i.toNat < 2 ^ 31) (hf : g p = some f) (hgi : g i = none)
    (hidlep : Idle running False f.type f.data (s.slice M p))
    (hidlei : Idle running False new.type new.data (s.slice M i))
    (hk : k OK = .release 0 (.release p (.ret (.made .ok (some i)))))
    (hrun : ∀ (st : Store) names, st.files p = some f → st.names = i :: names →
      (call.call.prog Store.ec).run st = .done (.made .ok (some i))
        ⟨Function.update (Function.update st.files i (some new)) p
          (some (Store.enter f name i)), names⟩) :
    Keeps M running W call ((Extent.Client.ec (Sys.host c) (Sys.calls L running)).put p
      ((Directory.ofString f.data).addent ⟨name, i⟩).tostring >>= k)
        (insert i (insert p (insert 0 ∅)))
      s g := by
  have hpF : p ∉ (insert i (insert 0 ∅) : Set Inum) := fun h => h.elim hpi fun h => h.elim hp id
  have hthere : There M (insert i (insert 0 ∅)) s := by
    rintro j (rfl | rfl | hj) hne
    · obtain ⟨d, hd, -⟩ := hidlei.value
      simp [hd]
    · exact absurd rfl hne
    · exact hj.elim
  rw [Set.insert_comm]
  refine keeps_put hr hltp hidlep hpF hthere fun s₁ g₁ hidlep₁ hs₁ hg₁ => ?_
  rw [hk]
  refine keeps_release nofun ?_ (.inr (.inr (.inl rfl))) fun s₂ g₂ hs₂ hg₂ => ?_
  · rwa [hg₁ 0 (.inr (.inr (.inl rfl)))]
  have hf₂ : files g₂ p = some f := by
    rw [files_of_ne hp, hg₂ p (.inl rfl), hg₁ p (.inl rfl), hf]
  refine keeps_end_new (Store.enter f name i) new hp hi hpi (fun j => ?_) hltp hlti ?_ ?_ ?_
    rfl fun st names hst => hrun st names (hst.trans hf₂)
  · simp only [Set.mem_sdiff, Set.mem_insert_iff, Set.mem_singleton_iff,
      Set.mem_empty_iff_false, or_false]
    grind
  · rw [hg₂ i (.inr (.inl rfl)), hg₁ i (.inr (.inl rfl)), hgi]
  · rw [hs₂ p (.inl rfl)]
    exact hidlep₁
  · rwa [hs₂ i (.inr (.inl rfl)), hs₁ i (.inl rfl)]

/-- What a directory and lock 0 need when a file is made. -/
theorem There.locks {f : File} (hidle : Idle running False f.type f.data (s.slice M i)) :
    There M (insert i (insert 0 ∅)) s := by
  rintro j (rfl | rfl | hj) hne
  · obtain ⟨d, hd, -⟩ := hidle.value
    simp [hd]
  · exact absurd rfl hne
  · exact hj.elim

theorem keeps_createType {type : UInt32} {name : Bytes} (hr : running c = true) (h0 : g 0 ≠ none)
    (hi : i ≠ 0) (hg : g i ≠ none)
    (hcall : call.call.prog Store.ec =
      (createType Store.ec type i name >>= fun x => pure (.made x.1 x.2))) :
    Keeps M running W call
      (createType (Extent.Client.ec (Sys.host c) (Sys.calls L running)) type i name >>=
        fun x => pure (.made x.1 x.2)) ∅ s g := by
  simp only [createType, Prog.lock_bind, Prog.acquire_bind, bind_assoc]
  refine keeps_locks_get hr h0 hi hg fun s₁ g₁ f h0₁ hf hlt hidle => ?_
  simp only [ne_eq, not_true_eq_false, if_false, bind_assoc]
  by_cases hfind : (Directory.ofString f.data).find name = 0
  · simp only [hfind, not_true_eq_false, if_false, bind_assoc]
    refine keeps_create (.locks hidle) fun s₂ g₂ n hn hnF hltn hgn hidlen hs₂ hg₂ => ?_
    have hin : i ≠ n := fun h => hnF (.inl h.symm)
    simp only [not_true_eq_false, if_false, bind_assoc]
    refine keeps_enter f ⟨Store.short type, []⟩ name hr ?_ hi hn hin hlt hltn
      ?_ hgn ?_ hidlen ?_ fun st names hst hnames => ?_
    · rwa [hg₂ 0 (.inr (.inl rfl))]
    · exact (hg₂ i (.inl rfl)).trans hf
    · rwa [hs₂ i (.inl rfl)]
    · simp only [not_true_eq_false, if_false, Prog.ret_bind, Prog.unlock_bind, Prog.pure_eq]
    · rw [hcall, Prog.run_bind, Store.run_createType_new hst hfind hnames hin]
      rfl
  · simp only [hfind, not_false_eq_true, if_true, pure_bind, Prog.unlock_bind]
    refine keeps_exist h0₁ hi hf hlt hidle fun st hst => ?_
    rw [hcall, Prog.run_bind, Store.run_createType_exist hst hfind]
    rfl

theorem keeps_symlink {link name : Bytes} (hr : running c = true) (h0 : g 0 ≠ none) (hi : i ≠ 0)
    (hg : g i ≠ none) :
    Keeps M running W ⟨c, .symlink i link name⟩
      (ClientCall.prog L running ⟨c, .symlink i link name⟩)
      ∅ s g := by
  simp only [ClientCall.prog, Call.prog, symlink, Prog.lock_bind, Prog.acquire_bind, bind_assoc]
  refine keeps_locks_get hr h0 hi hg fun s₁ g₁ f h0₁ hf hlt hidle => ?_
  simp only [ne_eq, not_true_eq_false, if_false, bind_assoc]
  by_cases hfind : (Directory.ofString f.data).find name = 0
  · simp only [hfind, not_true_eq_false, if_false, bind_assoc]
    refine keeps_create (.locks hidle) fun s₂ g₂ n hn hnF hltn hgn hidlen hs₂ hg₂ => ?_
    have hin : i ≠ n := fun h => hnF (.inl h.symm)
    have hidle₂ : Idle running False f.type f.data (s₂.slice M i) := by rwa [hs₂ i (.inl rfl)]
    simp only [not_true_eq_false, if_false, bind_assoc]
    refine keeps_put hr hltn hidlen hnF (.locks hidle₂) fun s₃ g₃ hidlen₃ hs₃ hg₃ => ?_
    refine keeps_enter f ⟨Store.short T_LINK, link⟩ name hr ?_ hi hn hin hlt
      hltn ?_ ?_ ?_ hidlen₃ ?_ fun st names hst hnames => ?_
    · rwa [hg₃ 0 (.inr (.inr (.inl rfl))), hg₂ 0 (.inr (.inl rfl))]
    · exact (hg₃ i (.inr (.inl rfl))).trans ((hg₂ i (.inl rfl)).trans hf)
    · exact (hg₃ n (.inl rfl)).trans hgn
    · rwa [hs₃ i (.inl rfl)]
    · simp only [not_true_eq_false, if_false, Prog.ret_bind, Prog.unlock_bind, Prog.pure_eq]
    · rw [Call.prog, Prog.run_bind, Store.run_symlink_new hst hfind hnames hin]
      rfl
  · simp only [hfind, not_false_eq_true, if_true, pure_bind, Prog.unlock_bind]
    refine keeps_exist h0₁ hi hf hlt hidle fun st hst => ?_
    rw [Call.prog, Prog.run_bind, Store.run_symlink_exist hst hfind]
    rfl

/-- A call that only reads one file. -/
theorem keeps_end_read {f : File} {r : Reply} (hi : i ≠ 0) (hf : g i = some f)
    (hlt : i.toNat < 2 ^ 31)
    (hidle : Idle running False f.type f.data (s.slice M i)) (hr : ∀ n, r ≠ .made .ok (some n))
    (hrun : ∀ st : Store, st.files i = some f → (call.call.prog Store.ec).run st = .done r st) :
    Keeps M running W call (.release i (.ret r)) (insert i ∅) s g := by
  refine keeps_end hi hf hlt hidle hr fun st hst => ?_
  rw [hrun st hst, ← hst, Function.update_eq_self]

/-- **Every call keeps to its inodes, and does to them what it does without caches.** -/
theorem holds_call (hW : ∀ i off data, call.call = .write i off data → W)
    (hr : running call.client = true) (h0 : g 0 ≠ none) (hi : call.call.inum ≠ 0)
    (hg : g call.call.inum ≠ none) : Keeps M running W call (call.prog L running) ∅ s g := by
  obtain ⟨c, call⟩ := call
  cases call with
  | mount =>
    simp only [ClientCall.prog, Call.prog, yfs_client, Prog.lock_bind, bind_assoc]
    refine keeps_lock hi hg fun s₁ g₁ f hf hlt hidle => ?_
    refine keeps_put hr hlt hidle (Set.notMem_empty 1) .empty fun s₂ g₂ hidle₂ _ hg₂ => ?_
    exact keeps_end (f := { f with data := [] }) hi
      ((hg₂ 1 (.inl rfl)).trans hf) hlt hidle₂ (by simp)
      fun st hst => Store.run_mount hst
  | isfile i => exact keeps_isType hr hi hg rfl
  | islink i => exact keeps_isType hr hi hg rfl
  | isdir i => exact keeps_isType hr hi hg rfl
  | create i name => exact keeps_createType hr h0 hi hg rfl
  | mkdir i name => exact keeps_createType hr h0 hi hg rfl
  | symlink i link name => exact keeps_symlink hr h0 hi hg
  | lookup i name =>
    simp only [ClientCall.prog, Call.prog, lookup, Prog.lock_bind, Prog.acquire_bind, bind_assoc]
    refine keeps_lock_get hr hi hg fun s₁ g₁ f hf hlt hidle => ?_
    refine keeps_end_read hi hf hlt hidle (by simp) fun st hst => ?_
    rw [Call.prog, Prog.run_bind, Store.run_lookup hst]
    rfl
  | readdir i =>
    simp only [ClientCall.prog, Call.prog, readdir, Prog.lock_bind, Prog.acquire_bind, bind_assoc]
    refine keeps_lock_get hr hi hg fun s₁ g₁ f hf hlt hidle => ?_
    refine keeps_end_read hi hf hlt hidle (by simp) fun st hst => ?_
    rw [Call.prog, Prog.run_bind, Store.run_readdir hst]
    rfl
  | unlink i name => exact keeps_unlink hr hi hg
  | read i size off =>
    simp only [ClientCall.prog, Call.prog, read, Prog.lock_bind, Prog.acquire_bind, bind_assoc]
    refine keeps_lock_get hr hi hg fun s₁ g₁ f hf hlt hidle => ?_
    refine keeps_end_read hi hf hlt hidle (by simp) fun st hst => ?_
    rw [Call.prog, Prog.run_bind, Store.run_read hst]
    rfl
  | write i off data => exact keeps_write (hW i off data rfl) hr hi hg
  | readlink i =>
    simp only [ClientCall.prog, Call.prog, readlink, Prog.lock_bind, Prog.acquire_bind, bind_assoc]
    refine keeps_lock_get hr hi hg fun s₁ g₁ f hf hlt hidle => ?_
    refine keeps_end_read hi hf hlt hidle (by simp) fun st hst => ?_
    rw [Call.prog, Prog.run_bind, Store.run_readlink hst]
    rfl

end Rules

end Yfs.Fs
