import Yfs.Fs.ByteArray
import Yfs.Fs.Mounted

/-!
# One client under the kernel

The whole program of one client: the handlers of `fuse.cc` over `yfs_client`, over
`extent_client` with its cache, over `extent_server`, `inode_manager` and the disk. The kernel sees
a mounted file system (`mounted_refined`): all requests that are legal are answered as
`Fs.Mounted` says, from the first to the last, unless the disk has no block for a new inode.
-/

namespace Yfs.Fs

open Extent (Attr Bytes Ec Fault File Idle OK Sys)
open Storage (Disk layer lawful)

variable {c : String} {g : Inum → Option File} {s s' : Sys Disk} {i : Inum} {f : File} {v : Bytes}

/-- A request of `alloc_inode` does not find a block. -/
def NoSpace (s : Sys Disk) : Prop :=
  ∃ ty i w, (Storage.alloc_inode ty).run s.im.st.world = .done i w ∧ w.full

/-- The single client `c` keeps the files `g`. -/
structure Solo (c : String) (g : Inum → Option File) (s : Sys Disk) : Prop where
  alone : Alone c s
  always : ∀ i, (inodes lawful (only c)).always i s
  idle : ∀ i f, g i = some f → i.toNat < 2 ^ 31 ∧
    Idle (only c) False f.type f.data (s.slice lawful i)

theorem only_self : only c c = true := by simp [only]

/-- What counts as the content of an idle file is what the client reads. -/
theorem content_of_idle {ty : Int16} (ha : Alone c s) (hlt : i.toNat < 2 ^ 31)
    (hidle : Idle (only c) False ty v (s.slice lawful i)) : content c s i = some v := by
  have hdisk : onDisk s i = (s.slice lawful i).disk := by
    show s.im.file _ = if i.toNat < 2 ^ 31 then s.im.file i.toUInt32 else none
    rw [if_pos hlt, Extent.Server.mask_eq hlt]
  obtain ⟨d, hd, ⟨c', f, hc, hf, rfl⟩ | ⟨hn, rfl⟩⟩ := hidle.value
  · obtain rfl := ha.owner i c' (hidle.ok c' f hc hf)
    have hc : s.cache c' i = some f := hc
    simp only [content, hc, hf, if_true]
  · have hc : ∀ f, s.cache c i = some f → f.data_stat = .none := hn c
    rw [hd] at hdisk
    unfold content
    split
    case h_1 f hf => simp [hc f hf, hdisk]
    case h_2 => rw [hdisk]; rfl

theorem Solo.content (h : Solo c g s) (hi : g i = some f) : content c s i = some f.data :=
  content_of_idle h.alone (h.idle i f hi).1 (h.idle i f hi).2

/-- After a call of the extent client on inode `i`. -/
theorem Solo.next {f' : File} {H : Set Inum} (h : Solo c g s) (hH : H = {i})
    (hlt : i.toNat < 2 ^ 31) (ha : Alone c s') (halw : ∀ j, (inodes lawful (only c)).always j s')
    (hsame : ∀ j, j ∉ H → (inodes lawful (only c)).same j s s')
    (hidle : Idle (only c) False f'.type f'.data (s'.slice lawful i)) :
    Solo c (Function.update g i (some f')) s' := by
  subst hH
  refine ⟨ha, halw, fun j f hj => ?_⟩
  by_cases hji : j = i
  · subst hji
    rw [Function.update_self] at hj
    cases hj
    exact ⟨hlt, hidle⟩
  · rw [Function.update_of_ne hji] at hj
    have hsl : s'.slice lawful j = s.slice lawful j := hsame j hji
    rw [hsl]
    exact h.idle j f hj

/-- A call that runs alone returns, unless it is refused; `R` is what is known otherwise. -/
theorem returns_of_seg {α : Type} {p : Prog Fault Inum (Sys Disk) α} {H : Set Inum}
    {Q : α → Set Inum → Sys Disk → Prop} {R Q' : α → Sys Disk → Prop} (h : Solo c g s)
    (hseg : Seg (inodes lawful (only c)) (fun _ => False) p Q H s) (hR : p.wlp R s)
    (hQ : ∀ a H' s', R a s' → Q a H' s' → (∀ j, (inodes lawful (only c)).always j s') →
      (∀ j, j ∉ H' → (inodes lawful (only c)).same j s s') → Q' a s') :
    p.returns Q' NoSpace s := by
  unfold Prog.returns
  rcases hseg.run h.always with ⟨a, H', s', hrun, hsame, -, hq, halw⟩ | ⟨e, s', -, hE⟩ |
    ⟨s', hrun, hstuck⟩
  · rw [hrun]
    exact hQ a H' s' (hR a s' hrun) hq halw hsame
  · exact hE.elim
  · rw [hrun]
    exact Storage.refused not_several hstuck

/-- **The extent client of a single client keeps files.** -/
theorem soloEc_keeps : EcKeeps (soloEc c) (Solo c) NoSpace where
  get {g s i f buf} h hi := by
    obtain ⟨hlt, hidle⟩ := h.idle i f hi
    have hseg : Seg (inodes lawful (only c)) (fun _ => False) ((soloEc c).get i buf)
        (fun r H' s' => H' = {i} ∧ r = (OK, f.data) ∧
          Idle (only c) False f.type f.data (s'.slice lawful i)) {i} s := by
      rw [← bind_pure ((soloEc c).get i buf)]
      refine Extent.seg_get rfl hlt rfl hidle only_self (fun o ho hne => ⟨c, o, only_self, ho, hne⟩)
        fun s' sl' hs' hhas _ => ⟨rfl, rfl, ?_⟩
      exact hs'.symm ▸ hhas.idle
    refine returns_of_seg h hseg (solo_respects.get trivial s h.alone) ?_
    rintro _ H' s' ha ⟨rfl, rfl, hidle'⟩ halw hsame
    have hnext := h.next rfl hlt ha halw hsame hidle'
    rw [← hi, Function.update_eq_self] at hnext
    exact ⟨rfl, hnext⟩
  getattr {g s i f a} h hi := by
    obtain ⟨hlt, hidle⟩ := h.idle i f hi
    have hseg : Seg (inodes lawful (only c)) (fun _ => False) ((soloEc c).getattr i a)
        (fun r H' s' => H' = {i} ∧ r.2.type = f.type.toInt32.toUInt32 ∧
          Idle (only c) False f.type f.data (s'.slice lawful i)) {i} s := by
      rw [← bind_pure ((soloEc c).getattr i a)]
      refine Extent.seg_getattr_idle rfl hlt rfl hidle only_self fun s' sl' a hs' hidle' ha _ =>
        ⟨rfl, ha.1, ?_⟩
      exact hs'.symm ▸ hidle'
    refine returns_of_seg h hseg (Prog.wlp_of_wp (h.alone.getattr (h.content hi))) ?_
    rintro _ H' s' ⟨⟨a, rfl, hsize⟩, ha, -⟩ ⟨rfl, htype, hidle'⟩ halw hsame
    have hnext := h.next rfl hlt ha halw hsame hidle'
    rw [← hi, Function.update_eq_self] at hnext
    exact ⟨rfl, htype, hsize, hnext⟩
  put {g s i f buf} h hi := by
    obtain ⟨hlt, hidle⟩ := h.idle i f hi
    have hseg : Seg (inodes lawful (only c)) (fun _ => False) ((soloEc c).put i buf)
        (fun r H' s' => H' = {i} ∧ r = OK ∧
          Idle (only c) False f.type buf (s'.slice lawful i)) {i} s := by
      rw [← bind_pure ((soloEc c).put i buf)]
      refine Extent.seg_put rfl hlt rfl hidle only_self (fun o ho hne => ⟨c, o, only_self, ho, hne⟩)
        (fun hW => hW.elim) fun s' sl' hs' hidle' => ⟨rfl, rfl, ?_⟩
      exact hs'.symm ▸ hidle'
    refine returns_of_seg h hseg (solo_respects.put trivial s h.alone) ?_
    rintro _ H' s' ha ⟨rfl, rfl, hidle'⟩ halw hsame
    exact ⟨rfl, h.next rfl hlt ha halw hsame hidle'⟩
  create {g s type id} h := by
    have hseg : Seg (inodes lawful (only c)) (fun _ => False)
        (Extent.Server.create (ι := Inum) layer c type)
        (fun r H' s' => H' = {r.2} ∧ r.1 = OK ∧ r.2 ≠ 0 ∧ r.2.toNat < 2 ^ 31 ∧
          Idle (only c) False (Store.short type) [] (s'.slice lawful r.2)) ∅ s := by
      rw [← bind_pure (Extent.Server.create layer c type)]
      refine Extent.seg_server_create fun s' i hne hlt hs' =>
        ⟨insert_empty_eq i, rfl, hne, hlt, ?_⟩
      rw [hs']
      exact .new
    have hmade : Prog.wlp (Extent.Server.create (ι := Inum) layer c type)
        (fun r s' => Alone c s' ∧ Fs.content c s r.2 = none) s := by
      show Prog.wlp (Extent.Client.create (Sys.host c)
        (Sys.calls (ι := Inum) layer (only c)) type id) _ s
      exact wlp_create h.alone fun s₁ j ha hnone _ _ => ⟨ha, hnone⟩
    show (Extent.Server.create (ι := Inum) layer c type).returns _ NoSpace s
    refine returns_of_seg h hseg hmade ?_
    rintro ⟨_, i⟩ H' s' ⟨ha, hnone⟩ ⟨rfl, rfl, hne, hlt, hidle⟩ halw hsame
    refine ⟨rfl, hne, ?_, h.next rfl hlt ha halw hsame hidle⟩
    by_contra hi
    obtain ⟨f, hf⟩ := Option.ne_none_iff_exists'.mp hi
    rw [h.content hf] at hnone
    cases hnone

/-! ## All requests -/

section Main

variable {fuse : Fuse} {log : List (Request × KernelReply)} {req : Request} {r : KernelReply}

namespace Namespace

variable {ns : Namespace}

/-- The namespace that requests lead to. -/
def afterRequests (ns : Namespace) (log : List (Request × KernelReply)) : Namespace :=
  log.foldl (fun ns x => ns.afterRequest x.1 x.2) ns

/-- All replies are those of the mounted file system. -/
def RepliesRun (fuse : Fuse) : Namespace → List (Request × KernelReply) → Prop
  | _, [] => True
  | ns, (req, r) :: log => ns.Replies fuse req r ∧ RepliesRun fuse (ns.afterRequest req r) log

theorem afterRequests_snoc :
    ns.afterRequests (log ++ [(req, r)]) = (ns.afterRequests log).afterRequest req r := by
  rw [afterRequests, List.foldl_append]
  rfl

theorem repliesRun_snoc : ns.RepliesRun fuse (log ++ [(req, r)]) ↔
    ns.RepliesRun fuse log ∧ (ns.afterRequests log).Replies fuse req r := by
  induction log generalizing ns with
  | nil => exact and_comm
  | cons x log ih => exact (and_congr_right fun _ => ih).trans and_assoc.symm

end Namespace

/-- The program of client `c` on a new server: its constructor, and then one handler after the
other for legal requests, with their replies. -/
inductive Mounted (c : String) (fuse : Fuse) : List (Request × KernelReply) → Sys Disk → Prop
  | mounted {s₀ s : Sys Disk} : Storage.Init s₀.im.st → s₀.im.st.live = [1] →
      (∀ i, s₀.fileManger i = none) → (∀ x i, s₀.cache x i = none) →
      (construct layer (only c) c).run s₀ = .done () s → Mounted c fuse [] s
  | request {log : List (Request × KernelReply)} {s s' : Sys Disk} {req : Request}
      {r : KernelReply} : Mounted c fuse log s →
      (Namespace.root.afterRequests log).LegalRequest fuse req →
      (req.serve (soloEc c) fuse).run s = .done r s' → Mounted c fuse (log ++ [(req, r)]) s'

/-- What is true after the constructor and after each request. -/
structure InService (c : String) (fuse : Fuse) (log : List (Request × KernelReply))
    (s : Sys Disk) : Prop where
  backed : Backed (Solo c) (Namespace.root.afterRequests log) s
  wf : (Namespace.root.afterRequests log).Wf
  small : ∀ i, (Namespace.root.afterRequests log).Small i
  replies : Namespace.root.RepliesRun fuse log

/-- One more request. -/
theorem InService.snoc (h : InService c fuse log s)
    (hlegal : (Namespace.root.afterRequests log).LegalRequest fuse req)
    (hserved : Served fuse (Solo c) (Namespace.root.afterRequests log) req r s') :
    InService c fuse (log ++ [(req, r)]) s' where
  backed := Namespace.afterRequests_snoc ▸ hserved.2
  wf := Namespace.afterRequests_snoc ▸ h.wf.afterRequest hlegal hserved.1
  small := Namespace.afterRequests_snoc ▸
    Namespace.Small.afterRequest h.small hlegal hserved.1
  replies := Namespace.repliesRun_snoc.mpr ⟨h.replies, hserved.1⟩

theorem Mounted.inService (h : Mounted c fuse log s) : InService c fuse log s := by
  induction h with
  | @mounted s₀ s hinit hlive hown hcache hrun =>
    have hfresh : Fresh lawful s₀ := ⟨hown, hcache, Disk.file_init hinit hlive⟩
    have hset := hfresh.settled (only c)
    have hidle : Idle (only c) False (Store.short Extent.T_DIR) [] (s₀.slice lawful 1) := by
      have hobj := hset.obj 1 ⟨Store.short Extent.T_DIR, []⟩ (Set.notMem_empty 1)
        (by simp [start, root])
      exact (hobj.resolve_left (by decide)).2
    obtain ⟨hidle', halw⟩ := run_construct only_self hidle hset.always hrun
    refine ⟨⟨root, ⟨(Life.mounted hinit hlive hown hcache hrun).alone, halw, fun i f hi => ?_⟩,
      rep_root⟩, .root, fun i => Namespace.small_root, trivial⟩
    unfold root at hi
    split at hi
    case isTrue h1 =>
      subst h1
      cases hi
      exact ⟨by decide, hidle'⟩
    case isFalse => cases hi
  | request _ hlegal hrun ih =>
    have hserve := soloEc_keeps.serve ih.backed ih.wf ih.small hlegal
    exact ih.snoc hlegal (Prog.returns_run hserve hrun)

/-- What is told of the first inode that is made, at a time that does not go on. -/
def firstNode (mode : UInt32) : EntryParam :=
  { ino := 5, attr := { st_ino := 5, st_mode := mode, st_nlink := 1 } }

/-- After `A` has made the file `x`. -/
def withFile : Sys Disk :=
  (((Request.create 1 [120]).serve (soloEc "A") wire).run started).state

/-- After it has written to the file. -/
def withBytes : Sys Disk :=
  (((Request.write 5 [1, 2, 3, 4] 3).serve (soloEc "A") wire).run withFile).state

end Main

end Yfs.Fs
