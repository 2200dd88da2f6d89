import Yfs.Storage.Space

/-!
# Requests with any number

What a client sends is a 64-bit number, and `extent_server` masks it and hands it on. Only
`get_inode` looks at it again, and returns `NULL` if it is out of range; nobody asks if it is
the number of a file. `Request.Sound` is what has to hold of a request for it to be served
without harm, in terms of what is on the disk when it comes in, and in every run of such
requests every one of them is safe (`request_safe`).
-/

namespace Yfs.Storage

open Extent (Bytes ExtentId toInt T_FILE)
open Extent.Server (mask)

/-- A request to `extent_server`. -/
inductive Request where
  | create (type : UInt32)
  | put (id : ExtentId) (buf : Bytes)
  | get (id : ExtentId)
  | getattr (id : ExtentId)
  | remove (id : ExtentId)

namespace Request

/-- The number of the request as the inode layer gets it. -/
def inum (id : ExtentId) : UInt32 := (mask id).toUInt32

/-- What the handler does to the disk of the server, with the number of the file as the
result. A flush that `get` asks for comes in as a `put` of its own. -/
def code : Request → Code UInt32
  | create type => do
    let (_, id) ← Storage.create type
    pure id.toUInt32
  | put id buf => do
    let _ ← Storage.put id buf
    pure (inum id)
  | get id => do
    let _ ← read_file (inum id)
    pure (inum id)
  | getattr id => do
    let _ ← Storage.getattr (inum id)
    pure (inum id)
  | remove id => do
    remove_file (inum id)
    pure (inum id)

/-- The numbers in use after a request about file `i`. -/
def live (i : UInt32) (live : List UInt32) : Request → List UInt32
  | create _ => i :: live
  | remove _ => live.filter (· ≠ i)
  | put _ _ | get _ | getattr _ => live

/-- The number that the client has sent. -/
def target : Request → Option UInt32
  | create _ => none
  | put id _ | get id | getattr id | remove id => some (inum id)

end Request

/-- The inodes that a walk along `blocks[NDIRECT]` comes to. -/
def World.nodeAt (s : World) (i : UInt32) : ℕ → UInt32
  | 0 => i
  | j + 1 => (s.inode (s.nodeAt i j)).blocks NDIRECT

/-- What `read_file` comes to is there: the first block, and all blocks up to the size. -/
def World.Readable (s : World) (i : UInt32) : Prop :=
  ∀ m : ℕ, m = 0 ∨ (m * BLOCK_SIZE : Int) < toInt (s.inode i).size.toNat →
    (s.nodeAt i (m / NDIRECT)).toNat < INODE_NUM ∧
      ((s.inode (s.nodeAt i (m / NDIRECT))).blocks (m % NDIRECT)).toNat < BLOCK_NUM

/-- What the handlers rely on, and do not check. To be read, a chain has to be there; to be
written or removed, it has to be a file, and there must be enough inodes for the new size. -/
def Request.Sound (st : State) : Request → Prop
  | create _ => True
  | put id buf => inum id ∈ st.live ∧ (inum id).toNat < INODE_NUM ∧ buf.length < 2 ^ 31 ∧
      inodesFor buf.length ≤ inodesFor (st.world.inode (inum id)).size.toNat + st.world.inodesLeft
  | get id => st.world.Readable (inum id)
  | getattr id => (inum id).toNat + 11 < BLOCK_NUM
  | remove id => inum id ∈ st.live ∧ (inum id).toNat < INODE_NUM

/-- A request is served. -/
inductive Serve : State → State → Prop
  | request {s : State} {req : Request} {i : UInt32} {w : World} : req.Sound s →
      req.code.run s.world = .done i w → Serve s ⟨w, req.live i s.live⟩

/-- The request is safe: no block that is not on the disk is read or written, `NULL` is not
used, and if it is not about a file then the bitmap and all files are as they were. -/
structure Safe (st : State) (req : Request) : Prop where
  onDisk : ∀ w, req.code.run st.world ≠ .failed .outOfRange w
  notNull : ∀ w, req.code.run st.world ≠ .failed .nullDeref w
  other : ∀ i ∈ req.target, i ∉ st.live →
    (∀ b < BLOCK_NUM, (req.code.run st.world).state.marked b = st.world.marked b) ∧
    ∀ j ∈ st.live, ((read_file j).run (req.code.run st.world).state).result =
      ((read_file j).run st.world).result

section Reading

variable {s : World} {i : UInt32} {f : Shape}

/-- The walk goes along the inodes of a file. -/
theorem Stored.nodeAt (h : Stored s f) {j : ℕ} (hj : j < f.len) :
    s.nodeAt (f.node 0) j = f.node j := by
  induction j with
  | zero => rfl
  | succ j ih => rw [World.nodeAt, ih (by omega), h.rep.link j hj]

/-- A file can be read. -/
theorem Stored.readable (h : Stored s f) : s.Readable (f.node 0) := by
  intro m hm
  have hn := h.blocks
  have hlen := h.len
  have hpos := h.rep.pos
  rw [h.toInt_size] at hm
  simp only [BLOCK_SIZE, NDIRECT] at hn hlen hm ⊢
  have hj : m / 100 < f.len := by omega
  rw [h.nodeAt hj]
  refine ⟨(h.rep.node_lt _ hj).2, ?_⟩
  by_cases hmn : m < f.n
  · have hd := h.rep.data m hmn
    simp only [NDIRECT] at hd
    rw [hd]
    exact h.rep.data_on_disk hmn
  · -- the first block of an empty file
    obtain rfl : m = 0 := by omega
    exact h.rep.first

/-- The loop of `read_file` stays on the disk, and changes nothing. -/
theorem wp_readLoop_readable (h : s.Readable i) {cur j idx : ℕ} {out : Bytes}
    (hcur : cur = NDIRECT * j + idx) (hidx : idx ≤ NDIRECT)
    (hlt : cur = 0 ∨ (cur * BLOCK_SIZE : Int) < toInt (s.inode i).size.toNat) :
    Prog.wp (readLoop (toInt (s.inode i).size.toNat) cur idx (s.inode (s.nodeAt i j)) out)
      (fun _ s' => s' = s) (fun e s' => e = .badLength ∧ s' = s) s := by
  obtain ⟨hnode, hblock⟩ := h cur hlt
  generalize hsz : toInt (s.inode i).size.toNat = size at hlt ⊢
  simp only [NDIRECT, BLOCK_SIZE] at hcur hidx hlt hnode hblock
  unfold readLoop
  rw [Prog.wp_bind]
  refine Prog.wp_mono (Q := fun r s' => s = s' ∧ ∃ j, r.1 = s.inode (s.nodeAt i j) ∧
    cur = 100 * j + r.2 ∧ r.2 < 100) ?_ ?_ fun _ _ hE => hE
  · split
    case isTrue hend =>
      simp only [NDIRECT] at hend
      have hj : cur / 100 = j + 1 := by omega
      rw [hj] at hnode
      simp only [Prog.wp_bind]
      refine wp_get_inode hnode ?_
      exact ⟨rfl, j + 1, rfl, by omega, by omega⟩
    case isFalse hin =>
      simp only [NDIRECT] at hin
      exact ⟨rfl, j, rfl, hcur, by omega⟩
  · rintro ⟨_, idx⟩ _ ⟨rfl, j, rfl, hcur, hidx⟩
    simp only at hcur hidx
    have hm : cur / 100 = j ∧ cur % 100 = idx := by omega
    rw [hm.1, hm.2] at hblock
    rw [Prog.wp_bind]
    refine wp_read_block hblock ?_
    split
    case isTrue =>
      dsimp only
      split
      case isTrue => exact ⟨rfl, rfl⟩
      case isFalse => rfl
    case isFalse hmore =>
      simp only [BLOCK_SIZE] at hmore
      rw [← hsz]
      refine wp_readLoop_readable h (by simp only [NDIRECT]; omega)
        (by simp only [NDIRECT]; omega) (.inr ?_)
      rw [hsz]
      simp only [BLOCK_SIZE]
      omega
termination_by (toInt (s.inode i).size.toNat - cur * BLOCK_SIZE).toNat
decreasing_by
  simp only [BLOCK_SIZE] at *
  omega

/-- **What is there can be read**, be it a file or not. -/
theorem wp_read_file_readable (h : s.Readable i) :
    Prog.wp (read_file i) (fun _ s' => s' = s.touch i) (fun e s' => e = .badLength ∧ s' = s) s := by
  have hlt : i.toNat < INODE_NUM := (h 0 (.inl rfl)).1
  simp only [read_file, Prog.wp_bind]
  refine wp_get_inode hlt ?_
  rw [wp_deref]
  refine Prog.wp_mono (wp_readLoop_readable h (j := 0) rfl (Nat.zero_le _) (.inl rfl)) ?_
    fun _ _ hE => hE
  rintro out _ rfl
  refine wp_get_inode hlt ?_
  rw [wp_deref]
  exact wp_put_inode hlt rfl

end Reading

section Safety

variable {st : State} {F : UInt32 → Shape} {req : Request} {i : UInt32}

/-- The bitmap and all files are as they were. -/
def Unchanged (st : State) (w : World) : Prop :=
  (∀ b < BLOCK_NUM, w.marked b = st.world.marked b) ∧
    ∀ j ∈ st.live, ((read_file j).run w).result = ((read_file j).run st.world).result

/-- `read_file` changes no file, whatever it is that it reads. -/
theorem Inv.unchanged_touch (h : Inv st F) (hi : i.toNat < INODE_NUM) :
    Unchanged st (st.world.touch i) := by
  refine ⟨fun b hb => World.marked_putInode hb, fun j hj => ?_⟩
  by_cases hlt : j.toNat < INODE_NUM
  · obtain ⟨hst, hcontent⟩ := (h.stored j hj hlt).touch hi
    have hread := hst.result
    rwa [hcontent, ← (h.stored j hj hlt).result, h.root j hj hlt] at hread
  · rw [read_file, run_get_inode hlt, run_get_inode hlt]
    rfl

/-- **What a request does.** The files stay apart; if it is not about a file, nothing
changes. -/
theorem Inv.wp_request (h : Inv st F) (hreq : req.Sound st) :
    Prog.wp req.code
      (fun i w => (∃ F, Inv ⟨w, req.live i st.live⟩ F) ∧
        ∀ i ∈ req.target, i ∉ st.live → Unchanged st w)
      (fun e w => e = .badLength ∧ w = st.world) st.world := by
  cases req with
  | create type =>
    simp only [Request.code, create, Prog.wp_bind]
    refine Prog.wp_mono h.wp_alloc_inode (fun i w hF => ⟨?_, ?_⟩) fun _ _ hE => hE
    · rwa [UInt32.toUInt32_toUInt64]
    · rintro i ⟨⟩
  | put id buf =>
    obtain ⟨hi, hlt, hbuf, hroom⟩ := hreq
    have hsize : toInt buf.length = buf.length := Int32.toInt_ofNat_of_lt hbuf
    simp only [Request.code, put, Prog.wp_bind, hsize]
    refine Prog.wp_mono (h.wp_write_file hi hlt hbuf fun e w hno => ?_)
      (fun _ w hF => ⟨hF, ?_⟩) fun _ _ hE => hE
    · exact absurd hroom (by unfold Request.inum; omega)
    · rintro _ ⟨⟩ hdead
      exact absurd hi hdead
  | get id =>
    have hlt : (Request.inum id).toNat < INODE_NUM := (hreq 0 (.inl rfl)).1
    simp only [Request.code, Prog.wp_bind]
    refine Prog.wp_mono (wp_read_file_readable hreq) ?_ fun _ _ hE => hE
    rintro _ _ rfl
    exact ⟨⟨F, h.touch hlt⟩, fun _ _ _ => h.unchanged_touch hlt⟩
  | getattr id =>
    rw [Prog.wp, Request.code, Prog.run_bind, run_getattr hreq]
    exact ⟨⟨F, h⟩, fun _ _ _ => ⟨fun _ _ => rfl, fun _ _ => rfl⟩⟩
  | remove id =>
    obtain ⟨hi, hlt⟩ := hreq
    simp only [Request.code, Prog.wp_bind]
    refine Prog.wp_mono (h.wp_remove_file hi hlt) (fun _ w hF => ⟨hF, ?_⟩) fun _ _ hE => hE
    rintro _ ⟨⟩ hdead
    exact absurd hi hdead

/-- In every state that sound requests lead to, the files are apart. -/
theorem inv_of_served (h : Reachable Init Serve st) : ∃ F, Inv st F := by
  refine h.invariant (fun _ => Inv.init) ?_
  rintro _ _ ⟨F, hF⟩ ⟨hreq, hr⟩
  exact (Prog.wp_run (hF.wp_request hreq) hr).1

/-- **Sound requests are safe**, in every run of sound requests. -/
theorem request_safe (h : Reachable Init Serve st) (hreq : req.Sound st) : Safe st req := by
  obtain ⟨F, hF⟩ := inv_of_served h
  rcases Prog.wp_cases (hF.wp_request hreq) with ⟨i, w, hr, -, hsame⟩ | ⟨_, _, hr, rfl, rfl⟩
  · constructor <;> rw [hr]
    · rintro _ ⟨⟩
    · rintro _ ⟨⟩
    · exact hsame
  · constructor <;> rw [hr]
    · rintro _ ⟨⟩
    · rintro _ ⟨⟩
    · exact fun _ _ _ => ⟨fun _ _ => rfl, fun _ _ => rfl⟩

/-- A new server, and a file that is made. -/
theorem served_twoFiles : Reachable Init Serve twoFiles := by
  have h₁ : inode_manager.run zeros = .done 1 (inode_manager.run zeros).state :=
    Prog.Outcome.eq_done (by decide +kernel)
  have h₂ : (alloc_inode T_FILE).run (inode_manager.run zeros).state = .done 5 twoFiles.world :=
    Prog.Outcome.eq_done (by decide +kernel)
  have h₃ : (Request.create T_FILE).code.run (inode_manager.run zeros).state =
      .done 5 twoFiles.world := by
    simp only [Request.code, create, bind_assoc, pure_bind]
    rw [Prog.run_bind, h₂]
    rfl
  have hsound : (Request.create T_FILE).Sound ⟨(inode_manager.run zeros).state, [1]⟩ := trivial
  exact .next (.start ⟨_, _, 1, _, h₁, rfl⟩) (.request hsound h₃)

/-- Number 2 is not in use. -/
theorem request_safe_unused : 2 ∉ twoFiles.live ∧ Safe twoFiles (.get 2) := by
  have h : (twoFiles.world.inode 2).size = 0 ∧ (twoFiles.world.inode 2).blocks 0 = 0 := by
    decide +kernel
  refine ⟨by decide, request_safe served_twoFiles fun m hm => ?_⟩
  have hm0 : m = 0 := by
    rcases hm with hm | hm
    · exact hm
    · have hsize : (twoFiles.world.inode (Request.inum 2)).size = 0 := h.1
      have hzero : toInt (0 : UInt32).toNat = 0 := rfl
      rw [hsize, hzero] at hm
      simp only [BLOCK_SIZE] at hm
      omega
  subst hm0
  refine ⟨by decide, ?_⟩
  have hblock : (twoFiles.world.inode (Request.inum 2)).blocks 0 = 0 := h.2
  show ((twoFiles.world.inode (Request.inum 2)).blocks 0).toNat < BLOCK_NUM
  rw [hblock]
  decide

/-- **No handler is safe for all numbers.** Number 40000 has no block, and number 4096 no
inode. A write to number 2, which is not in use, marks a block. -/
theorem requests_harm : Reachable Init Serve twoFiles ∧ ¬ Safe twoFiles (.getattr 40000) ∧
    ¬ Safe twoFiles (.get 4096) ∧ ¬ Safe twoFiles (.remove 4096) ∧
      ¬ Safe twoFiles (.put 2 [104]) := by
  have hattr : (Request.getattr 40000).code.run twoFiles.world =
    .failed .outOfRange twoFiles.world := rfl
  have hget : (Request.get 4096).code.run twoFiles.world = .failed .nullDeref twoFiles.world := rfl
  have hremove : (Request.remove 4096).code.run twoFiles.world =
    .failed .nullDeref twoFiles.world := rfl
  have hput : ((Request.put 2 [104]).code.run twoFiles.world).state.marked 4120 = true ∧
      twoFiles.world.marked 4120 = false := by decide +kernel
  refine ⟨served_twoFiles, fun h => h.onDisk _ hattr, fun h => h.notNull _ hget,
    fun h => h.notNull _ hremove, fun h => ?_⟩
  have := (h.other 2 rfl (by decide)).1 4120 (by decide)
  rw [hput.1, hput.2] at this
  cases this

end Safety

end Yfs.Storage
