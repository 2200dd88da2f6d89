import Mathlib.Order.Interval.Finset.Nat
import Yfs.Extent.Server
import Yfs.Storage.System

/-!
# Space

What becomes of the blocks that are taken, and what happens when there are none.

`alloc_inode` takes a data block for a file that has no data. The first `write_file` takes
another one in its place, and `remove_file` gives back as many blocks as the size asks for,
so that every file that is made and removed again leaves a block marked
(`not_balanced`).

`alloc_block` returns 0 when it finds nothing, and 0 is a block like any other. Only
`alloc_inode` without a data block can do with it, since it does not write to the block that
it asks for (`harmless_iff`).
-/

namespace Yfs.Storage

open Extent (Bytes Attr Status ExtentId OK toInt T_FILE)
open Extent.Server (mask)

/-- Forget the record: what is recorded from here on is the record of what follows. -/
def World.forget (s : World) : World := { s with trace := [] }

section Balance

variable {s : World} {f : Shape} {i type : UInt32} {bufs : List Bytes}

/-- `write_file` for each of these, one after the other. -/
def writeAll (inum : UInt32) : List Bytes → Code Unit
  | [] => pure ()
  | buf :: bufs => do
    write_file inum buf buf.length
    writeAll inum bufs

/-- A file is made, written, and removed. -/
def lifecycle (type : UInt32) (bufs : List Bytes) : Code Unit := do
  let inum ← alloc_inode type
  writeAll inum bufs
  remove_file inum

/-- What is marked after it was marked before, and the other way round. -/
def Balanced (s : World) (type : UInt32) (bufs : List Bytes) : Prop :=
  ∀ b, ((lifecycle type bufs).run s.forget).state.marked b = s.marked b

/-- Writes, one after the other, are as one: they keep to the blocks of the file and to those
that are free. -/
theorem wp_writeAll {Q : Unit → World → Prop} (h : Stored s f)
    (hbufs : ∀ buf ∈ bufs, buf.length < 2 ^ 31)
    (hQ : ∀ g s', Stored s' g → g.node 0 = f.node 0 → Frame s f.own s' →
      (∀ b ∈ g.own, Mine s f.own b) → Q () s') :
    Prog.wp (writeAll (f.node 0) bufs) Q (fun _ s' => s'.full) s := by
  induction bufs generalizing s f with
  | nil => exact hQ f s h rfl (.refl s f.own) fun b hb => .inl hb
  | cons buf bufs ih =>
    rw [writeAll, Prog.wp_bind]
    refine wp_write_file h (hbufs buf (List.mem_cons_self ..))
      (fun g s₁ hw => ?_) fun _ _ hf _ _ => hf
    rw [← hw.root]
    refine ih hw.stored
      (fun b hb => hbufs b (List.mem_cons_of_mem _ hb)) fun g' s₂ hg' hroot hF hm => ?_
    refine hQ g' s₂ hg' (hroot.trans hw.root)
      (hw.frame.trans hF fun b _ _ => hw.mine b) fun b hb => ?_
    rcases hm b hb with hb | hfree
    · exact hw.mine b hb
    · exact hw.frame.mine (hg'.rep.own_range hb).1 (hg'.rep.own_range hb).2 hfree

/-- A number that is out of range ends the process. -/
theorem run_lifecycle_out (hi : ¬ i.toNat < INODE_NUM) :
    (writeAll i bufs >>= fun _ => remove_file i).run s = .failed .nullDeref s := by
  cases bufs with
  | nil => exact run_get_inode hi
  | cons buf bufs =>
    have hw : (write_file i buf buf.length).run s = .failed .nullDeref s := run_get_inode hi
    rw [Prog.run_bind, writeAll, Prog.run_bind, hw]

/-- The data block that `alloc_inode` took is still marked when the file is gone. -/
theorem lifecycle_leaks (hbufs : ∀ buf ∈ bufs, buf.length < 2 ^ 31)
    (hspace : ¬ ((lifecycle type bufs).run s).state.full) :
    ∃ w, (lifecycle type bufs).run s = .done () w ∧
      ∃ b, s.marked b = false ∧ w.marked b = true := by
  have hwp : Prog.wp (lifecycle type bufs)
      (fun _ w => w.full ∨ ∃ b, s.marked b = false ∧ w.marked b = true) (fun _ w => w.full) s := by
    rw [lifecycle, Prog.wp_bind]
    refine wp_alloc_inode (fun i s₁ new hnew => ?_) fun _ s₁ hF htrace => ?_
    · rw [Prog.wp_bind]
      refine wp_writeAll (f := .empty i) hnew.stored hbufs fun g s₂ hg hroot hF hm => ?_
      rw [← show g.node 0 = i from hroot]
      refine wp_remove_file hg fun s₃ hF' => ?_
      have hall := hF.trans hF' fun b _ _ => hm b
      rcases hnew.data with ⟨hno, -⟩ | ⟨-, hdata, hfree, hmark⟩
      · left
        refine hall.full ⟨.DATA, ?_⟩
        rw [hnew.trace]
        exact List.mem_append_left _ hno
      · right
        refine ⟨_, hfree, (hall.keep _ (Nat.le_trans (by decide) hdata) hnew.first ?_).1⟩
        rintro (hown | hfree')
        · -- it is not the block of the inode
          have hi := hnew.lt
          have := Shape.own_empty hown
          simp only [DATA_START, INODE_START, INODE_NUM] at hdata hi
          omega
        · rw [hmark] at hfree'
          cases hfree'
    · obtain ⟨new, htrace⟩ := htrace
      exact Prog.wp_of_failed (run_lifecycle_out (by decide)) ⟨.INODE, by simp [htrace]⟩
  rcases Prog.wp_cases hwp with ⟨⟨⟩, w, hr, hf | hleak⟩ | ⟨e, w, hr, hf⟩
  · rw [hr] at hspace
    exact absurd hf hspace
  · exact ⟨w, hr, hleak⟩
  · rw [hr] at hspace
    exact absurd hf hspace

end Balance

/-! ## A full disk -/

/-- `extent_server::create`, on the disk of the server. -/
def create (type : UInt32) : Code (Status × ExtentId) := do
  let i ← alloc_inode type
  pure (OK, i.toUInt64)

/-- `extent_server::put`, on the disk of the server. -/
def put (id : ExtentId) (buf : Bytes) : Code Status := do
  let id := mask id
  write_file id.toUInt32 buf (toInt buf.length)
  pure OK

/-- The calls that take blocks. -/
inductive Call where
  | alloc_inode (type : UInt32)
  | write_file (inum : UInt32) (buf : Bytes)
  | create (type : UInt32)
  | put (id : ExtentId) (buf : Bytes)

namespace Call

/-- The call, with the number of its file as the result. All of them report success when
they return. -/
def code : Call → Code ExtentId
  | alloc_inode type => do
    let i ← Storage.alloc_inode type
    pure i.toUInt64
  | write_file inum buf => do
    Storage.write_file inum buf buf.length
    pure inum.toUInt64
  | create type => do
    let (_, id) ← Storage.create type
    pure id
  | put id buf => do
    let _ ← Storage.put id buf
    pure (mask id)

/-- The call makes a file. -/
def isNew : Call → Prop
  | alloc_inode _ | create _ => True
  | write_file _ _ | put _ _ => False

/-- What the file has to hold after the call. -/
def content : Call → Bytes
  | alloc_inode _ | create _ => []
  | write_file _ buf | put _ buf => buf

/-- The file that the call is about: the one that is made, or the one that is written. -/
def file (c : Call) (made : Option ExtentId) : Option ExtentId :=
  match c with
  | alloc_inode _ | create _ => made
  | write_file inum _ => some inum.toUInt64
  | put id _ => some (mask id)

/-- It writes only to numbers that are in use, and not more than an `int` can count. -/
def Proper (live : List UInt32) : Call → Prop
  | alloc_inode _ | create _ => True
  | write_file inum buf => inum ∈ live ∧ buf.length < 2 ^ 31
  | put id buf => (mask id).toUInt32 ∈ live ∧ buf.length < 2 ^ 31

/-- How the call ends, with a record of its own. -/
def outcome (c : Call) (s : World) : Prog.Outcome Fault World ExtentId := c.code.run s.forget

end Call

/-- The block is one of the file's, and marked. -/
def Allocated (s : World) (i : UInt32) (b : ℕ) : Prop := ∃ g, Stored s g ∧ g.node 0 = i ∧ b ∈ g.own

/-- The call is harmless: if it reports success then the file is there and can be read, it
has written only to the bitmap and to the blocks of the file, and the other files are as
they were. -/
structure Harmless (st : State) (c : Call) : Prop where
  usable : ∀ id w, c.outcome st.world = .done id w → 1 ≤ id.toNat ∧ id.toNat < INODE_NUM ∧
    ((read_file id.toUInt32).run w).result = some c.content
  writes : ∀ b, Event.write b ∈ (c.outcome st.world).state.trace → 2 ≤ b ∧ b < 10 ∨
    ∃ id ∈ c.file (c.outcome st.world).result, Allocated (c.outcome st.world).state id.toUInt32 b
  others : ∀ j ∈ st.live, (∀ id ∈ c.file (c.outcome st.world).result, j ≠ id.toUInt32) →
    ((read_file j).run (c.outcome st.world).state).result = ((read_file j).run st.world).result

section Harmless

variable {st : State} {F : UInt32 → Shape} {type i : UInt32} {buf : Bytes} {id : ExtentId}

/-- `0x7fffffff` leaves 31 bits. -/
theorem toUInt64_mask : (mask id).toUInt32.toUInt64 = mask id := by
  have hlt : (mask id).toNat < 2 ^ 32 := by
    rw [mask, UInt64.toNat_and]
    exact Nat.lt_of_le_of_lt Nat.and_le_right (by decide)
  apply UInt64.toNat_inj.mp
  rw [UInt32.toNat_toUInt64, UInt64.toNat_toUInt32, Nat.mod_eq_of_lt hlt]

theorem code_create : (Call.create type).code = (Call.alloc_inode type).code := by
  simp only [Call.code, create, bind_assoc, pure_bind]

theorem code_put (hbuf : buf.length < 2 ^ 31) :
    (Call.put id buf).code = (Call.write_file (mask id).toUInt32 buf).code := by
  have hsize : toInt buf.length = buf.length := Int32.toInt_ofNat_of_lt hbuf
  simp only [Call.code, put, bind_assoc, pure_bind, hsize, toUInt64_mask]

theorem harmless_create : Harmless st (.create type) ↔ Harmless st (.alloc_inode type) := by
  have hout : (Call.create type).outcome = (Call.alloc_inode type).outcome := by
    unfold Call.outcome
    rw [code_create]
  constructor <;> rintro ⟨hu, hw, ho⟩
  · rw [hout] at hu hw ho
    exact ⟨hu, hw, ho⟩
  · constructor <;> rw [hout]
    exacts [hu, hw, ho]

theorem harmless_put (hbuf : buf.length < 2 ^ 31) :
    Harmless st (.put id buf) ↔ Harmless st (.write_file (mask id).toUInt32 buf) := by
  have hout : (Call.put id buf).outcome = (Call.write_file (mask id).toUInt32 buf).outcome := by
    unfold Call.outcome
    rw [code_put hbuf]
  have hfile : ∀ o, (Call.put id buf).file o = (Call.write_file (mask id).toUInt32 buf).file o :=
    fun _ => congrArg some toUInt64_mask.symm
  constructor <;> rintro ⟨hu, hw, ho⟩
  · rw [hout, hfile] at hw ho
    rw [hout] at hu
    exact ⟨hu, hw, ho⟩
  · constructor <;> rw [hout]
    · exact hu
    · rw [hfile]
      exact hw
    · rw [hfile]
      exact ho

/-- The record does not matter. -/
theorem Stored.forget {s : World} {f : Shape} (h : Stored s f) : Stored s.forget f :=
  ⟨h.rep, h.marked, h.size, h.blocks, h.len⟩

theorem not_full_forget {s : World} : ¬ s.forget.full := by
  rintro ⟨type, ht⟩
  cases ht

theorem Stored.result {s : World} {f : Shape} (h : Stored s f) :
    ((Storage.read_file (f.node 0)).run s).result = some (f.content s) := by
  obtain ⟨w, hr, -⟩ := h.read_file
  rw [hr]
  rfl

/-- **A new file does not need its data block.** -/
theorem NewInode.harmless {w : World} {new : List Event} (hF : Inv st F)
    (h : NewInode type st.world.forget i w new)
    (hr : (alloc_inode type).run st.world.forget = .done i w) :
    Harmless st (.alloc_inode type) := by
  have hid : (i.toUInt64).toUInt32 = i := UInt32.toUInt32_toUInt64 i
  have hout : (Call.alloc_inode type).outcome st.world = .done i.toUInt64 w := by
    rw [Call.outcome, Call.code, Prog.run_bind, hr]
    rfl
  constructor
  case usable =>
    intro id w' hw
    rw [hout] at hw
    cases hw
    have hread := h.stored.result
    have hsize : (w.inode ((Shape.empty i).node 0)).size = 0 := h.size
    rw [Shape.content, hsize] at hread
    rw [hid, UInt32.toNat_toUInt64]
    exact ⟨h.pos, h.lt, hread⟩
  case writes =>
    intro b hb
    rw [hout] at hb ⊢
    have hb : Event.write b ∈ w.trace := hb
    rw [h.trace] at hb
    rcases List.mem_append.mp hb with hb | hb
    · refine (h.writes b hb).imp id fun hb => ⟨_, rfl, .empty i, h.stored, hid.symm, ?_⟩
      rw [hb]
      exact Shape.node_own Nat.one_pos
    · cases hb
  case others =>
    intro j hj _
    rw [hout]
    by_cases hlt : j.toNat < INODE_NUM
    · have hst := (hF.stored j hj hlt).forget
      have hroot := hF.root j hj hlt
      have hread : ((read_file ((F j).node 0)).run st.world).result =
          some ((F j).content st.world.forget) := (hF.stored j hj hlt).result
      have hread' := (hst.frame h.frame fun _ _ => id).1.result
      rw [hst.content_frame h.frame (fun _ _ => id) (.inl h.zero), ← hread, hroot] at hread'
      exact hread'
    · show ((read_file j).run w).result = _
      rw [read_file, run_get_inode hlt, run_get_inode hlt]
      rfl

/-- `alloc_inode` needs an inode. -/
theorem harmless_alloc_iff (hF : Inv st F) : Harmless st (.alloc_inode type) ↔
    ∃ r, INODE_START ≤ r ∧ r < DATA_START ∧ st.world.free r := by
  have hwp : Prog.wp (alloc_inode type) (fun i w => (∃ new, NewInode type st.world.forget i w new) ∨
      (∀ j, INODE_START ≤ j → j < DATA_START → ¬ st.world.forget.free j) ∧ i = 4294967285)
      (fun _ _ => False) st.world.forget :=
    wp_alloc_inode (fun i w new h => .inl ⟨new, h⟩) fun hnone w _ _ => .inr ⟨hnone, rfl⟩
  obtain ⟨i, w, hr, ⟨new, hnew⟩ | ⟨hnone, rfl⟩⟩ := Prog.wp_done hwp
  · exact iff_of_true (hnew.harmless hF hr) hnew.space
  · refine iff_of_false (fun h => ?_) fun ⟨r, hr, hr', hfree⟩ => hnone r hr hr' hfree
    have hout : (Call.alloc_inode type).outcome st.world =
        .done (4294967285 : UInt32).toUInt64 w := by
      rw [Call.outcome, Call.code, Prog.run_bind, hr]
      rfl
    exact absurd (h.usable _ _ hout).2.1 (by decide)

/-- **A file cannot do without its data blocks**: `write_file` writes to block 0 instead. -/
theorem write_not_harmless (hF : Inv st F) (hi : i ∈ st.live) (hbuf : buf.length < 2 ^ 31)
    (hfull : ((Call.write_file i buf).outcome st.world).state.full) :
    ¬ Harmless st (.write_file i buf) := by
  intro h
  have hlt : i.toNat < INODE_NUM := by
    by_contra hlt
    rw [Call.outcome, Call.code, Prog.run_bind, write_file, run_get_inode hlt] at hfull
    exact not_full_forget hfull
  have hwp := wp_write_file (E := fun _ w => Event.write 0 ∈ w.trace)
    (Q := fun _ w => w.full → Event.write 0 ∈ w.trace) (hF.stored i hi hlt).forget hbuf
    (fun g w hw hf => (hw.noted hf).resolve_left not_full_forget)
    fun e w _ hn _ => hn.resolve_left not_full_forget
  rw [hF.root i hi hlt] at hwp
  have hzero : Event.write 0 ∈ ((Call.write_file i buf).outcome st.world).state.trace := by
    rcases Prog.wp_cases hwp with ⟨⟨⟩, w, hr, hw⟩ | ⟨e, w, hr, hw⟩
    · rw [Call.outcome, Call.code, Prog.run_bind, hr] at hfull ⊢
      exact hw hfull
    · rw [Call.outcome, Call.code, Prog.run_bind, hr]
      exact hw
  rcases h.writes 0 hzero with h0 | ⟨id, -, g, hg, -, hown⟩
  · omega
  · exact absurd (hg.rep.own_range hown).1 (by decide)

/-- There are not more data blocks than the region has. -/
theorem Stored.n_le {s : World} {f : Shape} (h : Stored s f) (h0 : ∀ m < f.n, f.data m ≠ 0) :
    f.n ≤ BLOCK_NUM - DATA_START := by
  have hcard := Finset.card_le_card_of_injOn (s := Finset.range f.n)
    (t := Finset.Ico DATA_START BLOCK_NUM) (fun m => (f.data m).toNat) (fun m hm => ?_)
    fun m hm k hk he => ?_
  · rwa [Finset.card_range, Nat.card_Ico] at hcard
  · have hm := Finset.mem_range.mp hm
    exact Finset.mem_coe.mpr (Finset.mem_Ico.mpr ((h.rep.data_lt m hm).resolve_left (h0 m hm)))
  · have hm := Finset.mem_range.mp (Finset.mem_coe.mp hm)
    have hk := Finset.mem_range.mp (Finset.mem_coe.mp hk)
    exact h.rep.data_inj m hm k hk (UInt32.toNat_inj.mp he) (h0 m hm)

/-- What is longer than the region cannot be written. -/
theorem write_full (hF : Inv st F) (hnf : ¬ st.world.full) (hi : i ∈ st.live)
    (hbuf : buf.length < 2 ^ 31) (hlen : (BLOCK_NUM - DATA_START) * BLOCK_SIZE < buf.length) :
    ((Call.write_file i buf).outcome st.world).state.full := by
  by_contra hspace
  have hlt := hF.inRange hnf i hi
  have hwp := wp_write_file (E := fun _ w => w.full)
    (Q := fun _ w => ∃ g, Written st.world.forget (F i) buf g w) (hF.stored i hi hlt).forget hbuf
    (fun g w hw => ⟨g, hw⟩) fun _ _ hf _ _ => hf
  rw [hF.root i hi hlt] at hwp
  rcases Prog.wp_cases hwp with ⟨⟨⟩, w, hr, g, hw⟩ | ⟨e, w, hr, hf⟩
  · rw [Call.outcome, Call.code, Prog.run_bind, hr] at hspace
    have hn := hw.stored.blocks
    have hle := hw.stored.n_le (hw.nonzero hspace (hF.nonzero hnf i hi))
    rw [hw.size] at hn
    simp only [BLOCK_NUM, DATA_START, INODE_START, INODE_NUM, BLOCK_SIZE] at hn hle hlen
    omega
  · rw [Call.outcome, Call.code, Prog.run_bind, hr] at hspace
    exact hspace hf

/-- 28661 blocks of zeros for the root directory. -/
def flood : Call := .write_file 1 (List.replicate 14674432 0)

theorem flood_proper : flood.Proper twoFiles.live :=
  ⟨by decide, by rw [List.length_replicate]; decide⟩

theorem flood_full : (flood.outcome twoFiles.world).state.full := by
  obtain ⟨F, hF⟩ := inv_of_reachable reachable_twoFiles
  refine write_full hF (World.not_full twoFiles_space.1) flood_proper.1 flood_proper.2 ?_
  rw [List.length_replicate]
  decide

/-- **A full disk does harm**, unless a file is made and only the data region is full. -/
theorem harmless_iff (h : Reachable Init Step st) (c : Call) (hc : c.Proper st.live)
    (hfull : (c.outcome st.world).state.full) :
    Harmless st c ↔ c.isNew ∧ ∃ r, INODE_START ≤ r ∧ r < DATA_START ∧ st.world.free r := by
  obtain ⟨F, hF⟩ := inv_of_reachable h
  cases c with
  | alloc_inode type =>
    rw [harmless_alloc_iff hF]
    exact (and_iff_right trivial).symm
  | create type =>
    rw [harmless_create, harmless_alloc_iff hF]
    exact (and_iff_right trivial).symm
  | write_file inum buf =>
    exact iff_of_false (write_not_harmless hF hc.1 hc.2 hfull) fun h => h.1
  | put id buf =>
    rw [Call.outcome, code_put hc.2] at hfull
    rw [harmless_put hc.2]
    exact iff_of_false (write_not_harmless hF hc.1 hc.2 hfull) fun h => h.1

theorem harmless_flood_iff : Harmless twoFiles flood ↔
    flood.isNew ∧ ∃ r, INODE_START ≤ r ∧ r < DATA_START ∧ twoFiles.world.free r :=
  harmless_iff reachable_twoFiles flood flood_proper flood_full

theorem flood_harms : Reachable Init Step twoFiles ∧ flood.Proper twoFiles.live ∧
    (flood.outcome twoFiles.world).state.full ∧ ¬ Harmless twoFiles flood := by
  obtain ⟨F, hF⟩ := inv_of_reachable reachable_twoFiles
  exact ⟨reachable_twoFiles, flood_proper, flood_full,
    write_not_harmless hF flood_proper.1 flood_proper.2 flood_full⟩

end Harmless

end Yfs.Storage
