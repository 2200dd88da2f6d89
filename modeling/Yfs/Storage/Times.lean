import Yfs.Extent.Reading
import Yfs.Storage.Layer

/-!
# The times in the inodes

`inode_manager` on its disk as an inode layer with times (`timed`), as long as the clock stands
still: `alloc_inode` and `write_file` stamp the inode, and nothing else changes its `mtime` and
`ctime`. So what is said about reading in `Extent.Times` is said about this disk, and here is
the run on which a `get` changes the times.
-/

namespace Yfs.Storage

open Extent (Bytes Attr TimedInodes toInt T_FILE Sys FileData Status OK)
open Prog (Preserves)

/-! ## A clock that stands still -/

section Still

variable {n : UInt32} {α : Type}

/-- The clock stands at `n`. -/
def Still (n : UInt32) (s : World) : Prop := s.clock = .const n

theorem still_read_block {id : UInt32} : (read_block id).Preserves (Still n) := by
  unfold read_block
  split
  case isTrue => exact Prog.preserves_step fun _ h => h
  case isFalse => exact Prog.preserves_fail _

theorem still_write_block {id : UInt32} {buf : Block} :
    (write_block id buf).Preserves (Still n) := by
  unfold write_block
  split
  case isTrue => exact Prog.preserves_step fun _ h => h
  case isFalse => exact Prog.preserves_fail _

theorem still_time : time.Preserves (Still n) :=
  Prog.preserves_step fun s h => by
    show s.clock.tail = _
    rw [show s.clock = _ from h]
    rfl

theorem still_uninitialized : uninitialized.Preserves (Still n) :=
  Prog.preserves_step fun _ h => h

theorem still_deref {a : Option α} : (deref a).Preserves (Still n) := by
  cases a with
  | none => exact Prog.preserves_fail _
  | some a => exact Prog.preserves_pure a

theorem still_allocLoop {type : Region} {l i : ℕ} {buf : Block} :
    (allocLoop type l buf i).Preserves (Still n) := by
  unfold allocLoop
  split
  case isTrue hlt =>
    refine Preserves.bind ?_ fun _ => ?_
    · split
      case isTrue => exact still_read_block.bind fun _ => Prog.preserves_pure _
      case isFalse => exact Prog.preserves_pure _
    · dsimp only
      split
      case isTrue => exact still_write_block.bind fun _ => Prog.preserves_pure _
      case isFalse => exact still_allocLoop
  case isFalse => exact (Prog.preserves_step fun _ h => h).bind fun _ => Prog.preserves_pure _
termination_by type.stop - i
decreasing_by omega

theorem still_alloc_block
    {type : Region} : (alloc_block type).Preserves (Still n) := still_allocLoop

theorem still_free_block {id : UInt32} : (free_block id).Preserves (Still n) := by
  unfold free_block
  split
  case isTrue => exact Prog.preserves_pure _
  case isFalse => exact still_read_block.bind fun _ => still_write_block

theorem still_alloc_inode {type : UInt32} : (alloc_inode type).Preserves (Still n) :=
  still_alloc_block.bind fun _ => still_alloc_block.bind fun _ => still_time.bind fun _ =>
    still_uninitialized.bind fun _ => still_write_block.bind fun _ => Prog.preserves_pure _

theorem still_get_inode {i : UInt32} : (get_inode i).Preserves (Still n) := by
  unfold get_inode
  split
  case isTrue => exact Prog.preserves_pure _
  case isFalse => exact still_read_block.bind fun _ => Prog.preserves_pure _

theorem still_put_inode {i : UInt32} {ino : Inode} : (put_inode i ino).Preserves (Still n) :=
  still_read_block.bind fun _ => still_write_block

theorem still_freeLoop {next : UInt32 → Code Unit} {inode : Inode} {x : ℕ} {size : Int}
    (hnext : ∀ i, (next i).Preserves (Still n)) :
    (freeLoop next inode x size).Preserves (Still n) := by
  unfold freeLoop
  split
  case isTrue hlt =>
    split
    case isTrue =>
      refine still_get_inode.bind fun _ => still_deref.bind fun _ => ?_
      exact still_put_inode.bind fun _ => hnext _
    case isFalse => exact still_free_block.bind fun _ => still_freeLoop hnext
  case isFalse => exact Prog.preserves_pure _
termination_by size.toNat
decreasing_by
  simp only [BLOCK_SIZE]
  omega

theorem still_freeInode {depth : ℕ} {i : UInt32} : (freeInode depth i).Preserves (Still n) := by
  induction depth generalizing i with
  | zero => exact Prog.preserves_fail _
  | succ depth ih =>
    refine still_get_inode.bind fun _ => still_deref.bind fun _ => still_put_inode.bind fun _ => ?_
    exact still_free_block.bind fun _ => still_freeLoop fun _ => ih

theorem still_advance {size : Int} {k : ℕ} {p : Cursor} :
    (advance size k p).Preserves (Still n) := by
  unfold advance
  split
  case isTrue =>
    refine Preserves.bind ?_ fun _ => ?_
    · split
      case isTrue => exact still_alloc_inode.bind fun _ => Prog.preserves_pure _
      case isFalse => exact Prog.preserves_pure _
    · refine still_get_inode.bind fun _ => still_put_inode.bind fun _ => ?_
      exact still_deref.bind fun _ => Prog.preserves_pure _
  case isFalse => exact Prog.preserves_pure _

theorem still_writeLoop {size lost : Int} {cur : Bytes} {k : ℕ} {p : Cursor} :
    (writeLoop size lost cur k p).Preserves (Still n) := by
  unfold writeLoop
  split
  case isTrue hlt =>
    refine still_advance.bind fun _ => Preserves.bind ?_ fun _ => ?_
    · split
      case isTrue => exact still_alloc_block.bind fun _ => Prog.preserves_pure _
      case isFalse => exact Prog.preserves_pure _
    · exact still_write_block.bind fun _ => still_writeLoop
  case isFalse => exact Prog.preserves_pure _
termination_by lost.toNat
decreasing_by
  simp only [BLOCK_SIZE]
  omega

theorem still_shrinkLoop {size : Int} {k : ℕ} {p : Cursor} :
    (shrinkLoop size k p).Preserves (Still n) := by
  unfold shrinkLoop
  split
  case isTrue hlt =>
    split
    case isTrue => exact still_freeInode
    case isFalse => exact still_free_block.bind fun _ => still_shrinkLoop
  case isFalse => exact Prog.preserves_pure _
termination_by (size - k * BLOCK_SIZE).toNat
decreasing_by
  simp only [BLOCK_SIZE] at *
  omega

theorem still_write_file {i : UInt32} {buf : Bytes} {size : Int} :
    (write_file i buf size).Preserves (Still n) :=
  still_get_inode.bind fun _ => still_deref.bind fun _ => still_writeLoop.bind fun _ =>
    still_shrinkLoop.bind fun _ => still_put_inode.bind fun _ => still_get_inode.bind fun _ =>
      still_deref.bind fun _ => still_time.bind fun _ => still_time.bind fun _ => still_put_inode

end Still

/-! ## What is stamped -/

section Stamps

variable {n : UInt32} {s : World} {i : UInt32}

/-- `mtime` and `ctime` of an inode. -/
def Inode.times (ino : Inode) : UInt32 × UInt32 := (ino.mtime, ino.ctime)

/-- `alloc_inode` stamps the inode it returns. -/
theorem wp_alloc_inode_times {type : UInt32} (hs : Still n s) :
    Prog.wp (alloc_inode type) (fun i w => i.toNat < INODE_NUM → (w.inode i).times = (n, n))
      (fun _ _ => True) s := by
  refine still_alloc_block.wp_bind hs fun r s₁ hs₁ => ?_
  refine still_alloc_block.wp_bind hs₁ fun b s₂ hs₂ => ?_
  have hnow : s₂.clock.head = n := by
    rw [show s₂.clock = _ from hs₂]
    rfl
  simp only [time, uninitialized, Prog.wp_bind, Prog.wp_step, hnow]
  rw [write_block]
  split
  case isFalse => trivial
  case isTrue hr =>
    intro hlt
    -- the inode is in the block that was written
    have hblock : (r - .ofNat INODE_START + 1).toNat + 11 = r.toNat := by
      have h12 : (UInt32.ofNat INODE_START).toNat = 12 := rfl
      simp only [UInt32.toNat_add, UInt32.toNat_sub, h12, INODE_NUM, BLOCK_NUM,
        UInt32.toNat_one] at hlt hr ⊢
      omega
    rw [World.inode, hblock]
    simp only [World.write, Function.update_self, Inode.ofBlock_toBlock]
    rfl

/-- `write_file` stamps its inode, whatever it writes. -/
theorem wp_write_file_times {buf : Bytes} {size : Int} (hs : Still n s) (hi : i.toNat < INODE_NUM) :
    Prog.wp (write_file i buf size) (fun _ w => (w.inode i).times = (n, n))
      (fun _ _ => True) s := by
  refine still_get_inode.wp_bind hs fun _ s₁ hs₁ => still_deref.wp_bind hs₁ fun _ s₂ hs₂ => ?_
  refine still_writeLoop.wp_bind hs₂ fun _ s₃ hs₃ => still_shrinkLoop.wp_bind hs₃ fun _ s₄ hs₄ => ?_
  refine still_put_inode.wp_bind hs₄ fun _ s₅ hs₅ => ?_
  rw [Prog.wp_bind]
  refine wp_get_inode hi ?_
  have hnow : s₅.clock.head = n ∧ s₅.clock.tail.head = n := by
    rw [show s₅.clock = _ from hs₅]
    exact ⟨rfl, rfl⟩
  simp only [Prog.wp_bind, wp_deref, time, Prog.wp_step, hnow]
  refine wp_put_inode hi ?_
  rw [World.inode_putInode, if_pos rfl]
  rfl

end Stamps

/-! ## The disk, with its times -/

section Layer

variable {t t' : Disk} {n : UInt32} {i j : UInt32} {m : UInt32 × UInt32} {F : UInt32 → Shape}

/-- `mtime` and `ctime` of the inodes in use. -/
def Disk.times (t : Disk) (i : UInt32) : Option (UInt32 × UInt32) :=
  if i ∈ t.st.live then some (t.st.world.inode i).times else none

/-- The clock does not matter for the files. -/
theorem Inv.clock {s : World} {live : List UInt32} (h : Inv ⟨s, live⟩ F) (clock : Stream' UInt32) :
    Inv ⟨{ s with clock }, live⟩ F where
  root := h.root
  stored i hi hlt :=
    let hst := h.stored i hi hlt
    ⟨hst.rep, hst.marked, hst.size, hst.blocks, hst.len⟩
  nonzero := h.nonzero
  disjoint := h.disjoint
  inRange := h.inRange

/-- Set the clock. -/
def Disk.setClock (n : UInt32) (t : Disk) : Disk where
  st := ⟨{ t.st.world with clock := .const n }, t.st.live⟩
  apart := t.apart.imp fun _ hF => hF.clock _
  space := t.space

theorem live_of_times (h : t.times i = some m) :
    i ∈ t.st.live ∧ (t.st.world.inode i).times = m := by
  rw [Disk.times] at h
  split at h
  case isTrue hi => exact ⟨hi, Option.some.inj h⟩
  case isFalse => cases h

theorem alloc_inode_times {ty : UInt32} (hn : Still n t.st.world)
    (h : layer.alloc_inode ty t = some (i, t')) :
    Still n t'.st.world ∧ i.toNat < 2 ^ 31 ∧ t.times i = none ∧
      ∀ j, t'.times j = if j = i then some (n, n) else t.times j := by
  obtain ⟨hr, hlive, new, hnew⟩ := Disk.of_alloc h
  obtain ⟨hlt, -, hnone, -⟩ := alloc_inode_lawful h
  have hdead : i ∉ t.st.live := fun hi => file_ne_none.mpr hi hnone
  refine ⟨still_alloc_inode.run hn hr, hlt, if_neg hdead, fun j => ?_⟩
  by_cases hji : j = i
  · subst hji
    rw [if_pos rfl, Disk.times, if_pos (by simp [hlive]),
      Prog.wp_run (wp_alloc_inode_times hn) hr hnew.lt]
  · obtain ⟨F, -, hfiles⟩ := t.exists_shapes
    by_cases hj : j ∈ t.st.live
    · obtain ⟨hst, hroot, -, -⟩ := hfiles j hj
      rw [if_neg hji, Disk.times, Disk.times, if_pos hj, if_pos (by simp [hlive, hj]),
        Disk.inode_frame hst hroot hnew.frame fun _ _ => id]
    · rw [if_neg hji, Disk.times, Disk.times, if_neg hj, if_neg (by simp [hlive, hj, hji])]

theorem write_file_times {buf : Bytes} (hn : Still n t.st.world)
    (h : layer.write_file i buf (toInt buf.length) t = some t') :
    Still n t'.st.world ∧ ∀ j, t'.times j = if j = i then some (n, n) else t.times j := by
  obtain ⟨hi, -, hlive, hr⟩ := Disk.of_write h
  obtain ⟨F, hF, hfiles⟩ := t.exists_shapes
  obtain ⟨hst, hroot, -, -⟩ := hfiles i hi
  obtain ⟨g, hw⟩ := Disk.written hst hroot h
  refine ⟨still_write_file.run hn hr, fun j => ?_⟩
  by_cases hji : j = i
  · subst hji
    have hlt : j.toNat < INODE_NUM := hF.inRange t.space j hi
    rw [if_pos rfl, Disk.times, if_pos (hlive ▸ hi), Prog.wp_run (wp_write_file_times hn hlt) hr]
  · rw [if_neg hji, Disk.times, Disk.times, hlive]
    split
    case isFalse => rfl
    case isTrue hj =>
      obtain ⟨hst', hroot', -, -⟩ := hfiles j hj
      rw [Disk.inode_frame hst' hroot' hw.frame (hF.disjoint j hj (hF.inRange t.space j hj) i hi
        (hF.inRange t.space i hi) hji)]

theorem read_file_times {b : Bytes} (hn : Still n t.st.world) (hm : t.times i = some m)
    (h : layer.read_file i t = some (b, t')) : Still n t'.st.world ∧ t'.times = t.times := by
  obtain ⟨hi, -⟩ := live_of_times hm
  obtain ⟨F, -, hfiles⟩ := t.exists_shapes
  obtain ⟨hst, hroot, -, -⟩ := hfiles i hi
  obtain ⟨-, hw, hlive⟩ := Disk.of_read hi hst hroot h
  refine ⟨?_, funext fun j => ?_⟩
  · rw [hw]
    show t.st.world.clock.tail = _
    rw [show t.st.world.clock = _ from hn]
    rfl
  · have hino : (t'.st.world.inode j).times = (t.st.world.inode j).times := by
      rw [hw, World.touch, World.inode_putInode]
      split
      case isTrue he =>
        rw [he]
        rfl
      case isFalse => rfl
    rw [Disk.times, Disk.times, hlive, hino]

theorem getattr_times {a : Attr} (hn : Still n t.st.world) (hm : t.times i = some m)
    (h : layer.getattr i t = some (a, t')) :
    a.times = m ∧ Still n t'.st.world ∧ t'.times = t.times := by
  obtain ⟨hi, htimes⟩ := live_of_times hm
  have hlt : i.toNat + 11 < BLOCK_NUM := by
    have := Disk.live_range hi
    simp only [INODE_NUM, BLOCK_NUM] at this ⊢
    omega
  simp only [layer, if_pos hi, run_getattr hlt, Prog.Outcome.result, Option.map_some,
    Option.some.injEq, Prod.mk.injEq] at h
  obtain ⟨rfl, rfl⟩ := h
  exact ⟨htimes, hn, rfl⟩

/-- **The disk is an inode layer with times.** -/
def timed : TimedInodes layer where
  Shows t n := Still n t.st.world
  setClock := Disk.setClock
  times := Disk.times
  shows_setClock _ _ := rfl
  times_setClock _ _ := rfl
  alloc_ok := alloc_inode_times
  write_ok hn _ h := write_file_times hn h
  read_ok := read_file_times
  getattr_ok := getattr_times

end Layer

/-! ## Runs over a new disk -/

section Runs

open Extent.Times

/-- The server on a new disk, at time 0. -/
def newTimes : Pool Extent.Fault Extent.ExtentId (Sys Disk) Extent.Times.Call Stamped Unit where
  state := { im := newDisk, clock := .const 0, memory := .const {} }
  owner _ := none
  thread _ := none
  log := []

theorem newTimes_init : Pool.Init (Start timed 0) newTimes := by
  have hrun : inode_manager.run zeros = .done 1 newDisk.st.world :=
    Prog.Outcome.eq_done (by decide +kernel)
  have hstill : Still 0 newDisk.st.world := still_alloc_inode.run (show Still 0 zeros from rfl) hrun
  refine ⟨⟨⟨fun _ => rfl, fun _ _ => rfl⟩, ⟨0, rfl, hstill⟩, fun id => ?_⟩, fun _ => rfl,
    fun _ => rfl, rfl⟩
  split
  case isTrue hid =>
    subst hid
    decide +kernel
  case isFalse hid =>
    rw [dates]
    split
    case isFalse => rfl
    case isTrue hlt =>
      refine if_neg fun hmem => hid ?_
      exact Extent.toUInt32_inj hlt (by decide) (List.mem_singleton.mp hmem)

/-- Every client runs, and calls are on extents that were created. -/
def allowed (call : Extent.Times.Call) (log : List (Extent.Times.Call × Stamped)) : Bool :=
  call.on?.all fun (_, id) => decide (id = 1) || log.any fun y => match y with
    | (.create _ _, .created r i, some _) => r = OK ∧ i = id
    | _ => false

theorem may_of_allowed (call : Extent.Times.Call) (log : List (Extent.Times.Call × Stamped))
    (h : allowed call log) :
    May (fun _ => true) call log := by
  intro c id hid
  refine ⟨rfl, ?_⟩
  simp only [allowed, hid, Option.all_some, Bool.or_eq_true, decide_eq_true_eq] at h
  refine h.imp_right fun h => ?_
  obtain ⟨y, hy, hm⟩ := List.any_eq_true.mp h
  split at hm
  case h_1 c' ty r i now =>
    obtain ⟨rfl, rfl⟩ := of_decide_eq_true hm
    exact ⟨c', ty, now, hy⟩
  case h_2 => cases hm

/-- `A` creates an extent and reads it at time 0, and `B` reads it at time 7. Then the times that
are reported are 7. -/
theorem get_modifies :
    ∃ p : Pool Extent.Fault Extent.ExtentId (Sys Disk) Extent.Times.Call Stamped Unit,
    Reached timed (fun _ => true) 0 False p ∧ ¬ Unmodified timed 0 p := by
  have hrun : (Pool.script (service timed (fun _ => true) False) allowed (fun _ _ _ => true) 200 ()
      [.create "A" T_FILE, .get "A" 5, .tick 7, .get "B" 5] newTimes).map
        (fun p => (modified 0 5 p.log, p.owner 5, reported timed p.state 5)) =
      some (some 0, none, some (7, 7)) := by decide +kernel
  obtain ⟨p, hp, hobs⟩ := Pool.reachable_script may_of_allowed (fun _ _ _ _ h => h.elim)
    (.start newTimes_init) hrun
  obtain ⟨hlog, hfree, hrep⟩ : _ ∧ _ ∧ _ := by simpa only [Prod.mk.injEq] using hobs
  refine ⟨p, hp, fun h => ?_⟩
  have := h 5 0 hlog hfree
  rw [hrep] at this
  exact absurd this (by decide)

/-- If `B` has the attributes before it reads, the times stay. -/
theorem reading_keeps_times_getattr :
    ∃ p : Pool Extent.Fault Extent.ExtentId (Sys Disk) Extent.Times.Call Stamped Unit,
    Reached timed (fun _ => true) 0 True p ∧ modified 0 5 p.log = some 0 ∧
      dates timed p.state 5 = some (7, 7) ∧ reported timed p.state 5 = some (0, 0) := by
  have hrun : (Pool.script (service timed (fun _ => true) True) allowed (fun call i s =>
      decide (call.Cond (Extent.Removal.face s i))) 200 ()
      [.create "A" T_FILE, .get "A" 5, .tick 7, .getattr "B" 5, .get "B" 5] newTimes).map
        (fun p => (modified 0 5 p.log, p.owner 5, dates timed p.state 5)) =
      some (some 0, none, some (7, 7)) := by decide +kernel
  obtain ⟨p, hp, hobs⟩ := Pool.reachable_script may_of_allowed
    (fun _ _ _ h _ => of_decide_eq_true h) (.start newTimes_init) hrun
  obtain ⟨hlog, hfree, hdates⟩ : _ ∧ _ ∧ _ := by simpa only [Prod.mk.injEq] using hobs
  exact ⟨p, hp, hlog, hdates, reading_keeps_times hp 5 0 hlog hfree⟩

end Runs

end Yfs.Storage
