import Yfs.Storage.Inodes

/-!
# What a call leaves alone

The inodes on the disk, what `get_inode`, `put_inode` and `alloc_inode` do, and `Frame`: a
call that owns some blocks leaves alone all others that were marked when it started. Frames
of single steps make frames of calls, and the frame of a call keeps every other file.
-/

namespace Yfs.Storage

open Extent (Bytes Attr toInt T_DIR T_FILE)

namespace World

variable {s : World} {i j : UInt32} {ino : Inode} {b r : ℕ}

/-- The inode with this number. -/
def inode (s : World) (i : UInt32) : Inode := .ofBlock (s.blocks (i.toNat + 11))

/-- Write an inode. -/
def putInode (s : World) (i : UInt32) (ino : Inode) : World :=
  s.write (i.toNat + 11) (ino.toBlock (s.blocks (i.toNat + 11)))

theorem inode_putInode : (s.putInode i ino).inode j = if j = i then ino else s.inode j := by
  unfold inode putInode
  split
  case isTrue h => rw [h, write_blocks_self, Inode.ofBlock_toBlock]
  case isFalse h =>
    rw [write_blocks_of_ne]
    intro he
    exact h (UInt32.toNat_inj.mp (by omega))

theorem putInode_blocks (h : b ≠ i.toNat + 11) : (s.putInode i ino).blocks b = s.blocks b :=
  write_blocks_of_ne h

theorem marked_putInode (hb : b < BLOCK_NUM) : (s.putInode i ino).marked b = s.marked b :=
  marked_write hb (.inr (by omega))

theorem inode_unmark (hr : r < BLOCK_NUM) : (s.unmark r).inode i = s.inode i := by
  rw [inode, unmark_blocks hr (by omega), inode]

/-- The bitmap depends on the blocks only. -/
theorem marked_congr {s' : World} (h : s'.blocks = s.blocks) : s'.marked = s.marked := by
  unfold marked
  rw [h]

/-- `alloc_block` has returned 0. -/
def full (s : World) : Prop := ∃ type, Event.noSpace type ∈ s.trace

@[simp] theorem full_write {buf : Block} : (s.write r buf).full ↔ s.full := by
  simp [full, write]

@[simp] theorem full_putInode : (s.putInode i ino).full ↔ s.full := full_write

end World

section Wp

variable {s : World} {E : Fault → World → Prop} {i : UInt32} {ino : Inode}

theorem IBLOCK_toNat (h : i.toNat < INODE_NUM) : (IBLOCK i).toNat = i.toNat + 11 := by
  have h8 : (UInt32.ofNat (BLOCK_NUM / BPB)).toNat = 8 := rfl
  simp only [INODE_NUM] at h
  rw [IBLOCK, UInt32.toNat_add, UInt32.toNat_add, UInt32.toNat_div, h8]
  show ((8 + i.toNat / 1) % 2 ^ 32 + 3) % 2 ^ 32 = i.toNat + 11
  omega

@[simp] theorem wp_deref {α : Type} {a : α} {Q : α → World → Prop} :
    Prog.wp (deref (some a)) Q E s ↔ Q a s := Iff.rfl

@[simp] theorem wp_deref_none {α : Type} {Q : α → World → Prop} :
    Prog.wp (deref none) Q E s ↔ E .nullDeref s := Iff.rfl

theorem wp_get_inode {Q : Option Inode → World → Prop} (h : i.toNat < INODE_NUM)
    (hQ : Q (some (s.inode i)) s) : Prog.wp (get_inode i) Q E s := by
  have hb := IBLOCK_toNat h
  rw [get_inode, if_neg (Nat.not_le.mpr h), Prog.wp_bind]
  refine wp_read_block ?_ ?_
  · simp only [hb, BLOCK_NUM, INODE_NUM] at h ⊢
    omega
  · rw [hb]
    exact hQ

theorem wp_put_inode {Q : Unit → World → Prop} (h : i.toNat < INODE_NUM)
    (hQ : Q () (s.putInode i ino)) : Prog.wp (put_inode i ino) Q E s := by
  have hb := IBLOCK_toNat h
  have hlt : (IBLOCK i).toNat < BLOCK_NUM := by
    simp only [hb, BLOCK_NUM, INODE_NUM] at h ⊢
    omega
  rw [put_inode, Prog.wp_bind]
  refine wp_read_block hlt (wp_write_block hlt ?_)
  rw [hb]
  exact hQ

end Wp

/-! ## The rest of the disk -/

/-- What a call that started in `s₀` and owns `O` may write: its own blocks, and those that
were free. -/
def Mine (s₀ : World) (O : Set ℕ) (b : ℕ) : Prop := b ∈ O ∨ s₀.marked b = false

/-- Everything else is still marked and as it was, and the record goes on. -/
structure Frame (s₀ : World) (O : Set ℕ) (s : World) : Prop where
  keep : ∀ b, INODE_START ≤ b → b < BLOCK_NUM → ¬ Mine s₀ O b →
    s.marked b = true ∧ s.blocks b = s₀.blocks b
  trace : s₀.trace <:+ s.trace

section Frame

variable {s₀ s s' : World} {O O' : Set ℕ} {b r : ℕ} {buf : Block} {i : UInt32} {ino : Inode}

theorem Frame.refl (s : World) (O : Set ℕ) : Frame s O s := by
  refine ⟨fun b _ _ hb => ?_, List.suffix_rfl⟩
  rw [Mine, not_or] at hb
  exact ⟨by simpa using hb.2, rfl⟩

theorem Frame.trans (h : Frame s₀ O s) (h' : Frame s O' s')
    (hO : ∀ b, INODE_START ≤ b → b < BLOCK_NUM → b ∈ O' → Mine s₀ O b) : Frame s₀ O s' := by
  refine ⟨fun b hb hb' hm => ?_, h.trace.trans h'.trace⟩
  obtain ⟨hmark, hsame⟩ := h.keep b hb hb' hm
  have hm' : ¬ Mine s O' b := by
    rintro (hO' | hfree)
    · exact hm (hO b hb hb' hO')
    · rw [hmark] at hfree
      cases hfree
  obtain ⟨hmark', hsame'⟩ := h'.keep b hb hb' hm'
  exact ⟨hmark', hsame'.trans hsame⟩

/-- `alloc_block` having returned 0 is not forgotten. -/
theorem Frame.full (h : Frame s₀ O s) (hf : s₀.full) : s.full := by
  obtain ⟨type, ht⟩ := hf
  exact ⟨type, h.trace.subset ht⟩

theorem Frame.congr (h : Frame s₀ O s) (hs : s'.blocks = s.blocks) (ht : s.trace <:+ s'.trace) :
    Frame s₀ O s' := by
  refine ⟨fun b hb hb' hm => ?_, h.trace.trans ht⟩
  rw [World.marked_congr hs, hs]
  exact h.keep b hb hb' hm

theorem Frame.write (h : Frame s₀ O s) (hr : r < 2 ∨ 10 ≤ r) (hm : r < INODE_START ∨ Mine s₀ O r) :
    Frame s₀ O (s.write r buf) := by
  refine ⟨fun b hb hb' hmb => ?_, h.trace.trans (List.suffix_cons ..)⟩
  have hne : b ≠ r := by
    rintro rfl
    rcases hm with hm | hm
    · omega
    · exact hmb hm
  rw [World.marked_write hb' hr, World.write_blocks_of_ne hne]
  exact h.keep b hb hb' hmb

/-- Block 0 is nobody's. -/
theorem Frame.zero (h : Frame s₀ O s) : Frame s₀ O (s.write 0 buf) :=
  h.write (.inl (by decide)) (.inl (by decide))

theorem Frame.putInode (h : Frame s₀ O s) (hm : Mine s₀ O (i.toNat + 11)) :
    Frame s₀ O (s.putInode i ino) :=
  h.write (.inr (by omega)) (.inr hm)

theorem Frame.mark (h : Frame s₀ O s) (hr : r < BLOCK_NUM) : Frame s₀ O (s.mark r) := by
  refine ⟨fun b hb hb' hm => ?_, h.trace.trans (List.suffix_cons ..)⟩
  simp only [INODE_START] at hb
  rw [World.marked_mark, World.mark_blocks hr (by omega)]
  obtain ⟨hmark, hsame⟩ := h.keep b hb hb' hm
  exact ⟨by simp [hmark], hsame⟩

theorem Frame.unmark (h : Frame s₀ O s) (hr : r < BLOCK_NUM) (hm : Mine s₀ O r) :
    Frame s₀ O (s.unmark r) := by
  refine ⟨fun b hb hb' hmb => ?_, h.trace.trans (List.suffix_cons ..)⟩
  have hne : b ≠ r := fun e => hmb (e ▸ hm)
  simp only [INODE_START] at hb
  rw [World.marked_unmark, World.unmark_blocks hr (by omega)]
  obtain ⟨hmark, hsame⟩ := h.keep b hb hb' hmb
  exact ⟨by simp [hmark, hne], hsame⟩

/-- What is free now was not protected. -/
theorem Frame.mine (h : Frame s₀ O s) (hb : INODE_START ≤ b) (hb' : b < BLOCK_NUM)
    (hfree : s.marked b = false) : Mine s₀ O b := by
  by_contra hm
  simp [(h.keep b hb hb' hm).1] at hfree

end Frame

/-! ## New inodes -/

/-- A scan finds the first block of its region, or the first of a byte of the bitmap. -/
theorem first_aligned {s : World} {type : Region} {r : ℕ} (hr : type.start ≤ r) (hfree : s.free r)
    (hfirst : ∀ j, type.start ≤ j → j < r → ¬ s.free j) : r = type.start ∨ r % 8 = 0 := by
  by_contra hne
  rw [not_or] at hne
  obtain ⟨j, rfl⟩ : ∃ j, r = j + 1 := ⟨r - 1, by cases type <;> simp at hr <;> omega⟩
  refine hfirst j (by omega) (by omega) ?_
  have hb : BBLOCK (j + 1) = BBLOCK j := by
    simp only [BBLOCK, BPB, BLOCK_SIZE]
    omega
  have hi : BBLOCK_INDEX (j + 1) = BBLOCK_INDEX j + 1 := by
    simp only [BBLOCK_INDEX, BPB, BLOCK_SIZE]
    omega
  unfold World.free at hfree ⊢
  rw [hb, hi] at hfree
  refine notCheck_pred hfree ?_
  simp only [BBLOCK_INDEX, BPB, BLOCK_SIZE]
  omega

/-- What `alloc_inode` has done when it returns a number that can be used: an inode of size
0, with a data block that was free if there was one. Nothing else is written, and `new` is
the record of it. -/
structure NewInode (type : UInt32) (s : World) (i : UInt32) (s' : World) (new : List Event) :
    Prop where
  pos : 0 < i.toNat
  lt : i.toNat < INODE_NUM
  space : ∃ r, INODE_START ≤ r ∧ r < DATA_START ∧ s.free r
  unmarked : s.marked (i.toNat + 11) = false
  marked : s'.marked (i.toNat + 11) = true
  size : (s'.inode i).size = 0
  type : (s'.inode i).type = type.toUInt16.toInt16
  first : ((s'.inode i).blocks 0).toNat < BLOCK_NUM
  data : Event.noSpace .DATA ∈ new ∧ (∀ j, DATA_START ≤ j → j < BLOCK_NUM → ¬ s'.free j) ∨
    Event.noSpace .DATA ∉ new ∧ DATA_START ≤ ((s'.inode i).blocks 0).toNat ∧
      s.marked ((s'.inode i).blocks 0).toNat = false ∧
      s'.marked ((s'.inode i).blocks 0).toNat = true
  frame : Frame s ∅ s'
  trace : s'.trace = new ++ s.trace
  inode : Event.noSpace .INODE ∉ new
  writes : ∀ b, Event.write b ∈ new → 2 ≤ b ∧ b < 10 ∨ b = i.toNat + 11
  zero : s'.blocks 0 = s.blocks 0
  only : ∀ b < DATA_START, s'.marked b = true → s.marked b = true ∨ b = i.toNat + 11

/-- `iblock_num - INODE_START + 1`. -/
theorem inum_toNat {r : ℕ} (hr : INODE_START ≤ r) (hr' : r < DATA_START) :
    (UInt32.ofNat r - .ofNat INODE_START + 1).toNat = r - 11 := by
  simp only [INODE_START, DATA_START, INODE_NUM] at hr hr' ⊢
  have h1 : (UInt32.ofNat r).toNat = r := toNat_ofNat (by simp only [BLOCK_NUM]; omega)
  have h12 : (UInt32.ofNat 12).toNat = 12 := rfl
  have hle : UInt32.ofNat 12 ≤ UInt32.ofNat r := by
    rw [UInt32.le_iff_toNat_le, h1, h12]
    exact hr
  rw [UInt32.toNat_add, UInt32.toNat_sub_of_le _ _ hle, h1, h12]
  show (r - 12 + 1) % 2 ^ 32 = r - 11
  omega

/-- The last write of `alloc_inode`, in a world where both scans are done. -/
theorem NewInode.of_write {type b : UInt32} {s s₂ : World} {r : ℕ} {ino : Inode} {m : Block}
    {new : List Event}
    (hr : INODE_START ≤ r) (hr' : r < DATA_START) (hal : r = INODE_START ∨ r % 8 = 0)
    (hfree : s.free r) (hmark : ∀ x, s.marked x = true ∨ x = r → s₂.marked x = true)
    (honly : ∀ x < DATA_START, s₂.marked x = true → s.marked x = true ∨ x = r)
    (hblocks : ∀ x, x < 2 ∨ 10 ≤ x → s₂.blocks x = s.blocks x)
    (hb : b.toNat < BLOCK_NUM)
    (hdata : Event.noSpace .DATA ∈ new ∧ (∀ j, DATA_START ≤ j → j < BLOCK_NUM → ¬ s₂.free j) ∨
      Event.noSpace .DATA ∉ new ∧ DATA_START ≤ b.toNat ∧ s.marked b.toNat = false ∧
        s₂.marked b.toNat = true)
    (htrace : s₂.trace = new ++ s.trace) (hno : Event.noSpace .INODE ∉ new)
    (hw : ∀ x, Event.write x ∈ new → 2 ≤ x ∧ x < 10)
    (hsize : ino.size = 0) (htype : ino.type = type.toUInt16.toInt16) (hb0 : ino.blocks 0 = b) :
    NewInode type s (UInt32.ofNat r - .ofNat INODE_START + 1) (s₂.write r (ino.toBlock m))
      (.write r :: new) := by
  have hi := inum_toNat hr hr'
  simp only [INODE_START, DATA_START, INODE_NUM] at hr hr' hal
  have hi11 : r - 11 + 11 = r := by omega
  have hino : (s₂.write r (ino.toBlock m)).inode
      (UInt32.ofNat r - .ofNat INODE_START + 1) = ino := by
    rw [World.inode, hi, hi11, World.write_blocks_self, Inode.ofBlock_toBlock]
  have hmw : ∀ x, x < BLOCK_NUM → (s₂.write r (ino.toBlock m)).marked x = s₂.marked x :=
    fun x hx => World.marked_write hx (.inr (by omega))
  constructor
  case pos => rw [hi]; omega
  case lt => rw [hi]; simp only [INODE_NUM]; omega
  case space => exact ⟨r, by simpa using hr, by simpa using hr', hfree⟩
  case unmarked =>
    rw [hi, hi11]
    exact World.not_marked_of_free hfree
  case marked =>
    rw [hi, hi11, hmw r (by simp only [BLOCK_NUM]; omega)]
    exact hmark r (.inr rfl)
  case size => rw [hino, hsize]
  case type => rw [hino, htype]
  case first => rw [hino, hb0]; exact hb
  case data =>
    rw [hino, hb0]
    refine hdata.imp (fun h => ⟨List.mem_cons_of_mem _ h.1, fun j hj hj' => ?_⟩)
      fun h => ⟨by simp [h.1], h.2.1, h.2.2.1, ?_⟩
    · have hne : BBLOCK j ≠ r := by
        have := World.BBLOCK_lt hj'
        omega
      rw [World.free, World.write_blocks_of_ne hne]
      exact h.2 j hj hj'
    · rw [hmw _ hb]
      exact h.2.2.2
  case frame =>
    refine ⟨fun x hx hx' hm => ?_, ⟨.write r :: new, by rw [List.cons_append, ← htrace]; rfl⟩⟩
    rw [Mine, not_or] at hm
    have hmx : s.marked x = true := by simpa using hm.2
    have hne : x ≠ r := by
      rintro rfl
      rw [World.not_marked_of_free hfree] at hmx
      cases hmx
    simp only [INODE_START] at hx
    rw [hmw x hx', World.write_blocks_of_ne hne]
    exact ⟨hmark x (.inl hmx), hblocks x (.inr (by omega))⟩
  case trace =>
    rw [List.cons_append, ← htrace]
    rfl
  case inode => simp [hno]
  case writes =>
    intro x hx
    rcases List.mem_cons.mp hx with hx | hx
    · cases hx
      right
      omega
    · exact .inl (hw x hx)
  case zero =>
    rw [World.write_blocks_of_ne (by omega)]
    exact hblocks 0 (.inl (by omega))
  case only =>
    intro x hx hm
    rw [hmw x (Nat.lt_trans hx (by decide))] at hm
    rw [hi, hi11]
    exact honly x hx hm

/-- **`alloc_inode`** makes a new inode if it gets a block for it; if not, it writes the
inode over block 0, and returns a number that is none. -/
theorem wp_alloc_inode {type : UInt32} {s : World} {E : Fault → World → Prop}
    {Q : UInt32 → World → Prop} (hok : ∀ i s' new, NewInode type s i s' new → Q i s')
    (hfail : (∀ j, INODE_START ≤ j → j < DATA_START → ¬ s.free j) →
      ∀ s', Frame s ∅ s' → (∃ new, s'.trace = .write 0 :: new ++ .noSpace .INODE :: s.trace) →
        Q 4294967285 s') :
    Prog.wp (alloc_inode type) Q E s := by
  rw [alloc_inode, Prog.wp_bind]
  refine wp_alloc_block (fun r hr hr' hfree hfirst => ?_) (fun hnone => ?_)
  · have hal := first_aligned hr hfree hfirst
    simp only [Region.start, Region.stop] at hr hr' hal
    have hrn : r < BLOCK_NUM := Nat.lt_trans hr' (by decide)
    have hb2 : 2 ≤ BBLOCK r ∧ BBLOCK r < 10 := ⟨by simp [BBLOCK], World.BBLOCK_lt hrn⟩
    have hblocks : ∀ x, x < 2 ∨ 10 ≤ x → (s.mark r).blocks x = s.blocks x :=
      fun x hx => World.write_blocks_of_ne (by omega)
    simp only [Prog.wp_bind]
    refine wp_alloc_block (fun r' hd hd' hfree' _ => ?_) (fun hnone => ?_)
    · simp only [Region.start, Region.stop] at hd hd'
      have hb2' : 2 ≤ BBLOCK r' ∧ BBLOCK r' < 10 := ⟨by simp [BBLOCK], World.BBLOCK_lt hd'⟩
      have hfree₁ := World.not_marked_of_free hfree'
      rw [World.marked_mark, Bool.or_eq_false_iff] at hfree₁
      simp only [time, uninitialized, Prog.wp_step]
      refine wp_write_block (by rwa [toNat_ofNat hrn])
        (hok _ _ [.write r, .write (BBLOCK r'), .write (BBLOCK r)] ?_)
      rw [toNat_ofNat hrn]
      refine .of_write (b := .ofNat r') hr hr' hal hfree (fun x hx => ?_) (fun x hx hm => ?_)
        (fun x hx => ?_) ?_ ?_ rfl (by simp) (fun x hx => ?_) rfl rfl rfl
      · show ((s.mark r).mark r').marked x = true
        rw [World.marked_mark, World.marked_mark]
        rcases hx with hx | rfl
        · simp [hx]
        · simp
      · have hm : ((s.mark r).mark r').marked x = true := hm
        have hne : x ≠ r' := by omega
        rw [World.marked_mark, World.marked_mark] at hm
        simpa [hne] using hm
      · show ((s.mark r).mark r').blocks x = _
        rw [← hblocks x hx]
        exact World.write_blocks_of_ne (by omega)
      · rwa [toNat_ofNat hd']
      · rw [toNat_ofNat hd']
        refine .inr ⟨by simp, hd, hfree₁.1, ?_⟩
        show ((s.mark r).mark r').marked r' = true
        rw [World.marked_mark]
        simp
      · simp only [List.mem_cons, Event.write.injEq, List.not_mem_nil, or_false] at hx
        omega
    · simp only [time, uninitialized, Prog.wp_step]
      refine wp_write_block (by rwa [toNat_ofNat hrn])
        (hok _ _ [.write r, .noSpace .DATA, .write (BBLOCK r)] ?_)
      rw [toNat_ofNat hrn]
      refine .of_write (b := 0) hr hr' hal hfree (fun x hx => ?_)
        (fun x _ hm => ?_) hblocks (by decide)
        (.inl ⟨List.mem_cons_self .., hnone⟩) rfl (by simp) (fun x hx => ?_) rfl rfl rfl
      · show (s.mark r).marked x = true
        rw [World.marked_mark]
        rcases hx with hx | rfl
        · simp [hx]
        · simp
      · have hm : (s.mark r).marked x = true := hm
        rw [World.marked_mark] at hm
        simpa using hm
      · simp only [List.mem_cons, reduceCtorEq, Event.write.injEq, List.not_mem_nil, or_false,
          false_or] at hx
        omega
  · have h0 : (0 : UInt32).toNat < BLOCK_NUM := by decide
    simp only [Prog.wp_bind]
    have hframe : Frame s ∅ (s.noSpace .INODE) := (Frame.refl s ∅).congr rfl (List.suffix_cons ..)
    refine wp_alloc_block (fun r' _ hr' _ _ => ?_) (fun _ => ?_)
    · simp only [time, uninitialized, Prog.wp_step]
      refine wp_write_block h0 (hfail hnone _ ?_ ⟨[.write (BBLOCK r')], rfl⟩)
      exact Frame.zero ((hframe.mark hr').congr rfl List.suffix_rfl)
    · simp only [time, uninitialized, Prog.wp_step]
      refine wp_write_block h0 (hfail hnone _ ?_ ⟨[.noSpace .DATA], rfl⟩)
      exact Frame.zero (hframe.congr rfl (List.suffix_cons (Event.noSpace .DATA) _))

end Yfs.Storage
