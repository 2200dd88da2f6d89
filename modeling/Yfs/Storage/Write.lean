import Mathlib.Order.Interval.Finset.Nat
import Yfs.Storage.Files

/-!
# Writing a file

`write_file` walks along the chain of a file with one inode in memory, which is written to
the disk only when the walk leaves it. `Writing` is the invariant of that walk: the inodes
on the disk, with the one in memory in the place of its old version, have the shape of a
file whose first blocks are written already. What is behind the end is given back
(`shrinkLoop`), and then the new size is written.
-/

namespace Yfs.Storage

open Extent (Bytes Attr toInt T_FILE)

/-! ## Growing a shape -/

section Grow

variable {V V' : UInt32 → Inode} {f : Shape} {i b : UInt32}

/-- One more inode. -/
def Shape.addNode (f : Shape) (i : UInt32) : Shape :=
  { f with node := Function.update f.node f.len i, len := f.len + 1 }

/-- One more data block. -/
def Shape.addData (f : Shape) (b : UInt32) : Shape :=
  { f with data := Function.update f.data f.n b, n := f.n + 1 }

theorem Shape.addNode_node {k : ℕ} (hk : k < f.len) : (f.addNode i).node k = f.node k :=
  Function.update_of_ne hk.ne ..

@[simp] theorem Shape.addNode_node_self : (f.addNode i).node f.len = i := Function.update_self ..

theorem Shape.addData_data {m : ℕ} (hm : m < f.n) : (f.addData b).data m = f.data m :=
  Function.update_of_ne hm.ne ..

@[simp] theorem Shape.addData_data_self : (f.addData b).data f.n = b := Function.update_self ..

theorem Shape.own_addNode {x : ℕ} (hx : x ∈ (f.addNode i).own) : x ∈ f.own ∨ x = i.toNat + 11 := by
  rcases hx with ⟨j, hj, rfl⟩ | ⟨m, hm, h0, rfl⟩
  · by_cases hjl : j = f.len
    · subst hjl
      exact .inr (by rw [addNode_node_self])
    · have hj' : j < f.len := by
        have : j < f.len + 1 := hj
        omega
      rw [addNode_node hj']
      exact .inl (node_own hj')
  · exact .inl (data_own hm h0)

theorem Shape.own_addNode_of_mem {x : ℕ} (hx : x ∈ f.own) : x ∈ (f.addNode i).own := by
  rcases hx with ⟨j, hj, rfl⟩ | ⟨m, hm, h0, rfl⟩
  · exact .inl ⟨j, Nat.lt_succ_of_lt hj, by rw [addNode_node hj]⟩
  · exact .inr ⟨m, hm, h0, rfl⟩

theorem Shape.own_addData_of_mem {x : ℕ} (hx : x ∈ f.own) : x ∈ (f.addData b).own := by
  rcases hx with ⟨j, hj, rfl⟩ | ⟨m, hm, h0, rfl⟩
  · exact .inl ⟨j, hj, rfl⟩
  · exact .inr ⟨m, Nat.lt_succ_of_lt hm, by rwa [addData_data hm], by rw [addData_data hm]⟩

theorem Shape.own_addData {x : ℕ} (hx : x ∈ (f.addData b).own) :
    x ∈ f.own ∨ b ≠ 0 ∧ x = b.toNat := by
  rcases hx with ⟨j, hj, rfl⟩ | ⟨m, hm, h0, rfl⟩
  · exact .inl (node_own hj)
  · by_cases hmn : m = f.n
    · subst hmn
      rw [addData_data_self] at h0 ⊢
      exact .inr ⟨h0, rfl⟩
    · have hm' : m < f.n := by
        have : m < f.n + 1 := hm
        omega
      rw [addData_data hm'] at h0 ⊢
      exact .inl (data_own hm' h0)

/-- A full chain gets a new inode, linked from its last one. -/
theorem Rep.addNode (h : Rep V f) (hi : 0 < i.toNat ∧ i.toNat < INODE_NUM)
    (hnew : ∀ k < f.len, f.node k ≠ i)
    (hV : ∀ k < f.len, V' (f.node k) =
      if k + 1 = f.len then (V (f.node k)).setBlock NDIRECT i else V (f.node k))
    (hsize : (V' i).size = 0) : Rep V' (f.addNode i) := by
  -- what the new view has at the old inodes
  have hblocks : ∀ k < f.len, ∀ x < NDIRECT,
      (V' (f.node k)).blocks x = (V (f.node k)).blocks x := by
    intro k hk x hx
    rw [hV k hk]
    split
    case isTrue => rw [Inode.blocks_setBlock le_rfl, if_neg hx.ne]
    case isFalse => rfl
  have hlen : (f.addNode i).len = f.len + 1 := rfl
  have hpos := h.pos
  have henough := h.enough
  simp only [NDIRECT] at henough
  refine ⟨by omega, ?_, ?_, ?_, ?_, ?_, h.data_lt, h.data_inj, ?_, ?_⟩
  · show f.n ≤ NDIRECT * (f.len + 1)
    simp only [NDIRECT]
    omega
  · intro k hk
    by_cases hkl : k = f.len
    · rw [hkl, Shape.addNode_node_self]
      exact hi
    · rw [Shape.addNode_node (by omega)]
      exact h.node_lt k (by omega)
  · intro k hk l hl he
    by_cases hkl : k = f.len <;> by_cases hll : l = f.len
    · rw [hkl, hll]
    · rw [hkl, Shape.addNode_node_self, Shape.addNode_node (by omega)] at he
      exact absurd he.symm (hnew l (by omega))
    · rw [hll, Shape.addNode_node_self, Shape.addNode_node (by omega)] at he
      exact absurd he (hnew k (by omega))
    · rw [Shape.addNode_node (by omega), Shape.addNode_node (by omega)] at he
      exact h.node_inj k (by omega) l (by omega) he
  · intro k hk
    rw [Shape.addNode_node (by omega), hV k (by omega)]
    split
    case isTrue hlast =>
      rw [Inode.blocks_setBlock le_rfl, if_pos rfl, hlast, Shape.addNode_node_self]
    case isFalse => rw [Shape.addNode_node (by omega), h.link k (by omega)]
  · intro m hm
    have hm' : m < f.n := hm
    have hk : m / 100 < f.len := by omega
    simp only [NDIRECT]
    rw [Shape.addNode_node hk, hblocks _ hk _ (by simp only [NDIRECT]; omega)]
    exact h.data m hm'
  · intro k hk h0
    by_cases hkl : k = f.len
    · rw [hkl, Shape.addNode_node_self, hsize]
    · rw [Shape.addNode_node (by omega), hV k (by omega)]
      split
      case isTrue => rw [Inode.setBlock_size, h.chained k (by omega) h0]
      case isFalse => exact h.chained k (by omega) h0
  · rw [Shape.addNode_node hpos, hblocks 0 hpos 0 (by decide)]
    exact h.first

/-- A shape with room gets a new data block. -/
theorem Rep.addData (h : Rep V f) (hroom : f.n < NDIRECT * f.len)
    (hb : b = 0 ∨ DATA_START ≤ b.toNat ∧ b.toNat < BLOCK_NUM)
    (hnew : b ≠ 0 → ∀ m < f.n, f.data m ≠ b)
    (hV : ∀ k < f.len, V' (f.node k) =
      if k = f.n / 100 then (V (f.node k)).setBlock (f.n % 100) b else V (f.node k)) :
    Rep V' (f.addData b) := by
  simp only [NDIRECT] at hroom
  have hmod : f.n % 100 < 100 := Nat.mod_lt _ (by decide)
  have hblocks : ∀ k < f.len, ∀ x, k ≠ f.n / 100 ∨ x ≠ f.n % 100 →
      (V' (f.node k)).blocks x = (V (f.node k)).blocks x := by
    intro k hk x hx
    rw [hV k hk]
    split
    case isTrue hkn =>
      rw [Inode.blocks_setBlock (by simp only [NDIRECT]; omega),
        if_neg (hx.resolve_left (not_not.mpr hkn))]
    case isFalse => rfl
  have hn : (f.addData b).n = f.n + 1 := rfl
  refine ⟨h.pos, ?_, h.node_lt, h.node_inj, ?_, ?_, ?_, ?_, ?_, ?_⟩
  · rw [hn]
    simp only [NDIRECT]
    exact hroom
  · intro k hk
    show (V' (f.node k)).blocks NDIRECT = f.node (k + 1)
    rw [hblocks k (by have : k + 1 < f.len := hk; omega) _ (.inr (by simp only [NDIRECT]; omega))]
    exact h.link k hk
  · intro m hm
    rw [hn] at hm
    simp only [NDIRECT]
    show (V' (f.node (m / 100))).blocks (m % 100) = _
    by_cases hmn : m = f.n
    · subst hmn
      rw [hV _ (by omega), if_pos rfl,
        Inode.blocks_setBlock (by simp only [NDIRECT]; omega), if_pos rfl, Shape.addData_data_self]
    · rw [hblocks _ (by omega) _ (by omega), Shape.addData_data (by omega)]
      exact h.data m (by omega)
  · intro m hm
    rw [hn] at hm
    by_cases hmn : m = f.n
    · subst hmn
      rw [Shape.addData_data_self]
      exact hb
    · rw [Shape.addData_data (by omega)]
      exact h.data_lt m (by omega)
  · intro m hm k hk he h0
    rw [hn] at hm hk
    by_cases hmn : m = f.n <;> by_cases hkn : k = f.n
    · rw [hmn, hkn]
    · rw [hmn, Shape.addData_data_self] at he h0
      rw [Shape.addData_data (by omega)] at he
      exact absurd he.symm (hnew h0 k (by omega))
    · rw [hkn, Shape.addData_data_self] at he
      rw [Shape.addData_data (by omega)] at he h0
      exact absurd he (hnew (he ▸ h0) m (by omega))
    · rw [Shape.addData_data (by omega)] at he h0
      rw [Shape.addData_data (by omega)] at he
      exact h.data_inj m (by omega) k (by omega) he h0
  · intro k hk h0
    show (V' (f.node k)).size = 0
    rw [hV k hk]
    split
    case isTrue => rw [Inode.setBlock_size]; exact h.chained k hk h0
    case isFalse => exact h.chained k hk h0
  · show ((V' (f.node 0)).blocks 0).toNat < BLOCK_NUM
    rw [hV 0 h.pos]
    split
    case isTrue =>
      rw [Inode.blocks_setBlock (by simp only [NDIRECT]; omega)]
      split
      case isTrue =>
        rcases hb with rfl | hb
        · decide
        · exact hb.2
      case isFalse => exact h.first
    case isFalse => exact h.first

end Grow

/-! ## The walk -/

/-- The inodes, with the one in memory. -/
def World.over (s : World) (p : Cursor) : UInt32 → Inode :=
  Function.update s.inode p.last_inum p.file_inode

theorem World.over_self {s : World} {p : Cursor} : s.over p p.last_inum = p.file_inode :=
  Function.update_self ..

theorem World.over_of_ne {s : World} {p : Cursor} {i : UInt32} (h : i ≠ p.last_inum) :
    s.over p i = s.inode i :=
  Function.update_of_ne h ..

/-- The inodes of a file of this size. -/
def inodesFor (size : ℕ) : ℕ := max 1 (((size + 511) / 512 + 99) / 100)

/-- The inodes that can still be made. The scan finds the first block of the region, or the
first of a byte of the bitmap. -/
def World.inodesLeft (s : World) : ℕ :=
  ((Finset.Ico INODE_START DATA_START).filter fun r =>
    s.free r ∧ (r = INODE_START ∨ r % 8 = 0)).card

/-- What a call of `write_file` works on: the world it started in, the file it is on, with
its blocks, size and type, if it has all its blocks, and the bytes to write. -/
structure Job where
  s₀ : World
  own : Set ℕ
  inum : UInt32
  size : ℕ
  type : Int16
  whole : Prop
  buf : Bytes

/-- The first `k` blocks are written and the file has at least `t` blocks; the walk is at
inode `j` of its chain. -/
structure Writing (w : Job) (k t : ℕ) (p : Cursor) (f : Shape) (j : ℕ) (s : World) : Prop where
  rep : Rep (s.over p) f
  marked : ∀ b ∈ f.own, s.marked b = true
  root : f.node 0 = w.inum
  size : (s.over p w.inum).size.toNat = w.size
  type : (s.over p w.inum).type = w.type
  n : f.n = max t ((w.size + 511) / 512)
  len : f.len = max (j + 1) ((f.n + 99) / 100)
  node : f.node j = p.last_inum
  pos : k = 100 * j + p.real_block_num
  real : p.real_block_num ≤ 100
  content : ∀ m < k, f.data m ≠ 0 →
    s.blocks (f.data m).toNat = .ofBytes (w.buf.drop (512 * m))
  frame : Frame w.s₀ w.own s
  mine : ∀ b ∈ f.own, Mine w.s₀ w.own b
  full : ¬ s.full → w.whole → ∀ m < f.n, f.data m ≠ 0
  fresh : ∀ b < DATA_START, s.marked b = true → w.s₀.marked b = true ∨ b ∈ f.own
  old : ∀ l < inodesFor w.size, w.s₀.marked ((f.node l).toNat + 11) = true

/-- If a block could not be had in this call, then block 0 was written instead. -/
def Noted (w : Job) (s : World) : Prop := s.full → w.s₀.full ∨ Event.write 0 ∈ s.trace

theorem Noted.write {w : Job} {s : World} {r : ℕ} {buf : Block} (h : Noted w s) :
    Noted w (s.write r buf) :=
  fun hf => (h (World.full_write.mp hf)).imp id (List.mem_cons_of_mem _)

/-- It will be: there is no data block to be had. -/
def Full (s : World) : Prop := ∀ j, DATA_START ≤ j → j < BLOCK_NUM → ¬ s.free j

section Walk

variable {w : Job} {k t j : ℕ} {p : Cursor} {f : Shape} {s : World} {E : Fault → World → Prop}

theorem Writing.j_lt (h : Writing w k t p f j s) : j < f.len := by
  have := h.len
  omega

theorem Writing.inodesFor_le (h : Writing w k t p f j s) : inodesFor w.size ≤ f.len := by
  have hn := h.n
  have hlen := h.len
  unfold inodesFor
  omega

/-- When no inode can be made any more, all that could be made have been made for this
file. -/
theorem Writing.inodesLeft_le (h : Writing w k t p f j s)
    (hnone : ∀ r, INODE_START ≤ r → r < DATA_START → ¬ s.free r) :
    w.s₀.inodesLeft ≤ f.len - inodesFor w.size := by
  have hsub : (Finset.Ico INODE_START DATA_START).filter (fun r =>
      w.s₀.free r ∧ (r = INODE_START ∨ r % 8 = 0)) ⊆
        (Finset.Ico (inodesFor w.size) f.len).image fun l => (f.node l).toNat + 11 := by
    intro r hr
    simp only [Finset.mem_filter, Finset.mem_Ico] at hr
    obtain ⟨⟨hr, hr'⟩, hfree, hal⟩ := hr
    rw [World.free_iff] at hfree
    -- its byte of the bitmap has a mark now, and that is its own
    have hbit : ∃ b ≤ r, b / 8 = r / 8 ∧ s.marked b = true := by
      by_contra hno
      refine hnone r hr hr' (World.free_iff.mpr fun b hb hd => ?_)
      cases hm : s.marked b with
      | false => rfl
      | true => exact absurd ⟨b, hb, hd, hm⟩ hno
    obtain ⟨b, hb, hd, hm⟩ := hbit
    have hown := (h.fresh b (by omega) hm).resolve_left (by simp [hfree b hb hd])
    have hb' := (h.rep.own_range hown).1
    simp only [INODE_START] at hal hb'
    obtain rfl : b = r := by omega
    rcases hown with ⟨l, hl, he⟩ | ⟨m, hm, h0, he⟩
    · have hl' : inodesFor w.size ≤ l := by
        by_contra hlt
        have hold := h.old l (by omega)
        rw [← he, hfree b le_rfl rfl] at hold
        cases hold
      exact Finset.mem_image.mpr ⟨l, Finset.mem_Ico.mpr ⟨hl', hl⟩, he.symm⟩
    · have := (h.rep.data_lt m hm).resolve_left h0
      omega
  calc w.s₀.inodesLeft ≤ _ := Finset.card_le_card hsub
    _ ≤ (Finset.Ico (inodesFor w.size) f.len).card := Finset.card_image_le
    _ = f.len - inodesFor w.size := Nat.card_Ico ..

/-- On to an inode that is there already. -/
theorem Writing.next (h : Writing w k k p f j s) (hreal : p.real_block_num = 100)
    (hmore : 100 * (j + 1) < f.n) :
    Writing w k k ⟨s.inode (f.node (j + 1)), f.node (j + 1), 0⟩ f (j + 1)
      (s.putInode p.last_inum p.file_inode) := by
  have hlen := h.len
  have hj : j + 1 < f.len := by omega
  have hlast := (h.rep.node_lt j (by omega)).2
  rw [h.node] at hlast
  have hne : f.node (j + 1) ≠ p.last_inum := by
    intro he
    have := h.rep.node_inj (j + 1) hj j (by omega) (he.trans h.node.symm)
    omega
  -- the inode that was in memory is on the disk now
  have hover : (s.putInode p.last_inum p.file_inode).over
      ⟨s.inode (f.node (j + 1)), f.node (j + 1), 0⟩ = s.over p := by
    funext x
    by_cases hx : x = f.node (j + 1)
    · subst hx
      rw [World.over_of_ne hne]
      exact World.over_self
    · rw [World.over_of_ne hx, World.inode_putInode]
      by_cases hxl : x = p.last_inum
      · rw [if_pos hxl, hxl, World.over_self]
      · rw [if_neg hxl, World.over_of_ne hxl]
  have hown : p.last_inum.toNat + 11 ∈ f.own := h.node ▸ Shape.node_own (by omega)
  refine ⟨hover ▸ h.rep, fun b hb => ?_, h.root, hover ▸ h.size, hover ▸ h.type, h.n, ?_, rfl, ?_,
    Nat.zero_le _, fun m hm h0 => ?_, h.frame.putInode (h.mine _ hown), h.mine, fun hfull => ?_,
    fun b hb hm => ?_, h.old⟩
  · rw [World.marked_putInode (h.rep.own_range hb).2]
    exact h.marked b hb
  · rw [hlen]
    omega
  · have := h.pos
    show k = 100 * (j + 1) + 0
    omega
  · have hm' : m < f.n := by
      have := h.n
      omega
    rw [World.putInode_blocks]
    · exact h.content m hm h0
    · rw [← h.node]
      exact (h.rep.node_ne_data (by omega) hm' h0).symm
  · exact h.full (mt World.full_putInode.mpr hfull)
  · rw [World.marked_putInode (Nat.lt_trans hb (by decide))] at hm
    exact h.fresh b hb hm

/-- On to a new inode. -/
theorem Writing.extend {i : UInt32} {s₁ : World} {new : List Event} (h : Writing w k k p f j s)
    (hreal : p.real_block_num = 100) (hend : f.n = k) (hnew : NewInode T_FILE s i s₁ new) :
    Writing w k k ⟨s₁.inode i, i, 0⟩ (f.addNode i) (j + 1)
      (s₁.putInode p.last_inum (p.file_inode.setBlock NDIRECT i)) := by
  have hpos := h.pos
  have hlen : f.len = j + 1 := by
    have := h.len
    omega
  -- the blocks of the file are marked, so they are not the new one, and did not change
  have hkeep : ∀ b ∈ f.own, s₁.marked b = true ∧ s₁.blocks b = s.blocks b := by
    intro b hb
    obtain ⟨hb₁, hb₂⟩ := h.rep.own_range hb
    refine hnew.frame.keep b hb₁ hb₂ ?_
    rintro (hb' | hfree)
    · exact hb'.elim
    · rw [h.marked b hb] at hfree
      cases hfree
  have hinode : ∀ l < f.len, s₁.inode (f.node l) = s.inode (f.node l) := by
    intro l hl
    rw [World.inode, World.inode, (hkeep _ (Shape.node_own hl)).2]
  have hni : ∀ l < f.len, f.node l ≠ i := by
    rintro l hl rfl
    have hm := h.marked _ (Shape.node_own hl)
    rw [hnew.unmarked] at hm
    cases hm
  have hV : ∀ l < f.len, (s₁.putInode p.last_inum (p.file_inode.setBlock NDIRECT i)).over
      ⟨s₁.inode i, i, 0⟩ (f.node l) =
        if l + 1 = f.len then
          (s.over p (f.node l)).setBlock NDIRECT i else s.over p (f.node l) := by
    intro l hl
    rw [World.over_of_ne (hni l hl), World.inode_putInode]
    by_cases hlj : l = j
    · subst hlj
      rw [if_pos h.node, if_pos (by omega), h.node, World.over_self]
    · have hne : f.node l ≠ p.last_inum := by
        intro he
        exact hlj (h.rep.node_inj l hl j (by omega) (he.trans h.node.symm))
      rw [if_neg hne, if_neg (by omega), World.over_of_ne hne, hinode l hl]
  have hhead : ∀ l < f.len, ((s₁.putInode p.last_inum (p.file_inode.setBlock NDIRECT i)).over
      ⟨s₁.inode i, i, 0⟩ (f.node l)).size = (s.over p (f.node l)).size ∧
      ((s₁.putInode p.last_inum (p.file_inode.setBlock NDIRECT i)).over
      ⟨s₁.inode i, i, 0⟩ (f.node l)).type = (s.over p (f.node l)).type := by
    intro l hl
    rw [hV l hl]
    split <;> exact ⟨rfl, rfl⟩
  have hown : p.last_inum.toNat + 11 ∈ f.own := h.node ▸ Shape.node_own (by omega)
  have hroot := hhead 0 (by omega)
  rw [h.root] at hroot
  have hframe : Frame w.s₀ w.own s₁ := h.frame.trans hnew.frame fun _ _ _ hb => hb.elim
  constructor
  case rep =>
    refine h.rep.addNode ⟨hnew.pos, hnew.lt⟩ hni hV ?_
    exact (congrArg Inode.size World.over_self).trans hnew.size
  case marked =>
    intro b hb
    rcases Shape.own_addNode hb with hb | rfl
    · rw [World.marked_putInode (h.rep.own_range hb).2]
      exact (hkeep b hb).1
    · rw [World.marked_putInode]
      · exact hnew.marked
      · have := hnew.lt
        simp only [INODE_NUM, BLOCK_NUM] at this ⊢
        omega
  case root => rw [Shape.addNode_node (by omega), h.root]
  case size => rw [hroot.1, h.size]
  case type => rw [hroot.2, h.type]
  case n => exact h.n
  case len =>
    show f.len + 1 = max (j + 1 + 1) ((f.n + 99) / 100)
    omega
  case node => rw [← hlen, Shape.addNode_node_self]
  case pos =>
    show k = 100 * (j + 1) + 0
    omega
  case real => exact Nat.zero_le _
  case content =>
    intro m hm h0
    have hm' : m < f.n := by omega
    have hb : f.data m ≠ 0 := h0
    show World.blocks _ (f.data m).toNat = _
    rw [World.putInode_blocks, (hkeep _ (Shape.data_own hm' hb)).2]
    · exact h.content m hm h0
    · rw [← h.node]
      exact (h.rep.node_ne_data (by omega) hm' hb).symm
  case frame => exact hframe.putInode (h.mine _ hown)
  case mine =>
    intro b hb
    rcases Shape.own_addNode hb with hb | rfl
    · exact h.mine b hb
    · have hlt := hnew.lt
      have h0 := hnew.pos
      simp only [INODE_NUM] at hlt
      exact h.frame.mine (by simp only [INODE_START]; omega) (by simp only [BLOCK_NUM]; omega)
        hnew.unmarked
  case full =>
    intro hfull
    refine h.full fun hf => hfull ?_
    obtain ⟨type, ht⟩ := hf
    refine ⟨type, ?_⟩
    exact List.mem_cons_of_mem _ (hnew.frame.trace.subset ht)
  case fresh =>
    intro b hb hm
    rw [World.marked_putInode (Nat.lt_trans hb (by decide))] at hm
    rcases hnew.only b hb hm with hm | rfl
    · exact (h.fresh b hb hm).imp id Shape.own_addNode_of_mem
    · exact .inr (.inl ⟨f.len, Nat.lt_succ_self _, by rw [Shape.addNode_node_self]⟩)
  case old =>
    intro l hl
    rw [Shape.addNode_node (Nat.lt_of_lt_of_le hl h.inodesFor_le)]
    exact h.old l hl

/-- There are not enough inodes for what is to be written. -/
def Job.Starved (w : Job) : Prop :=
  w.s₀.inodesLeft < inodesFor w.buf.length - inodesFor w.size

/-- **The first part of the loop**: there is room in the inode in memory. -/
theorem wp_advance (h : Writing w k k p f j s) (hn0 : Noted w s) (hk : 512 * k < w.buf.length)
    {Q : Cursor → World → Prop}
    (hQ : ∀ p' f' j' s', Writing w k k p' f' j' s' → p'.real_block_num < 100 →
      (Noted w s' ∨ (w.size : Int) ≤ k * BLOCK_SIZE ∧ Full s') → Q p' s')
    (hE : ∀ e s', s'.full → Noted w s' → w.Starved → E e s') :
    Prog.wp (advance w.size k p) Q E s := by
  have hn := h.n
  have hpos := h.pos
  have hlen := h.len
  have hlast := h.rep.node_lt j h.j_lt
  rw [h.node] at hlast
  unfold advance
  split
  case isFalse hin =>
    simp only [NDIRECT] at hin
    exact hQ p f j s h (by omega) (.inl hn0)
  case isTrue hend =>
    have hreal : p.real_block_num = 100 := by
      have := h.real
      simp only [NDIRECT] at hend
      omega
    simp only [Prog.wp_bind]
    split
    case isTrue hgrow =>
      have hnk : f.n = k := by
        simp only [BLOCK_SIZE] at hgrow
        omega
      rw [Prog.wp_bind]
      refine wp_alloc_inode (fun i s₁ new hnew => ?_) (fun hnone s₁ hF hnew => ?_)
      · rw [Prog.wp_pure, Inode.blocks_setBlock le_rfl, if_pos rfl]
        refine wp_get_inode hnew.lt (wp_put_inode hlast.2 ?_)
        refine hQ _ _ _ _ (h.extend hreal hnk hnew) (Nat.zero_lt_succ 99) ?_
        rcases hnew.data with ⟨-, hfull⟩ | ⟨hdata, -⟩
        · refine .inr ⟨hgrow, fun x hx hx' => ?_⟩
          rw [World.free, World.putInode_blocks]
          · exact hfull x hx hx'
          · have := World.BBLOCK_lt hx'
            omega
        · refine .inl fun hf => ?_
          obtain ⟨type, ht⟩ := World.full_putInode.mp hf
          rw [hnew.trace, List.mem_append] at ht
          have hs : s.full := by
            rcases ht with ht | ht
            · cases type
              · exact absurd ht hnew.inode
              · exact absurd ht hdata
            · exact ⟨type, ht⟩
          exact (hn0 hs).imp id fun h0 => List.mem_cons_of_mem _ (hnew.frame.trace.subset h0)
      · -- without an inode the walk ends at a null pointer
        obtain ⟨new, htr⟩ := hnew
        rw [Prog.wp_pure, Inode.blocks_setBlock le_rfl, if_pos rfl, get_inode, if_pos (by decide)]
        have hleft := h.inodesLeft_le hnone
        have hle := h.inodesFor_le
        refine wp_put_inode hlast.2 (hE _ _ ⟨.INODE, ?_⟩ (fun _ => .inr ?_) ?_)
        case refine_3 =>
          have hfor : j + 2 ≤ inodesFor w.buf.length := by
            unfold inodesFor
            omega
          unfold Job.Starved
          omega
        all_goals
          refine List.mem_cons_of_mem _ ?_
          rw [htr]
          simp
    case isFalse hin =>
      simp only [BLOCK_SIZE] at hin
      have hmore : 100 * (j + 1) < f.n := by omega
      have hlink := h.rep.link j (by omega)
      rw [h.node, World.over_self] at hlink
      rw [Prog.wp_pure, hlink]
      refine wp_get_inode (h.rep.node_lt (j + 1) (by omega)).2 (wp_put_inode hlast.2 ?_)
      exact hQ _ _ _ _ (h.next hreal hmore) (Nat.zero_lt_succ 99) (.inl hn0.write)

/-- The inode in memory gets a new data block, or a 0. -/
theorem Writing.take {b : UInt32} {s₁ : World} (h : Writing w k k p f j s)
    (hreal : p.real_block_num < 100) (hend : f.n = k)
    (hblocks : ∀ x, 10 ≤ x → s₁.blocks x = s.blocks x)
    (hmark : ∀ x, s.marked x = true → s₁.marked x = true)
    (honly : ∀ x < DATA_START, s₁.marked x = true → s.marked x = true)
    (hframe : Frame w.s₀ w.own s₁)
    (hb : b ≠ 0 → DATA_START ≤ b.toNat ∧ b.toNat < BLOCK_NUM ∧ s.marked b.toNat = false ∧
      s₁.marked b.toNat = true)
    (hfull : ¬ s₁.full → ¬ s.full ∧ b ≠ 0) :
    Writing w k (k + 1) { p with file_inode := p.file_inode.setBlock p.real_block_num b }
      (f.addData b) j s₁ := by
  have hpos := h.pos
  have hlen := h.len
  have hn := h.n
  have hdiv : f.n / 100 = j ∧ f.n % 100 = p.real_block_num := by omega
  have hinode : ∀ i, s₁.inode i = s.inode i := by
    intro i
    rw [World.inode, World.inode, hblocks _ (by omega)]
  have hV : ∀ l < f.len, s₁.over { p with file_inode := p.file_inode.setBlock p.real_block_num b }
      (f.node l) = if l = f.n / 100 then (s.over p (f.node l)).setBlock (f.n % 100) b
        else s.over p (f.node l) := by
    intro l hl
    rw [hdiv.1, hdiv.2]
    by_cases hlj : l = j
    · subst hlj
      rw [if_pos rfl, h.node, World.over_self]
      exact congrArg (Inode.setBlock · p.real_block_num b) World.over_self.symm
    · have hne : f.node l ≠ p.last_inum := by
        intro he
        exact hlj (h.rep.node_inj l hl j h.j_lt (he.trans h.node.symm))
      rw [if_neg hlj, World.over_of_ne hne, ← hinode]
      exact Function.update_of_ne hne ..
  have hhead : (s₁.over { p with file_inode := p.file_inode.setBlock p.real_block_num b }
      w.inum).size = (s.over p w.inum).size ∧
      (s₁.over { p with file_inode := p.file_inode.setBlock p.real_block_num b }
      w.inum).type = (s.over p w.inum).type := by
    rw [← h.root, hV 0 h.rep.pos]
    split <;> exact ⟨rfl, rfl⟩
  constructor
  case rep =>
    refine h.rep.addData ?_ ?_ (fun h0 m hm he => ?_) hV
    · simp only [NDIRECT]
      omega
    · by_cases h0 : b = 0
      · exact .inl h0
      · exact .inr ⟨(hb h0).1, (hb h0).2.1⟩
    · have hm := h.marked _ (Shape.data_own hm (he ▸ h0))
      rw [he, (hb h0).2.2.1] at hm
      cases hm
  case marked =>
    intro x hx
    rcases Shape.own_addData hx with hx | ⟨h0, rfl⟩
    · exact hmark x (h.marked x hx)
    · exact (hb h0).2.2.2
  case root => exact h.root
  case size => rw [hhead.1, h.size]
  case type => rw [hhead.2, h.type]
  case n =>
    show f.n + 1 = max (k + 1) ((w.size + 511) / 512)
    omega
  case len =>
    show f.len = max (j + 1) ((f.n + 1 + 99) / 100)
    omega
  case node => exact h.node
  case pos => exact h.pos
  case real => exact h.real
  case content =>
    intro m hm h0
    rw [Shape.addData_data (by omega)] at h0 ⊢
    have hlt := (h.rep.data_lt m (by omega)).resolve_left h0
    simp only [DATA_START, INODE_START, INODE_NUM] at hlt
    rw [hblocks _ (by omega)]
    exact h.content m hm h0
  case frame => exact hframe
  case mine =>
    intro x hx
    rcases Shape.own_addData hx with hx | ⟨h0, rfl⟩
    · exact h.mine x hx
    · obtain ⟨h₁, h₂, h₃, -⟩ := hb h0
      exact h.frame.mine (Nat.le_trans (by decide) h₁) h₂ h₃
  case full =>
    intro hnf hwhole m hm
    obtain ⟨hnf', h0⟩ := hfull hnf
    have hm' : m < f.n + 1 := hm
    by_cases hmn : m = f.n
    · rw [hmn, Shape.addData_data_self]
      exact h0
    · rw [Shape.addData_data (by omega)]
      exact h.full hnf' hwhole m (by omega)
  case fresh =>
    intro x hx hm
    exact (h.fresh x hx (honly x hx hm)).imp id Shape.own_addData_of_mem
  case old => exact h.old

/-- Block `k` is written. -/
theorem Writing.write (h : Writing w k (k + 1) p f j s) (hreal : p.real_block_num < 100) :
    p.file_inode.blocks p.real_block_num = f.data k ∧ (f.data k).toNat < BLOCK_NUM ∧
      Writing w (k + 1) (k + 1) { p with real_block_num := p.real_block_num + 1 } f j
        (s.write (f.data k).toNat (.ofBytes (w.buf.drop (512 * k)))) := by
  have hpos := h.pos
  have hn := h.n
  have hk : k < f.n := by omega
  have hdiv : k / 100 = j ∧ k % 100 = p.real_block_num := by omega
  have hd := h.rep.data k hk
  simp only [NDIRECT, hdiv.1, hdiv.2] at hd
  rw [h.node, World.over_self] at hd
  -- block 0, or one of the data blocks
  have hrange : (f.data k).toNat = 0 ∧ f.data k = 0 ∨
      f.data k ≠ 0 ∧ 4108 ≤ (f.data k).toNat ∧ (f.data k).toNat < BLOCK_NUM := by
    by_cases h0 : f.data k = 0
    · exact .inl ⟨by rw [h0]; rfl, h0⟩
    · exact .inr ⟨h0, (h.rep.data_lt k hk).resolve_left h0⟩
  have hbitmap : (f.data k).toNat < 2 ∨ 10 ≤ (f.data k).toNat := by omega
  have hinode : ∀ l < f.len, (s.write (f.data k).toNat (.ofBytes (w.buf.drop (512 * k)))).inode
      (f.node l) = s.inode (f.node l) := by
    intro l hl
    rw [World.inode, World.write_blocks_of_ne, World.inode]
    rcases hrange with ⟨h0, -⟩ | ⟨h0, -⟩
    · omega
    · exact h.rep.node_ne_data hl hk h0
  have hV : ∀ l < f.len, (s.write (f.data k).toNat (.ofBytes (w.buf.drop (512 * k)))).over
      { p with real_block_num := p.real_block_num + 1 } (f.node l) = s.over p (f.node l) := by
    intro l hl
    by_cases hx : f.node l = p.last_inum
    · rw [hx]
      exact (Function.update_self ..).trans World.over_self.symm
    · rw [World.over_of_ne hx, ← hinode l hl]
      exact Function.update_of_ne hx ..
  have hroot := hV 0 h.rep.pos
  rw [h.root] at hroot
  refine ⟨hd, ?_, h.rep.congr_inodes hV, fun b hb => ?_, h.root, hroot ▸ h.size,
    hroot ▸ h.type, h.n, h.len,
    h.node, ?_, hreal, fun m hm h0 => ?_, h.frame.write hbitmap ?_, h.mine, fun hfull => ?_,
    fun b hb hm => ?_, h.old⟩
  · rcases hrange with ⟨h0, -⟩ | ⟨-, -, hlt⟩
    · rw [h0]
      decide
    · exact hlt
  · rw [World.marked_write (h.rep.own_range hb).2 hbitmap]
    exact h.marked b hb
  · show k + 1 = 100 * j + (p.real_block_num + 1)
    omega
  · by_cases hmk : m = k
    · rw [hmk, World.write_blocks_self]
    · rw [World.write_blocks_of_ne]
      · exact h.content m (by omega) h0
      · intro he
        exact hmk (h.rep.data_inj m (by omega) k hk (UInt32.toNat_inj.mp he) h0)
  · rcases hrange with ⟨h0, -⟩ | ⟨h0, -⟩
    · exact .inl (by rw [h0]; decide)
    · exact .inr (h.mine _ (Shape.data_own hk h0))
  · exact h.full (mt World.full_write.mpr hfull)
  · rw [World.marked_write (Nat.lt_trans hb (by decide)) hbitmap] at hm
    exact h.fresh b hb hm

/-- **The loop of `write_file`.** -/
theorem wp_writeLoop {k j : ℕ} {p : Cursor} {f : Shape} {s : World} (h : Writing w k k p f j s)
    (hn0 : Noted w s) (hj : j = 0 ∨ 0 < p.real_block_num) (hk : 512 * k < w.buf.length + 512)
    {Q : ℕ × Cursor → World → Prop}
    (hQ : ∀ k' p' f' j' s', Writing w k' k' p' f' j' s' → Noted w s' →
      (j' = 0 ∨ 0 < p'.real_block_num) → k' = (w.buf.length + 511) / 512 → Q (k', p') s')
    (hE : ∀ e s', s'.full → Noted w s' → w.Starved → E e s') :
    Prog.wp (writeLoop w.size ((w.buf.length : Int) - 512 * k)
      (w.buf.drop (512 * k)) k p) Q E s := by
  induction hm : w.buf.length - 512 * k using Nat.strong_induction_on generalizing k j p f s with
  | _ m ih =>
  unfold writeLoop
  split
  case isFalse hdone => exact hQ k p f j s h hn0 hj (by omega)
  case isTrue hmore =>
    rw [Prog.wp_bind]
    refine wp_advance h hn0 (by omega) (fun p₁ f₁ j₁ s₁ h₁ hreal hor => ?_) hE
    rw [Prog.wp_bind]
    have hn := h₁.n
    -- the block is there, or is taken now
    refine Prog.wp_mono
      (Q := fun ino s' => ∃ f', Writing w k (k + 1) { p₁ with file_inode := ino } f'
      j₁ s' ∧ (Noted w s' ∨ f'.data k = 0)) ?_ ?_ fun _ _ he => he
    · split
      case isTrue hgrow =>
        simp only [BLOCK_SIZE] at hgrow
        have hend : f₁.n = k := by omega
        rw [Prog.wp_bind]
        refine wp_alloc_block (fun r hr hr' hfree _ => ?_) fun _ => ?_
        · simp only [Region.start, Region.stop] at hr hr'
          have hne : UInt32.ofNat r ≠ 0 := by
            intro he
            have := congrArg UInt32.toNat he
            rw [toNat_ofNat hr', UInt32.toNat_zero] at this
            simp only [DATA_START, INODE_START, INODE_NUM] at hr
            omega
          refine ⟨f₁.addData (.ofNat r), h₁.take hreal hend (fun x hx => World.mark_blocks hr' hx)
            (fun x hx => ?_) (fun x hx hm => ?_) (h₁.frame.mark hr') (fun _ => ?_)
            fun hfull => ⟨?_, hne⟩, ?_⟩
          · rw [World.marked_mark, hx, Bool.true_or]
          · have hne' : x ≠ r := by omega
            rw [World.marked_mark] at hm
            simpa [hne'] using hm
          · rw [toNat_ofNat hr', World.marked_mark]
            exact ⟨hr, hr', World.not_marked_of_free hfree, by simp⟩
          · exact mt World.full_write.mpr hfull
          · exact .inl (hor.resolve_right fun hf => hf.2 r hr hr' hfree).write
        · refine ⟨f₁.addData 0,
            h₁.take hreal hend (fun x _ => rfl) (fun x hx => hx) (fun x _ hm => hm)
            (h₁.frame.congr rfl (List.suffix_cons ..))
              (fun h0 => absurd rfl h0) fun hfull => ?_, ?_⟩
          · exact absurd ⟨.DATA, List.mem_cons_self ..⟩ hfull
          · exact .inr (hend ▸ Shape.addData_data_self)
      case isFalse hin =>
        have hnoted := hor.resolve_right fun hf => hin hf.1
        simp only [BLOCK_SIZE] at hin
        exact ⟨f₁, { h₁ with n := by omega }, .inl hnoted⟩
    · rintro ino s₂ ⟨f₂, h₂, hnoted⟩
      obtain ⟨hb, hlt, h₃⟩ := h₂.write hreal
      have hchunk : (if (w.buf.length : Int) - 512 * k < BLOCK_SIZE then
          (w.buf.drop (512 * k)).take ((w.buf.length : Int) - 512 * k).toNat
          else w.buf.drop (512 * k)) = w.buf.drop (512 * k) := by
        split
        case isTrue =>
          apply List.take_of_length_le
          rw [List.length_drop]
          omega
        case isFalse => rfl
      rw [Prog.wp_bind, hb, hchunk]
      refine wp_write_block hlt ?_
      have hlost : (w.buf.length : Int) - 512 * k - BLOCK_SIZE =
          (w.buf.length : Int) - 512 * (k + 1 : ℕ) := by
        simp only [BLOCK_SIZE]
        omega
      have hdrop : (w.buf.drop (512 * k)).drop BLOCK_SIZE = w.buf.drop (512 * (k + 1)) := by
        rw [List.drop_drop, Nat.mul_succ]
        rfl
      rw [hlost, hdrop]
      refine ih _ (by omega) h₃ ?_ (.inr (Nat.succ_pos _)) (by omega) rfl
      rcases hnoted with hnoted | hzero
      · exact hnoted.write
      · rw [hzero]
        exact fun _ => .inr (List.mem_cons_self ..)

end Walk

/-! ## The end of the file -/

/-- The shape without what is behind data block `k` and inode `j`. -/
def Shape.cut (f : Shape) (k j : ℕ) : Shape := { f with n := k, len := j + 1 }

theorem Shape.own_cut {f : Shape} {k j b : ℕ} (hk : k ≤ f.n) (hj : j < f.len)
    (hb : b ∈ (f.cut k j).own) : b ∈ f.own := by
  rcases hb with ⟨l, hl, rfl⟩ | ⟨m, hm, h0, rfl⟩
  · have hl' : l < j + 1 := hl
    exact node_own (by omega)
  · have hm' : m < k := hm
    exact data_own (by omega) h0

theorem Rep.cut {V : UInt32 → Inode} {f : Shape} {k j : ℕ} (h : Rep V f) (hk : k ≤ f.n)
    (hj : j < f.len) (hkj : k ≤ NDIRECT * (j + 1)) : Rep V (f.cut k j) where
  pos := Nat.succ_pos j
  enough := hkj
  node_lt l hl := h.node_lt l (by have : l < j + 1 := hl; omega)
  node_inj l hl m hm := by
    have hl' : l < j + 1 := hl
    have hm' : m < j + 1 := hm
    exact h.node_inj l (by omega) m (by omega)
  link l hl := h.link l (by have : l + 1 < j + 1 := hl; omega)
  data m hm := h.data m (by have : m < k := hm; omega)
  data_lt m hm := h.data_lt m (by have : m < k := hm; omega)
  data_inj m hm l hl := by
    have hm' : m < k := hm
    have hl' : l < k := hl
    exact h.data_inj m (by omega) l (by omega)
  chained l hl := h.chained l (by have : l < j + 1 := hl; omega)
  first := h.first

/-- All of `g` is written, and what was behind it is given back. -/
structure Cut (w : Job) (p : Cursor) (g : Shape) (s : World) : Prop where
  rep : Rep (s.over p) g
  marked : ∀ b ∈ g.own, s.marked b = true
  type : (s.over p w.inum).type = w.type
  content : ∀ m < g.n, g.data m ≠ 0 → s.blocks (g.data m).toNat = .ofBytes (w.buf.drop (512 * m))
  frame : Frame w.s₀ w.own s
  full : ¬ s.full → w.whole → ∀ m < g.n, g.data m ≠ 0
  noted : Noted w s

section Shrink

variable {w : Job} {k j : ℕ} {p : Cursor} {f g : Shape} {s : World} {E : Fault → World → Prop}

theorem Cut.unmark {b : ℕ} (h : Cut w p g s) (hb : b < BLOCK_NUM) (hm : Mine w.s₀ w.own b)
    (hg : b ∉ g.own) : Cut w p g (s.unmark b) := by
  have hover : (s.unmark b).over p = s.over p := by
    have hinode : (s.unmark b).inode = s.inode := funext fun i => World.inode_unmark hb
    rw [World.over, World.over, hinode]
  refine ⟨hover ▸ h.rep, fun x hx => ?_, hover ▸ h.type, fun m hm h0 => ?_, h.frame.unmark hb hm,
    fun hfull => h.full (mt World.full_write.mpr hfull), h.noted.write⟩
  · have hne : x ≠ b := fun e => hg (e ▸ hx)
    rw [World.marked_unmark, h.marked x hx]
    simp [hne]
  · have hlt := (h.rep.data_lt m hm).resolve_left h0
    simp only [DATA_START, INODE_START, INODE_NUM] at hlt
    rw [World.unmark_blocks hb (by omega)]
    exact h.content m hm h0

theorem Cut.putInode {i : UInt32} {ino : Inode} (h : Cut w p g s)
    (hm : Mine w.s₀ w.own (i.toNat + 11))
    (hg : i.toNat + 11 ∉ g.own) (hroot : g.node 0 = w.inum) : Cut w p g (s.putInode i ino) := by
  have hV : ∀ l < g.len, (s.putInode i ino).over p (g.node l) = s.over p (g.node l) := by
    intro l hl
    have hne : g.node l ≠ i := by
      rintro rfl
      exact hg (Shape.node_own hl)
    by_cases hlast : g.node l = p.last_inum
    · rw [hlast, World.over_self, World.over_self]
    · rw [World.over_of_ne hlast, World.over_of_ne hlast, World.inode_putInode, if_neg hne]
  refine ⟨h.rep.congr_inodes hV, fun x hx => ?_, ?_, fun m hm h0 => ?_, h.frame.putInode hm,
    fun hfull => h.full (mt World.full_putInode.mpr hfull), h.noted.write⟩
  · rw [World.marked_putInode (h.rep.own_range hx).2]
    exact h.marked x hx
  · rw [← hroot, hV 0 h.rep.pos, hroot]
    exact h.type
  · rw [World.putInode_blocks]
    · exact h.content m hm h0
    · intro he
      exact hg (he ▸ Shape.data_own hm h0)

theorem Cut.move (h : Cut w p g s) (r : ℕ) : Cut w { p with real_block_num := r } g s :=
  ⟨h.rep, h.marked, h.type, h.content, h.frame, h.full, h.noted⟩

/-- **The loop that gives back what is behind the end.** -/
theorem wp_shrinkLoop {x N : ℕ} {p : Cursor} {s : World} (h : Cut w p g s)
    (hroot : g.node 0 = w.inum)
    (hN : N = (w.size + 511) / 512) (hpos : x = 100 * j + p.real_block_num)
    (hreal : p.real_block_num ≤ 100)
    (hdata : ∀ y, p.real_block_num ≤ y → y < 100 → 100 * j + y < N → p.file_inode.blocks y ≠ 0 →
      Mine w.s₀ w.own (p.file_inode.blocks y).toNat ∧ (p.file_inode.blocks y).toNat ∉ g.own)
    (hnext : 100 * (j + 1) < N → 0 < (p.file_inode.blocks NDIRECT).toNat ∧
      (p.file_inode.blocks NDIRECT).toNat < INODE_NUM ∧
      (s.inode (p.file_inode.blocks NDIRECT)).size = 0 ∧
      Mine w.s₀ w.own ((p.file_inode.blocks NDIRECT).toNat + 11) ∧
      (p.file_inode.blocks NDIRECT).toNat + 11 ∉ g.own)
    {Q : Unit → World → Prop}
    (hQ : ∀ s', Cut w p g s' → Q () s') : Prog.wp (shrinkLoop w.size x p) Q E s := by
  induction hm : N - x generalizing x p s with
  | zero =>
    unfold shrinkLoop
    rw [dif_neg (by simp only [BLOCK_SIZE]; omega)]
    exact hQ s h
  | succ n ih =>
    unfold shrinkLoop
    rw [dif_pos (by simp only [BLOCK_SIZE]; omega)]
    split
    case isTrue hend =>
      simp only [NDIRECT] at hend
      obtain ⟨h0, hlt, hsize, hmine, hg⟩ := hnext (by omega)
      have hb : (p.file_inode.blocks NDIRECT).toNat + 11 < BLOCK_NUM := by
        simp only [BLOCK_NUM, INODE_NUM] at hlt ⊢
        omega
      refine wp_free_inode_empty hlt h0 hsize ?_
      exact hQ _ ((h.putInode hmine hg hroot).unmark hb hmine hg)
    case isFalse hin =>
      simp only [NDIRECT] at hin
      -- after the block is given back, or if it was none
      have hrec : ∀ s', Cut w p g s' → (∀ i, s'.inode i = s.inode i) →
          Prog.wp (shrinkLoop w.size (x + 1) { p with real_block_num := p.real_block_num + 1 })
            Q E s' := by
        intro s' h' hinode
        refine ih (h'.move _) (by show x + 1 = 100 * j + (p.real_block_num + 1); omega)
          (by show p.real_block_num + 1 ≤ 100; omega)
          (fun y hy => hdata y (Nat.le_of_succ_le hy)) (fun hn => ?_)
            (fun s'' h'' => hQ s'' (h''.move _))
          (by omega)
        rw [hinode]
        exact hnext hn
      rw [Prog.wp_bind]
      refine wp_free_block (fun hin' hlt => ?_) fun _ => hrec s h fun _ => rfl
      have h0 : p.file_inode.blocks p.real_block_num ≠ 0 := by
        intro he
        rw [he] at hin'
        exact absurd hin' (by decide)
      obtain ⟨hmine, hg⟩ := hdata p.real_block_num le_rfl (by omega) (by omega) h0
      exact hrec _ (h.unmark hlt hmine hg) fun i => World.inode_unmark hlt

end Shrink

/-! ## The call -/

/-- Chunks of 512 bytes, one after the other, are the text they are of. -/
theorem front_take {g : Shape} {s : World} {buf : Bytes} {k : ℕ} (hk : 512 * k < buf.length + 512)
    (h : ∀ m < k, s.blocks (g.data m).toNat = .ofBytes (buf.drop (512 * m))) :
    (g.front s k).take buf.length = buf.take (512 * k) := by
  induction k with
  | zero => simp [Shape.front]
  | succ k ih =>
    have ih := ih (by omega) fun m hm => h m (by omega)
    have hlen : (g.front s k).length = 512 * k := Shape.length_front k
    have hfront : g.front s k = buf.take (512 * k) := by
      rw [← ih, List.take_of_length_le (by omega)]
    have hchunk : (Block.ofBytes (buf.drop (512 * k))).bytes.take (buf.length - 512 * k) =
        (buf.drop (512 * k)).take 512 := by
      have hdrop : (buf.drop (512 * k)).length = buf.length - 512 * k := List.length_drop ..
      by_cases hle : buf.length - 512 * k ≤ 512
      · rw [Block.take_bytes_ofBytes hle (by omega), List.take_of_length_le (by omega),
          List.take_of_length_le (by omega)]
      · have hall := Block.length_bytes (.ofBytes (buf.drop (512 * k)))
        simp only [BLOCK_SIZE] at hall
        have htake : (Block.ofBytes (buf.drop (512 * k))).bytes.take 512 =
            (buf.drop (512 * k)).take 512 := Block.take_bytes_ofBytes le_rfl (by omega)
        rw [List.take_of_length_le (by omega), ← htake, List.take_of_length_le (by omega)]
    rw [Shape.front_succ, h k (by omega), List.take_append, hlen, ih, hchunk, Nat.mul_succ,
      List.take_add]

/-- What `write_file` has done: the file has the new content, and no other is touched. A
block that could not be had is an entry 0. -/
structure Written (s : World) (f : Shape) (buf : Bytes) (g : Shape) (s' : World) : Prop where
  stored : Stored s' g
  root : g.node 0 = f.node 0
  size : (s'.inode (g.node 0)).size.toNat = buf.length
  type : (s'.inode (g.node 0)).type = (s.inode (f.node 0)).type
  nonzero : ¬ s'.full → (∀ m < f.n, f.data m ≠ 0) → ∀ m < g.n, g.data m ≠ 0
  content : (∀ m < g.n, g.data m ≠ 0) → g.content s' = buf
  frame : Frame s f.own s'
  mine : ∀ b ∈ g.own, Mine s f.own b
  noted : s'.full → s.full ∨ Event.write 0 ∈ s'.trace

/-- The clock does not matter. -/
theorem Written.clock {s s' : World} {f g : Shape} {buf : Bytes} (h : Written s f buf g s')
    (clock : Stream' UInt32) : Written s f buf g { s' with clock } :=
  ⟨⟨h.stored.rep, h.stored.marked, h.stored.size, h.stored.blocks, h.stored.len⟩, h.root, h.size,
    h.type, h.nonzero, h.content, h.frame.congr rfl List.suffix_rfl, h.mine, h.noted⟩

section Call

variable {s : World} {f : Shape} {E : Fault → World → Prop} {buf : Bytes}

/-- The job of a call. -/
def job (s : World) (f : Shape) (buf : Bytes) : Job where
  s₀ := s
  own := f.own
  inum := f.node 0
  size := (s.inode (f.node 0)).size.toNat
  type := (s.inode (f.node 0)).type
  whole := ∀ m < f.n, f.data m ≠ 0
  buf := buf

/-- The walk starts at the first inode. -/
theorem Writing.start (h : Stored s f) :
    Writing (job s f buf) 0 0 ⟨s.inode (f.node 0), f.node 0, 0⟩ f 0 s := by
  have hover : s.over ⟨s.inode (f.node 0), f.node 0, 0⟩ = s.inode := Function.update_eq_self _ _
  have hn := h.blocks
  have hlen := h.len
  simp only [BLOCK_SIZE, NDIRECT] at hn hlen
  refine ⟨by rw [hover]; exact h.rep, h.marked, rfl, by rw [hover]; rfl, by rw [hover]; rfl,
    ?_, ?_, rfl, rfl, Nat.zero_le _, fun m hm => absurd hm (Nat.not_lt_zero m), .refl s f.own,
    fun b hb => .inl hb,
    fun _ hwhole => hwhole, fun b _ hm => .inl hm, fun l hl => h.marked _ (Shape.node_own ?_)⟩
  · show f.n = max 0 (((s.inode (f.node 0)).size.toNat + 511) / 512)
    omega
  · omega
  · rw [hlen, hn]
    exact hl

/-- The end of a call: the inode in memory is written, and then the size. -/
theorem Cut.finish {p : Cursor} {g : Shape} {s' : World} {ctime mtime : UInt32}
    (hc : Cut (job s f buf) p g s') (hroot : g.node 0 = f.node 0) (hbuf : buf.length < 2 ^ 31)
    (hn : g.n = (buf.length + 511) / 512) (hlen : g.len = max 1 ((g.n + 99) / 100))
    (hlast : ∃ l < g.len, g.node l = p.last_inum) (hmine : ∀ b ∈ g.own, Mine s f.own b) :
    Written s f buf g ((s'.putInode p.last_inum p.file_inode).putInode (f.node 0)
      { (s'.putInode p.last_inum p.file_inode).inode (f.node 0) with
        size := .ofInt buf.length, ctime, mtime }) := by
  obtain ⟨last, hlastlt, hlast⟩ := hlast
  have hover : (s'.putInode p.last_inum p.file_inode).inode = s'.over p := by
    funext x
    rw [World.inode_putInode, World.over, Function.update_apply]
  have hrep := hc.rep
  rw [hover]
  -- the two inodes that are written are inodes of the file
  have hnode : ∀ m < g.n, g.data m ≠ 0 → ∀ l < g.len, (g.data m).toNat ≠ (g.node l).toNat + 11 :=
    fun m hm h0 l hl => (hrep.node_ne_data hl hm h0).symm
  have hinode : ∀ x, ((s'.putInode p.last_inum p.file_inode).putInode (f.node 0)
      { s'.over p (f.node 0) with size := .ofInt buf.length, ctime, mtime }).inode x =
        if x = g.node 0 then { s'.over p (f.node 0) with size := .ofInt buf.length, ctime, mtime }
        else s'.over p x := by
    intro x
    rw [World.inode_putInode, hover, hroot]
  have hblocks : ∀ m < g.n, g.data m ≠ 0 →
    ((s'.putInode p.last_inum p.file_inode).putInode (f.node 0)
      { s'.over p (f.node 0) with size := .ofInt buf.length, ctime, mtime }).blocks
        (g.data m).toNat = .ofBytes (buf.drop (512 * m)) := by
    intro m hm h0
    rw [World.putInode_blocks, World.putInode_blocks]
    · exact hc.content m hm h0
    · rw [← hlast]
      exact hnode m hm h0 last hlastlt
    · rw [← hroot]
      exact hnode m hm h0 0 hrep.pos
  have hsize : (UInt32.ofInt buf.length).toNat = buf.length := by
    rw [toNat_ofInt (Int.natCast_nonneg _) (by omega), Int.toNat_natCast]
  have hfull : ∀ ino ino', ¬ ((s'.putInode p.last_inum ino).putInode (f.node 0) ino').full →
      ¬ s'.full :=
    fun ino ino' hnf hf => hnf (World.full_putInode.mpr (World.full_putInode.mpr hf))
  refine ⟨⟨hrep.congr (fun l hl x => ?_) fun l hl hl0 => ?_, fun b hb => ?_, ?_, ?_, ?_⟩,
    hroot, ?_, ?_, fun hnf => hc.full (hfull _ _ hnf), fun h0 => ?_, ?_, hmine,
    hc.noted.write.write⟩
  · rw [hinode]
    split
    case isTrue he => rw [he, hroot]; rfl
    case isFalse => rfl
  · rw [hinode, if_neg]
    intro he
    have := hrep.node_inj l hl 0 hrep.pos he
    omega
  · have hb' := (hrep.own_range hb).2
    rw [World.marked_putInode hb', World.marked_putInode hb']
    exact hc.marked b hb
  · rw [hinode, if_pos rfl]
    show (UInt32.ofInt buf.length).toNat < 2 ^ 31
    rwa [hsize]
  · rw [hinode, if_pos rfl]
    show g.n = ((UInt32.ofInt buf.length).toNat + 511) / BLOCK_SIZE
    rwa [hsize]
  · exact hlen
  · rw [hinode, if_pos rfl]
    exact hsize
  · rw [hinode, if_pos rfl]
    exact hc.type
  · rw [Shape.content, hinode, if_pos rfl]
    show List.take (UInt32.ofInt buf.length).toNat (g.front _ g.n) = buf
    rw [hsize, front_take (by omega) fun m hm => hblocks m hm (h0 m hm)]
    exact List.take_of_length_le (by omega)
  · refine (hc.frame.putInode ?_).putInode ?_
    · rw [← hlast]
      exact hmine _ (Shape.node_own hlastlt)
    · rw [← hroot]
      exact hmine _ (Shape.node_own hrep.pos)

/-- **`write_file`.** -/
theorem wp_write_file (h : Stored s f) (hbuf : buf.length < 2 ^ 31) {Q : Unit → World → Prop}
    (hQ : ∀ g s', Written s f buf g s' → Q () s')
    (hE : ∀ e s', s'.full → s.full ∨ Event.write 0 ∈ s'.trace → (job s f buf).Starved → E e s') :
    Prog.wp (write_file (f.node 0) buf buf.length) Q E s := by
  have hlt := (h.rep.node_lt 0 h.rep.pos).2
  simp only [write_file, Prog.wp_bind]
  refine wp_get_inode hlt ?_
  rw [wp_deref, h.toInt_size]
  refine wp_writeLoop (w := job s f buf) (k := 0) (Writing.start h)
    (fun hf => .inl hf) (.inl rfl) ?_
    ?_ fun e s' hf hn hno => hE e s' hf (hn hf) hno
  · show 512 * 0 < buf.length + 512
    omega
  · intro k p f' j s₁ hw hnoted hj hk
    have hk : k = (buf.length + 511) / 512 := hk
    have hn : f'.n = max k (((s.inode (f.node 0)).size.toNat + 511) / 512) := hw.n
    have hlen := hw.len
    have hpos := hw.pos
    have hreal := hw.real
    have hlast := hw.rep.node_lt j hw.j_lt
    rw [hw.node] at hlast
    have hover : s₁.over p (f'.node j) = p.file_inode := hw.node ▸ World.over_self
    have hown : ∀ b ∈ (f'.cut k j).own, b ∈ f'.own := fun b => Shape.own_cut (by omega) hw.j_lt
    have hcut : Cut (job s f buf) p (f'.cut k j) s₁ :=
      ⟨hw.rep.cut (by omega) hw.j_lt (by simp only [NDIRECT]; omega),
        fun b hb => hw.marked b (hown b hb), hw.type, hw.content, hw.frame, fun hfull h0 m hm =>
          hw.full hfull h0 m (Nat.lt_of_lt_of_le hm (by
          show k ≤ f'.n
          omega)), hnoted⟩
    refine wp_shrinkLoop (j := j) hcut hw.root rfl hpos hreal (fun y hy hy' hyN hy0 => ?_)
      (fun hN => ?_) fun s₂ hcut₂ => ?_
    · -- a data block behind the end is none of those before it
      have hm : 100 * j + y < f'.n := Nat.lt_of_lt_of_le hyN (hn ▸ Nat.le_max_right ..)
      have hd := hw.rep.data (100 * j + y) hm
      have hdiv : (100 * j + y) / 100 = j ∧ (100 * j + y) % 100 = y := by omega
      simp only [NDIRECT, hdiv.1, hdiv.2] at hd
      rw [hover] at hd
      rw [hd] at hy0 ⊢
      refine ⟨hw.mine _ (Shape.data_own hm hy0), ?_⟩
      rintro (⟨l, hl, he⟩ | ⟨m, hm', h0', he⟩)
      · have hl' : l < j + 1 := hl
        exact hw.rep.node_ne_data (by omega) hm hy0 he.symm
      · have hm'' : m < k := hm'
        have := hw.rep.data_inj _ hm m (by omega) (UInt32.toNat_inj.mp he) hy0
        omega
    · -- and the next inode is none of those before it
      have hN' : 100 * (j + 1) < f'.n := Nat.lt_of_lt_of_le hN (hn ▸ Nat.le_max_right ..)
      have hj' : j + 1 < f'.len := by omega
      have hne : f'.node (j + 1) ≠ p.last_inum := by
        intro he
        have := hw.rep.node_inj (j + 1) hj' j hw.j_lt (he.trans hw.node.symm)
        omega
      have hlink := hw.rep.link j hj'
      have hchain := hw.rep.chained (j + 1) hj' (Nat.succ_pos j)
      obtain ⟨hn0, hnlt⟩ := hw.rep.node_lt (j + 1) hj'
      rw [World.over_of_ne hne] at hchain
      rw [hover] at hlink
      rw [hlink]
      refine ⟨hn0, hnlt, hchain, hw.mine _ (Shape.node_own hj'), ?_⟩
      rintro (⟨l, hl, he⟩ | ⟨m, hm', h0', he⟩)
      · have hl' : l < j + 1 := hl
        have := hw.rep.node_inj (j + 1) hj' l (by omega) (UInt32.toNat_inj.mp (by
          have he' : (f'.node (j + 1)).toNat + 11 = (f'.node l).toNat + 11 := he
          omega))
        omega
      · have hm'' : m < k := hm'
        exact hw.rep.node_ne_data hj' (by omega) h0' he
    · refine wp_put_inode hlast.2 (wp_get_inode hlt ?_)
      rw [wp_deref]
      refine wp_put_inode hlt (hQ (f'.cut k j) _ (Written.clock (hcut₂.finish hw.root hbuf hk ?_
        ⟨j, Nat.lt_succ_self j, hw.node⟩ fun b hb => hw.mine b (hown b hb)) _))
      show j + 1 = max 1 ((k + 99) / 100)
      omega

end Call

end Yfs.Storage
