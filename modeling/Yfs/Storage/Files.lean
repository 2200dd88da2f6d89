import Mathlib.Data.List.Basic
import Mathlib.Data.Set.Insert
import Yfs.Storage.Frame

/-!
# Files on the disk

A file is a chain of inodes with their data blocks. `Shape` says which blocks these are,
`Rep` that the inodes point at them, and `Stored` that all this is on the disk and marked in
the bitmap. An entry 0 among the data blocks stands for a block that could not be had.

`read_file` returns the content of a stored file (`wp_read_file`), and `remove_file` touches
no other file (`wp_remove_file`).
-/

namespace Yfs.Storage

open Extent (Bytes Attr toInt)

/-- The inodes of a file, `len` in number, and its data blocks, `n` in number. -/
structure Shape where
  node : ℕ → UInt32
  len : ℕ
  data : ℕ → UInt32
  n : ℕ

namespace Shape

/-- The blocks of a file. -/
def own (f : Shape) : Set ℕ :=
  { b | (∃ j < f.len, b = (f.node j).toNat + 11) ∨
    ∃ m < f.n, f.data m ≠ 0 ∧ b = (f.data m).toNat }

variable {f : Shape}

theorem node_own {j : ℕ} (hj : j < f.len) : (f.node j).toNat + 11 ∈ f.own := .inl ⟨j, hj, rfl⟩

theorem data_own {m : ℕ} (hm : m < f.n) (h0 : f.data m ≠ 0) : (f.data m).toNat ∈ f.own :=
  .inr ⟨m, hm, h0, rfl⟩

end Shape

/-- The inodes `V` have the shape `f`. -/
structure Rep (V : UInt32 → Inode) (f : Shape) : Prop where
  pos : 0 < f.len
  enough : f.n ≤ NDIRECT * f.len
  node_lt : ∀ j < f.len, 0 < (f.node j).toNat ∧ (f.node j).toNat < INODE_NUM
  node_inj : ∀ j < f.len, ∀ k < f.len, f.node j = f.node k → j = k
  link : ∀ j, j + 1 < f.len → (V (f.node j)).blocks NDIRECT = f.node (j + 1)
  data : ∀ m < f.n, (V (f.node (m / NDIRECT))).blocks (m % NDIRECT) = f.data m
  data_lt : ∀ m < f.n, f.data m = 0 ∨
    DATA_START ≤ (f.data m).toNat ∧ (f.data m).toNat < BLOCK_NUM
  data_inj : ∀ m < f.n, ∀ k < f.n, f.data m = f.data k → f.data m ≠ 0 → m = k
  chained : ∀ j < f.len, 0 < j → (V (f.node j)).size = 0
  first : ((V (f.node 0)).blocks 0).toNat < BLOCK_NUM

/-- A file on the disk. -/
structure Stored (s : World) (f : Shape) : Prop where
  rep : Rep s.inode f
  marked : ∀ b ∈ f.own, s.marked b = true
  size : (s.inode (f.node 0)).size.toNat < 2 ^ 31
  blocks : f.n = ((s.inode (f.node 0)).size.toNat + 511) / BLOCK_SIZE
  len : f.len = max 1 ((f.n + 99) / NDIRECT)

/-- The content of a file. -/
def Shape.content (f : Shape) (s : World) : Bytes :=
  ((List.range f.n).flatMap fun m => (s.blocks (f.data m).toNat).bytes).take
    (s.inode (f.node 0)).size.toNat

section

variable {V V' : UInt32 → Inode} {f : Shape} {s s₀ s' : World} {O : Set ℕ}

/-- Only the pointers count, and the sizes of the inodes behind the first. -/
theorem Rep.congr (h : Rep V f)
    (hV : ∀ j < f.len, ∀ x, (V' (f.node j)).blocks x = (V (f.node j)).blocks x)
    (hs : ∀ j < f.len, 0 < j → (V' (f.node j)).size = (V (f.node j)).size) : Rep V' f where
  pos := h.pos
  enough := h.enough
  node_lt := h.node_lt
  node_inj := h.node_inj
  link j hj := by rw [hV j (by omega), h.link j hj]
  data m hm := by
    have := h.enough
    simp only [NDIRECT] at this ⊢
    rw [hV (m / 100) (by omega)]
    exact h.data m hm
  data_lt := h.data_lt
  data_inj := h.data_inj
  chained j hj h0 := by rw [hs j hj h0, h.chained j hj h0]
  first := by rw [hV 0 h.pos]; exact h.first

theorem Rep.congr_inodes (h : Rep V f)
    (hV : ∀ j < f.len, V' (f.node j) = V (f.node j)) : Rep V' f :=
  h.congr (fun j hj _ => by rw [hV j hj]) fun j hj _ => by rw [hV j hj]

/-- The blocks of a file are behind the bitmap. -/
theorem Rep.own_range (h : Rep V f) {b : ℕ} (hb : b ∈ f.own) : INODE_START ≤ b ∧ b < BLOCK_NUM := by
  simp only [INODE_START, BLOCK_NUM]
  rcases hb with ⟨j, hj, rfl⟩ | ⟨m, hm, h0, rfl⟩
  · have := h.node_lt j hj
    simp only [INODE_NUM] at this
    omega
  · have := (h.data_lt m hm).resolve_left h0
    simp only [DATA_START, INODE_START, INODE_NUM, BLOCK_NUM] at this
    omega

/-- Inodes and data blocks are different blocks. -/
theorem Rep.node_ne_data (h : Rep V f) {j m : ℕ} (hj : j < f.len) (hm : m < f.n)
    (h0 : f.data m ≠ 0) : (f.node j).toNat + 11 ≠ (f.data m).toNat := by
  have hn := h.node_lt j hj
  have hd := (h.data_lt m hm).resolve_left h0
  simp only [DATA_START, INODE_START, INODE_NUM] at hn hd
  omega

/-- The size as an `int`. -/
theorem Stored.toInt_size (h : Stored s f) :
    toInt (s.inode (f.node 0)).size.toNat = ((s.inode (f.node 0)).size.toNat : Int) := by
  rw [toInt]
  exact Int32.toInt_ofNat_of_lt h.size

/-- **A frame keeps every file that is not its own.** -/
theorem Stored.frame (h : Stored s f) (hF : Frame s O s') (hO : ∀ b ∈ f.own, b ∉ O) :
    Stored s' f ∧ (∀ b ∈ f.own, s'.blocks b = s.blocks b) := by
  have hsame : ∀ b ∈ f.own, s'.marked b = true ∧ s'.blocks b = s.blocks b := by
    intro b hb
    obtain ⟨hb₁, hb₂⟩ := h.rep.own_range hb
    refine hF.keep b hb₁ hb₂ ?_
    rintro (hbO | hfree)
    · exact hO b hb hbO
    · rw [h.marked b hb] at hfree
      cases hfree
  have hino : ∀ j < f.len, s'.inode (f.node j) = s.inode (f.node j) := by
    intro j hj
    rw [World.inode, World.inode, (hsame _ (Shape.node_own hj)).2]
  refine ⟨⟨h.rep.congr_inodes hino, fun b hb => (hsame b hb).1, ?_, ?_, h.len⟩,
    fun b hb => (hsame b hb).2⟩
  · rw [hino 0 h.rep.pos]
    exact h.size
  · rw [hino 0 h.rep.pos]
    exact h.blocks

/-- It keeps the content too, unless that is in block 0. -/
theorem Stored.content_frame (h : Stored s f) (hF : Frame s O s') (hO : ∀ b ∈ f.own, b ∉ O)
    (h0 : s'.blocks 0 = s.blocks 0 ∨ ∀ m < f.n, f.data m ≠ 0) : f.content s' = f.content s := by
  obtain ⟨-, hsame⟩ := h.frame hF hO
  have hino : s'.inode (f.node 0) = s.inode (f.node 0) := by
    rw [World.inode, World.inode, hsame _ (Shape.node_own h.rep.pos)]
  have hdata : ∀ m ∈ List.range f.n,
      (s'.blocks (f.data m).toNat).bytes = (s.blocks (f.data m).toNat).bytes := by
    intro m hm
    have hm := List.mem_range.mp hm
    by_cases hd : f.data m = 0
    · rcases h0 with h0 | h0
      · rw [hd, UInt32.toNat_zero, h0]
      · exact absurd hd (h0 m hm)
    · rw [hsame _ (Shape.data_own hm hd)]
  unfold Shape.content
  rw [hino, List.flatMap_congr hdata]

end

/-! ## Reading -/

section Read

variable {f : Shape} {s : World} {E : Fault → World → Prop}

/-- The first data blocks of a file. -/
def Shape.front (f : Shape) (s : World) (k : ℕ) : Bytes :=
  (List.range k).flatMap fun m => (s.blocks (f.data m).toNat).bytes

theorem Shape.length_front (k : ℕ) : (f.front s k).length = BLOCK_SIZE * k := by
  induction k with
  | zero => rfl
  | succ k ih =>
    have hs : f.front s (k + 1) = f.front s k ++ (s.blocks (f.data k).toNat).bytes := by
      simp [Shape.front, List.range_succ]
    rw [hs, List.length_append, ih, Block.length_bytes, Nat.mul_succ]

theorem Shape.front_succ (k : ℕ) :
    f.front s (k + 1) = f.front s k ++ (s.blocks (f.data k).toNat).bytes := by
  simp [Shape.front, List.range_succ]

/-- A data block is on the disk. -/
theorem Rep.data_on_disk {V : UInt32 → Inode} (h : Rep V f) {m : ℕ} (hm : m < f.n) :
    (f.data m).toNat < BLOCK_NUM := by
  rcases h.data_lt m hm with h0 | ⟨-, hlt⟩
  · rw [h0]
    decide
  · exact hlt

theorem wp_readLoop (h : Stored s f) (cur : ℕ) {j idx : ℕ} {Q : Bytes → World → Prop}
    (hcur : cur = NDIRECT * j + idx) (hidx : idx ≤ NDIRECT) (hj : j < f.len)
    (hlt : cur < max 1 f.n) (hQ : Q (f.content s) s) :
    Prog.wp (readLoop (toInt (s.inode (f.node 0)).size.toNat) cur idx (s.inode (f.node j))
      (f.front s cur)) Q E s := by
  have hsize := h.toInt_size
  have hn := h.blocks
  generalize hsz : (s.inode (f.node 0)).size.toNat = size at hsize hn ⊢
  simp only [NDIRECT, BLOCK_SIZE] at hcur hidx hn
  unfold readLoop
  rw [Prog.wp_bind]
  -- first to the inode that has the block
  refine Prog.wp_mono (Q := fun r s' => s = s' ∧ ∃ j, r.1 = s.inode (f.node j) ∧
    cur = 100 * j + r.2 ∧ r.2 < 100 ∧ j < f.len) ?_ ?_ fun _ _ hE => hE
  · split
    case isTrue hend =>
      simp only [NDIRECT] at hend
      obtain rfl : idx = 100 := by omega
      have henough := h.rep.enough
      simp only [NDIRECT] at henough
      rw [h.rep.link j (by omega)]
      simp only [Prog.wp_bind]
      refine wp_get_inode (h.rep.node_lt (j + 1) (by omega)).2 ?_
      exact ⟨rfl, j + 1, rfl, by omega, by omega, by omega⟩
    case isFalse hin =>
      simp only [NDIRECT] at hin
      exact ⟨rfl, j, rfl, hcur, by omega, hj⟩
  · rintro ⟨_, idx⟩ _ ⟨rfl, j, rfl, hcur, hidx, hj⟩
    simp only at hcur hidx
    have hm : cur / 100 = j ∧ cur % 100 = idx := by omega
    -- an empty file has a first block too
    have hblock : ((s.inode (f.node j)).blocks idx).toNat < BLOCK_NUM ∧
        (cur < f.n → (s.inode (f.node j)).blocks idx = f.data cur) := by
      by_cases hc : cur < f.n
      · have hd := h.rep.data cur hc
        simp only [NDIRECT, hm.1, hm.2] at hd
        exact ⟨hd ▸ h.rep.data_on_disk hc, fun _ => hd⟩
      · obtain rfl : j = 0 := by omega
        obtain rfl : idx = 0 := by omega
        exact ⟨h.rep.first, fun h => absurd h hc⟩
    rw [Prog.wp_bind]
    refine wp_read_block hblock.1 ?_
    simp only [hsize, BLOCK_SIZE]
    split
    case isTrue hlast =>
      rw [if_neg (by omega)]
      show Q _ s
      have hcontent : f.content s = f.front s cur ++
          (s.blocks ((s.inode (f.node j)).blocks idx).toNat).bytes.take (size - cur * 512) := by
        have hfront : f.content s = (f.front s f.n).take size := by rw [← hsz]; rfl
        rw [hfront]
        by_cases hc : cur < f.n
        · have hnc : f.n = cur + 1 := by omega
          have hlen : (f.front s cur).length = 512 * cur := Shape.length_front cur
          rw [hblock.2 hc, hnc, Shape.front_succ, List.take_append, hlen,
            List.take_of_length_le (by omega), Nat.mul_comm 512 cur]
        · have h0 : f.n = 0 ∧ cur = 0 ∧ size = 0 := by omega
          simp [h0.1, h0.2.1, h0.2.2, Shape.front]
      have hnat : ((size : Int) - cur * (512 : ℕ)).toNat = size - cur * 512 := by omega
      rw [hnat, ← hcontent]
      exact hQ
    case isFalse hmore =>
      have hc : cur < f.n := by omega
      rw [hblock.2 hc, ← Shape.front_succ, ← hsize, ← hsz]
      exact wp_readLoop h _ (by simp only [NDIRECT]; omega) (by simp only [NDIRECT]; omega) hj
        (by omega) hQ
termination_by f.n - cur

/-- **`read_file` returns the content of a file**, and changes nothing but its `atime`. -/
theorem wp_read_file (h : Stored s f) {Q : Bytes → World → Prop}
    (hQ : Q (f.content s) ({ s with clock := s.clock.tail }.putInode (f.node 0)
      { s.inode (f.node 0) with atime := s.clock.head })) :
    Prog.wp (read_file (f.node 0)) Q E s := by
  have hlt := (h.rep.node_lt 0 h.rep.pos).2
  have hlen : 0 < f.len := h.rep.pos
  simp only [read_file, Prog.wp_bind]
  refine wp_get_inode hlt ?_
  rw [wp_deref]
  refine wp_readLoop h 0 (j := 0) rfl (Nat.zero_le _) hlen (by omega) ?_
  refine wp_get_inode hlt ?_
  rw [wp_deref]
  refine wp_put_inode hlt ?_
  exact hQ

end Read

/-! ## Removing -/

section Remove

variable {f : Shape} {s s₀ : World} {E : Fault → World → Prop} {O : Set ℕ}

/-- A size as an `unsigned int`. -/
theorem toNat_ofInt {size : Int} (h0 : 0 ≤ size) (h : size < 2 ^ 31) :
    (UInt32.ofInt size).toNat = size.toNat := by
  have hmod : size % 2 ^ 32 = size := by omega
  have hn : size.toNat < 2 ^ 32 := by omega
  rw [UInt32.ofInt, hmod]
  exact UInt32.toNat_ofNat_of_lt' hn

/-- The first part of `free_inode`, up to the loop. -/
theorem wp_freeInode {depth : ℕ} {i : UInt32} {Q : Unit → World → Prop} (hlt : i.toNat < INODE_NUM)
    (hpos : 0 < i.toNat)
    (h : Prog.wp (freeLoop (freeInode depth) { s.inode i with type := 0 } 0
        (toInt (s.inode i).size.toNat)) Q E
      ((s.putInode i { s.inode i with type := 0 }).unmark (i.toNat + 11))) :
    Prog.wp (freeInode (depth + 1) i) Q E s := by
  have hb := IBLOCK_toNat hlt
  rw [freeInode, Prog.wp_bind]
  refine wp_get_inode hlt ?_
  simp only [Prog.wp_bind, wp_deref]
  refine wp_put_inode hlt (wp_free_block (fun _ _ => ?_) (fun hout => ?_))
  · rw [hb]
    exact h
  · exfalso
    simp only [hb, INODE_START, BLOCK_NUM, INODE_NUM] at hlt hout
    omega

/-- An inode of size 0 is given back with nothing else. -/
theorem wp_free_inode_empty {i : UInt32} {Q : Unit → World → Prop} (hlt : i.toNat < INODE_NUM)
    (hpos : 0 < i.toNat) (hsize : (s.inode i).size = 0)
    (hQ : Q () ((s.putInode i { s.inode i with type := 0 }).unmark (i.toNat + 11))) :
    Prog.wp (free_inode i) Q E s := by
  refine wp_freeInode hlt hpos ?_
  rw [hsize]
  unfold freeLoop
  exact hQ

/-- What `free_inode` has still to do, when it comes to inode `j` of the chain. -/
structure Freeing (s₀ : World) (f : Shape) (j : ℕ) (s : World) : Prop where
  lt : j < f.len
  frame : Frame s₀ f.own s
  blocks : ∀ k, j ≤ k → k < f.len → ∀ x,
    (s.inode (f.node k)).blocks x = (s₀.inode (f.node k)).blocks x
  size : (s.inode (f.node j)).size.toNat < 2 ^ 31
  rest : ((s.inode (f.node j)).size.toNat + 511) / BLOCK_SIZE = f.n - NDIRECT * j

theorem Frame.free {i : UInt32} (h : Frame s₀ O s) (hm : i ≠ 0 → Mine s₀ O i.toNat)
    {Q : Unit → World → Prop} (hQ : ∀ s', Frame s₀ O s' → (∀ k, s'.inode k = s.inode k) → Q () s') :
    Prog.wp (free_block i) Q E s := by
  refine wp_free_block (fun hin hlt => ?_) fun _ => hQ s h fun _ => rfl
  refine hQ _ (h.unmark hlt (hm ?_)) fun k => World.inode_unmark hlt
  rintro rfl
  exact absurd hin (by decide)

/-- The loop of `free_inode`, from block `x` of inode `j` on; `next` is the next inode's
turn. -/
theorem wp_freeLoop {s : World} {next : UInt32 → Code Unit} {inode : Inode} {j x : ℕ} {size : Int}
    {Q : Unit → World → Prop} (hrep : Rep s₀.inode f) (hj : j < f.len) (hF : Frame s₀ f.own s)
    (hblocks : ∀ k, j < k → k < f.len → ∀ x,
      (s.inode (f.node k)).blocks x = (s₀.inode (f.node k)).blocks x)
    (hinode : ∀ x, inode.blocks x = (s₀.inode (f.node j)).blocks x)
    (hsize : size < 2 ^ 31) (hrest : (size + 511) / 512 = (f.n : Int) - 100 * j - x) (hx : x ≤ 100)
    (hnext : ∀ s', Freeing s₀ f (j + 1) s' → Prog.wp (next (f.node (j + 1))) Q E s')
    (hQ : ∀ s', Frame s₀ f.own s' → Q () s') :
    Prog.wp (freeLoop next inode x size) Q E s := by
  have henough := hrep.enough
  simp only [NDIRECT] at henough
  unfold freeLoop
  split
  case isFalse => exact hQ s hF
  case isTrue hpos =>
    split
    case isTrue hend =>
      -- the next inode gets the size that is left
      simp only [NDIRECT] at hend
      have hj' : j + 1 < f.len := by omega
      obtain ⟨hn0, hn⟩ := hrep.node_lt (j + 1) hj'
      rw [hinode, hrep.link j hj']
      simp only [Prog.wp_bind]
      refine wp_get_inode hn ?_
      rw [wp_deref]
      have hino : (s.putInode (f.node (j + 1)) { s.inode (f.node (j + 1)) with size := .ofInt size
          }).inode (f.node (j + 1)) = { s.inode (f.node (j + 1)) with size := .ofInt size } := by
        rw [World.inode_putInode, if_pos rfl]
      refine wp_put_inode hn (hnext _ ⟨hj', hF.putInode (.inl (Shape.node_own hj')), ?_, ?_, ?_⟩)
      · intro k hk hk' x
        rw [World.inode_putInode]
        split
        case isTrue he =>
          obtain rfl := hrep.node_inj k hk' (j + 1) hj' he
          exact hblocks (j + 1) (by omega) hk' x
        case isFalse => exact hblocks k (by omega) hk' x
      · rw [hino, toNat_ofInt hpos.le hsize]
        omega
      · rw [hino, toNat_ofInt hpos.le hsize]
        simp only [BLOCK_SIZE, NDIRECT]
        omega
    case isFalse hin =>
      simp only [NDIRECT] at hin
      have hm : 100 * j + x < f.n := by omega
      have hd := hrep.data (100 * j + x) hm
      have hdiv : (100 * j + x) / 100 = j ∧ (100 * j + x) % 100 = x := by omega
      simp only [NDIRECT, hdiv.1, hdiv.2] at hd
      rw [hinode, hd, Prog.wp_bind]
      refine hF.free (fun h0 => .inl (Shape.data_own hm h0)) fun s' hF' hino => ?_
      refine wp_freeLoop hrep hj hF' (fun k hk hk' x => ?_) hinode ?_ ?_ (by omega) hnext hQ
      · rw [hino]
        exact hblocks k hk hk' x
      · simp only [BLOCK_SIZE]
        omega
      · simp only [BLOCK_SIZE]
        omega
termination_by size.toNat
decreasing_by
  simp only [BLOCK_SIZE]
  omega

/-- `free_inode` on inode `j` of a chain. -/
theorem wp_freeInode_chain {s : World} {depth j : ℕ} {Q : Unit → World → Prop}
    (hrep : Rep s₀.inode f) (h : Freeing s₀ f j s) (hdepth : f.len ≤ j + depth)
    (hQ : ∀ s', Frame s₀ f.own s' → Q () s') : Prog.wp (freeInode depth (f.node j)) Q E s := by
  induction depth generalizing j s with
  | zero =>
    have := h.lt
    omega
  | succ depth ih =>
    obtain ⟨hn0, hn⟩ := hrep.node_lt j h.lt
    have hrange : (f.node j).toNat + 11 < BLOCK_NUM := by
      simp only [BLOCK_NUM, INODE_NUM] at hn ⊢
      omega
    have hown : Mine s₀ f.own ((f.node j).toNat + 11) := .inl (Shape.node_own h.lt)
    have hrest := h.rest
    simp only [BLOCK_SIZE, NDIRECT] at hrest
    have henough := hrep.enough
    simp only [NDIRECT] at henough
    refine wp_freeInode hn hn0 ?_
    rw [toInt, Int32.toInt_ofNat_of_lt h.size]
    by_cases hpos : 0 < (s.inode (f.node j)).size.toNat
    · refine wp_freeLoop hrep h.lt ((h.frame.putInode hown).unmark hrange hown)
        (fun k hk hk' x => ?_)
        (fun x => h.blocks j le_rfl h.lt x) ?_ ?_ (by omega) (fun s' hs' => ih hs' (by omega)) hQ
      · rw [World.inode_unmark hrange, World.inode_putInode, if_neg]
        · exact h.blocks k hk.le hk' x
        · intro he
          have := hrep.node_inj k hk' j h.lt he
          omega
      · have := h.size
        omega
      · omega
    · have hzero : (s.inode (f.node j)).size.toNat = 0 := by omega
      rw [hzero]
      unfold freeLoop
      exact hQ _ ((h.frame.putInode hown).unmark hrange hown)

/-- **`remove_file` touches only the blocks of its file.** -/
theorem wp_remove_file (h : Stored s f) {Q : Unit → World → Prop}
    (hQ : ∀ s', Frame s f.own s' → Q () s') : Prog.wp (remove_file (f.node 0)) Q E s := by
  have hn := h.blocks
  have hlen := h.len
  have hsize := h.size
  simp only [BLOCK_SIZE, NDIRECT] at hn hlen
  unfold remove_file free_inode
  refine wp_freeInode_chain h.rep ⟨h.rep.pos, .refl s f.own, fun _ _ _ _ => rfl, hsize, ?_⟩ ?_ hQ
  · simp only [BLOCK_SIZE, NDIRECT]
    omega
  · simp only [BLOCK_SIZE, NDIRECT]
    omega

end Remove

end Yfs.Storage
