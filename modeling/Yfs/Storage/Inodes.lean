import Yfs.Storage.Blocks

/-!
# Inodes

`inode_manager`. A file is a chain of inodes of 100 data blocks each, linked by the inode
number in `blocks[NDIRECT]`; only the first inode of a chain knows the size of the file. An
inode is the first 424 bytes of its block, and the code goes through these bytes every
time, so the layout of `struct inode` is part of the model (`Inode.ofBlock`,
`Inode.toBlock`).

`int` variables are integers without bound: none of them can overflow, since the disk is
full long before.
-/

namespace Yfs.Storage

open Extent (Bytes Attr toInt T_DIR T_FILE)

@[simp] def NDIRECT : ℕ := 100

/-- `inode_t`. -/
@[ext] structure Inode where
  type : Int16
  size : UInt32
  atime : UInt32
  mtime : UInt32
  ctime : UInt32
  data : Fin (NDIRECT + 1) → UInt32

namespace Inode

/-- `blocks[i]`. -/
def blocks (ino : Inode) (i : ℕ) : UInt32 := if h : i < NDIRECT + 1 then ino.data ⟨i, h⟩ else 0

/-- `blocks[i] = x;` -/
def setBlock (ino : Inode) (i : ℕ) (x : UInt32) : Inode :=
  { ino with data := fun j => if j.val = i then x else ino.data j }

theorem blocks_setBlock {ino : Inode} {i j : ℕ} {x : UInt32} (hi : i ≤ NDIRECT) :
    (ino.setBlock i x).blocks j = if j = i then x else ino.blocks j := by
  unfold blocks setBlock
  split
  case isTrue h => rfl
  case isFalse h => rw [if_neg (by omega)]

@[simp] theorem setBlock_size {ino : Inode} {i : ℕ} {x : UInt32} :
    (ino.setBlock i x).size = ino.size := rfl

/-! ## Layout -/

/-- The 32-bit words behind `type`, in their order. -/
def word (ino : Inode) : ℕ → UInt32
  | 0 => ino.size
  | 1 => ino.atime
  | 2 => ino.mtime
  | 3 => ino.ctime
  | w + 4 => ino.blocks w

/-- Byte `j` of a number, from the lowest. -/
def byteOf (x : ℕ) (j : ℕ) : UInt8 := .ofNat (x / 256 ^ j)

/-- `sizeof(inode_t)`. -/
@[simp] def inodeSize : ℕ := 424

/-- `*(inode_t *)b = ino;`. Two bytes behind `type` are padding. -/
def toBlock (ino : Inode) (b : Block) : Block :=
  .ofFn fun i =>
    if i < 2 then byteOf ino.type.toUInt16.toNat i
    else if 4 ≤ i ∧ i < inodeSize then byteOf (ino.word ((i - 4) / 4)).toNat ((i - 4) % 4)
    else b.byte i

/-- The 32-bit word at `off`. -/
def readWord (b : Block) (off : ℕ) : UInt32 :=
  .ofNat ((b.byte off).toNat + 256 * (b.byte (off + 1)).toNat + 256 ^ 2 * (b.byte (off + 2)).toNat +
    256 ^ 3 * (b.byte (off + 3)).toNat)

/-- `*(inode_t *)b`. -/
def ofBlock (b : Block) : Inode where
  type := (UInt16.ofNat ((b.byte 0).toNat + 256 * (b.byte 1).toNat)).toInt16
  size := readWord b 4
  atime := readWord b 8
  mtime := readWord b 12
  ctime := readWord b 16
  data i := readWord b (20 + 4 * i)

theorem toNat_byteOf (x j : ℕ) : (byteOf x j).toNat = x / 256 ^ j % 256 := by
  simp [byteOf]

theorem readWord_toBlock {ino : Inode} {b : Block} {w : ℕ} (hw : w < 105) :
    readWord (ino.toBlock b) (4 + 4 * w) = ino.word w := by
  have hbyte : ∀ j, j < 4 →
      ((ino.toBlock b).byte (4 + 4 * w + j)).toNat = (ino.word w).toNat / 256 ^ j % 256 := by
    intro j hj
    have hi : 4 + 4 * w + j < BLOCK_SIZE := by
      simp only [BLOCK_SIZE]
      omega
    rw [toBlock, Block.byte_ofFn hi, if_neg (by omega), if_pos (by simp only [inodeSize]; omega),
      toNat_byteOf]
    congr 3
    · congr 2
      omega
    · omega
  have h0 := hbyte 0 (by omega)
  have h1 := hbyte 1 (by omega)
  have h2 := hbyte 2 (by omega)
  have h3 := hbyte 3 (by omega)
  have hx := (ino.word w).toNat_lt
  apply UInt32.toNat_inj.mp
  rw [readWord, h1, h2, h3, UInt32.toNat_ofNat']
  rw [Nat.add_zero] at h0
  rw [h0]
  omega

/-- **An inode is read back as it was written.** -/
@[simp] theorem ofBlock_toBlock (ino : Inode) (b : Block) : ofBlock (ino.toBlock b) = ino := by
  have hbyte : ∀ j, j < 2 →
      ((ino.toBlock b).byte j).toNat = ino.type.toUInt16.toNat / 256 ^ j % 256 := by
    intro j hj
    have hi : j < BLOCK_SIZE := by
      simp only [BLOCK_SIZE]
      omega
    rw [toBlock, Block.byte_ofFn hi, if_pos hj, toNat_byteOf]
  apply Inode.ext
  · have hx := ino.type.toUInt16.toNat_lt
    have htype : UInt16.ofNat
      (((ino.toBlock b).byte 0).toNat + 256 * ((ino.toBlock b).byte 1).toNat) =
        ino.type.toUInt16 := by
      apply UInt16.toNat_inj.mp
      rw [hbyte 0 (by omega), hbyte 1 (by omega), UInt16.toNat_ofNat']
      omega
    show (UInt16.ofNat _).toInt16 = _
    rw [htype]
    rfl
  · exact readWord_toBlock (w := 0) (by omega)
  · exact readWord_toBlock (w := 1) (by omega)
  · exact readWord_toBlock (w := 2) (by omega)
  · exact readWord_toBlock (w := 3) (by omega)
  · funext i
    have hi := i.isLt
    simp only [NDIRECT] at hi
    have hw : 20 + 4 * i.val = 4 + 4 * (i.val + 4) := by omega
    show readWord _ (20 + 4 * i.val) = _
    rw [hw, readWord_toBlock (by omega)]
    exact dif_pos i.isLt

theorem byteOf_readWord {b : Block} {off j : ℕ} (hj : j < 4) :
    byteOf (readWord b off).toNat j = b.byte (off + j) := by
  have h0 := (b.byte off).toNat_lt
  have h1 := (b.byte (off + 1)).toNat_lt
  have h2 := (b.byte (off + 2)).toNat_lt
  have h3 := (b.byte (off + 3)).toNat_lt
  apply UInt8.toNat_inj.mp
  rw [toNat_byteOf, readWord, UInt32.toNat_ofNat']
  match j with
  | 0 =>
    show _ = (b.byte off).toNat
    omega
  | 1 => omega
  | 2 => omega
  | 3 => omega

/-- An inode that is written back with another `atime` changes four bytes. -/
theorem byte_toBlock_atime {b : Block} {atime : UInt32} {i : ℕ} (hi : i < 8 ∨ 12 ≤ i) :
    (toBlock { ofBlock b with atime } b).byte i = b.byte i := by
  by_cases hlt : i < BLOCK_SIZE
  case neg => rw [Block.byte, Block.byte, dif_neg hlt, dif_neg hlt]
  have h0 := (b.byte 0).toNat_lt
  have h1 := (b.byte 1).toNat_lt
  rw [toBlock, Block.byte_ofFn hlt]
  split
  case isTrue h2 =>
    apply UInt8.toNat_inj.mp
    show (byteOf (UInt16.ofNat ((b.byte 0).toNat + 256 * (b.byte 1).toNat)).toNat i).toNat = _
    rw [toNat_byteOf, UInt16.toNat_ofNat']
    obtain rfl | rfl : i = 0 ∨ i = 1 := by omega
    · omega
    · omega
  case isFalse h2 =>
    split
    case isFalse => rfl
    case isTrue h4 =>
      obtain ⟨w, j, hj, rfl⟩ : ∃ w j, j < 4 ∧ i = 4 + 4 * w + j :=
        ⟨(i - 4) / 4, i % 4, by omega, by omega⟩
      simp only [inodeSize] at h4
      have hw : (4 + 4 * w + j - 4) / 4 = w ∧ (4 + 4 * w + j - 4) % 4 = j := by omega
      rw [hw.1, hw.2, ← byteOf_readWord hj]
      congr 2
      rcases w with _ | _ | _ | _ | w
      · rfl
      · omega
      · rfl
      · rfl
      · have hlt : w < NDIRECT + 1 := by
          simp only [NDIRECT]
          omega
        show (ofBlock b).blocks w = _
        rw [blocks, dif_pos hlt]
        show readWord b (20 + 4 * w) = _
        congr 1
        omega

end Inode

/-! ## Functions -/

/-- A pointer is used. -/
def deref {α : Type} : Option α → Code α
  | some a => pure a
  | none => .fail .nullDeref

/-- `inode_manager::alloc_inode`. What is not assigned is what the memory held. -/
def alloc_inode (type : UInt32) : Code UInt32 := do
  let iblock_num ← alloc_block .INODE
  let bblock_num ← alloc_block .DATA
  let now_time ← time
  let memory ← uninitialized
  let tem_inode := ({ Inode.ofBlock memory with
    type := type.toUInt16.toInt16, size := 0, atime := now_time, mtime := now_time,
    ctime := now_time }).setBlock 0 bblock_num
  write_block iblock_num (tem_inode.toBlock memory)
  pure (iblock_num - .ofNat INODE_START + 1)

/-- `inode_manager::get_inode`; `none` is `NULL`. -/
def get_inode (inum : UInt32) : Code (Option Inode) :=
  if INODE_NUM ≤ inum.toNat then pure none
  else do
    let buf ← read_block (IBLOCK inum)
    pure (some (Inode.ofBlock buf))

/-- `inode_manager::put_inode`, of an inode that is not `NULL`. -/
def put_inode (inum : UInt32) (ino : Inode) : Code Unit := do
  let buf ← read_block (IBLOCK inum)
  write_block (IBLOCK inum) (ino.toBlock buf)

/-- The loop of `free_inode`; `freeNext` is the recursive call. -/
def freeLoop (freeNext : UInt32 → Code Unit) (inode : Inode) (cur_index : ℕ) (file_size : Int) :
    Code Unit :=
  if 0 < file_size then
    if NDIRECT - 1 < cur_index then do
      let next_inode ← deref (← get_inode (inode.blocks NDIRECT))
      put_inode (inode.blocks NDIRECT) { next_inode with size := .ofInt file_size }
      freeNext (inode.blocks NDIRECT)
    else do
      free_block (inode.blocks cur_index)
      freeLoop freeNext inode (cur_index + 1) (file_size - BLOCK_SIZE)
  else pure ()
termination_by file_size.toNat
decreasing_by
  simp only [BLOCK_SIZE]
  omega

/-- `inode_manager::free_inode`, that may call itself `depth` times. -/
def freeInode : ℕ → UInt32 → Code Unit
  | 0, _ => .fail .tooDeep
  | depth + 1, inum => do
    let inode ← deref (← get_inode inum)
    let inode := { inode with type := 0 }
    put_inode inum inode
    free_block (IBLOCK inum)
    freeLoop (freeInode depth) inode 0 (toInt inode.size.toNat)

/-- `inode_manager::free_inode`. A file of less than 2^31 bytes has no more inodes. -/
def free_inode (inum : UInt32) : Code Unit := freeInode (2 ^ 31 / (NDIRECT * BLOCK_SIZE) + 1) inum

/-- The loop of `read_file`; `out` is what is in the buffer so far. -/
def readLoop (file_size : Int) (cur cur_block_indx : ℕ) (file_inode : Inode) (out : Bytes) :
    Code Bytes := do
  let (file_inode, cur_block_indx) ← (if NDIRECT - 1 < cur_block_indx then do
      let next ← deref (← get_inode (file_inode.blocks NDIRECT))
      pure (next, 0)
    else pure (file_inode, cur_block_indx))
  let block ← read_block (file_inode.blocks cur_block_indx)
  if _h : file_size ≤ (cur + 1 : ℕ) * BLOCK_SIZE then
    let file_block_size := file_size - cur * BLOCK_SIZE
    if file_block_size < 0 then .fail .badLength
    else pure (out ++ block.bytes.take file_block_size.toNat)
  else readLoop file_size (cur + 1) (cur_block_indx + 1) file_inode (out ++ block.bytes)
termination_by (file_size - cur * BLOCK_SIZE).toNat
decreasing_by
  simp only [BLOCK_SIZE] at _h ⊢
  omega

/-- `inode_manager::read_file`: what is in the buffer, which has `*size` bytes. -/
def read_file (inum : UInt32) : Code Bytes := do
  let file_inode ← deref (← get_inode inum)
  let buf ← readLoop (toInt file_inode.size.toNat) 0 0 file_inode []
  let file_inode ← deref (← get_inode inum)
  let now_time ← time
  put_inode inum { file_inode with atime := now_time }
  pure buf

/-- A position in a file that is being written: the inode in memory, its number, and which
of its blocks is next. -/
structure Cursor where
  file_inode : Inode
  last_inum : UInt32
  real_block_num : ℕ

/-- The first part of the loop of `write_file`: go on to the next inode of the chain, and
make one if there is none. -/
def advance (file_size : Int) (block_num : ℕ) (p : Cursor) : Code Cursor :=
  if NDIRECT - 1 < p.real_block_num then do
    let old_file_inode ← (if file_size ≤ block_num * BLOCK_SIZE then do
        let new_inum ← alloc_inode T_FILE
        pure (p.file_inode.setBlock NDIRECT new_inum)
      else pure p.file_inode)
    let file_inode ← get_inode (old_file_inode.blocks NDIRECT)
    put_inode p.last_inum old_file_inode
    let file_inode ← deref file_inode
    pure ⟨file_inode, old_file_inode.blocks NDIRECT, 0⟩
  else pure p

/-- The loop of `write_file`. -/
def writeLoop (file_size : Int) (lost_size : Int) (cur : Bytes) (block_num : ℕ) (p : Cursor) :
    Code (ℕ × Cursor) :=
  if 0 < lost_size then do
    let p ← advance file_size block_num p
    let file_inode ← (if file_size ≤ block_num * BLOCK_SIZE then do
        let b ← alloc_block .DATA
        pure (p.file_inode.setBlock p.real_block_num b)
      else pure p.file_inode)
    write_block (file_inode.blocks p.real_block_num)
      (.ofBytes (if lost_size < BLOCK_SIZE then cur.take lost_size.toNat else cur))
    writeLoop file_size (lost_size - BLOCK_SIZE) (cur.drop BLOCK_SIZE) (block_num + 1)
      { p with file_inode, real_block_num := p.real_block_num + 1 }
  else pure (block_num, p)
termination_by lost_size.toNat
decreasing_by
  simp only [BLOCK_SIZE]
  omega

/-- The loop of `write_file` that gives back the blocks behind the end. -/
def shrinkLoop (file_size : Int) (block_num : ℕ) (p : Cursor) : Code Unit :=
  if _h : block_num * BLOCK_SIZE < file_size then
    if NDIRECT - 1 < p.real_block_num then free_inode (p.file_inode.blocks NDIRECT)
    else do
      free_block (p.file_inode.blocks p.real_block_num)
      shrinkLoop file_size (block_num + 1) { p with real_block_num := p.real_block_num + 1 }
  else pure ()
termination_by (file_size - block_num * BLOCK_SIZE).toNat
decreasing_by
  simp only [BLOCK_SIZE] at _h ⊢
  omega

/-- `inode_manager::write_file`. -/
def write_file (inum : UInt32) (buf : Bytes) (size : Int) : Code Unit := do
  let file_inode ← deref (← get_inode inum)
  let file_size := toInt file_inode.size.toNat
  let (block_num, p) ← writeLoop file_size size buf 0 ⟨file_inode, inum, 0⟩
  shrinkLoop file_size block_num p
  put_inode p.last_inum p.file_inode
  let file_inode ← deref (← get_inode inum)
  let ctime ← time
  let mtime ← time
  put_inode inum { file_inode with size := .ofInt size, ctime, mtime }

/-- `inode_manager::getattr`. -/
def getattr (inum : UInt32) : Code Attr := do
  let inode ← read_block (inum - 1 + .ofNat INODE_START)
  let tem_inode := Inode.ofBlock inode
  pure {
    type := tem_inode.type.toInt32.toUInt32
    size := tem_inode.size
    atime := tem_inode.atime
    mtime := tem_inode.mtime
    ctime := tem_inode.ctime }

/-- `inode_manager::remove_file`. -/
def remove_file (inum : UInt32) : Code Unit := free_inode inum

/-- `disk::disk` has set all blocks to zero, and `inode_manager::inode_manager` makes the
root directory. -/
def inode_manager : Code UInt32 := alloc_inode T_DIR

end Yfs.Storage
