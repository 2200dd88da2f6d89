import Mathlib.Data.Nat.Bitwise
import Mathlib.Data.Stream.Defs
import Yfs.Extent.Client

/-!
# The disk and its block bitmap

`disk` and `block_manager`: 32768 blocks of 512 bytes, a bitmap in blocks 2 to 9, and a
scan of the bitmap that looks for a block of the wanted region. Programs on a `World`,
which is the disk, what a process finds in uninitialized memory and on the clock, and a
record of the writes and of the scans that found nothing.

For proofs, one fact about every function: `wp_read_block`, `wp_write_block`,
`wp_alloc_block` and `wp_free_block`.
-/

namespace Yfs.Storage

open Extent (Bytes)

@[simp] def BLOCK_SIZE : ℕ := 512
@[simp] def BLOCK_NUM : ℕ := 32768
@[simp] def INODE_NUM : ℕ := 4096

/-- Bitmap bits per block. -/
@[simp] def BPB : ℕ := BLOCK_SIZE * 8

/-- Block containing inode `i`: `((nblocks)/BPB + (i)/IPB + 3)`, an `unsigned int`. -/
def IBLOCK (i : UInt32) : UInt32 := UInt32.ofNat (BLOCK_NUM / BPB) + i / 1 + 3

/-- Block containing the bit for block `b`. -/
@[simp] def BBLOCK (b : ℕ) : ℕ := b / BPB + 2

/-- The place of that bit in the block. -/
@[simp] def BBLOCK_INDEX (b : ℕ) : ℕ := b % BPB

/-- `IBLOCK(1, BLOCK_NUM)`. -/
@[simp] def INODE_START : ℕ := 12

@[simp] def DATA_START : ℕ := INODE_START + INODE_NUM

/-- One block of the disk. -/
structure Block where
  data : Fin BLOCK_SIZE → UInt8

namespace Block

/-- The byte at `i`. -/
def byte (b : Block) (i : ℕ) : UInt8 := if h : i < BLOCK_SIZE then b.data ⟨i, h⟩ else 0

/-- A block from its bytes. -/
def ofFn (f : ℕ → UInt8) : Block := ⟨fun i => f i⟩

/-- Write the byte at `i`. -/
def set (b : Block) (i : ℕ) (x : UInt8) : Block := ofFn fun j => if j = i then x else b.byte j

/-- All bytes of a block. -/
def bytes (b : Block) : Bytes := (List.range BLOCK_SIZE).map b.byte

/-- The block that a copy from the front of `cur` fills, with zeros after it. -/
def ofBytes (cur : Bytes) : Block := ofFn fun i => cur.getD i 0

theorem byte_ofFn {f : ℕ → UInt8} {i : ℕ} (h : i < BLOCK_SIZE) : (ofFn f).byte i = f i := by
  simp only [byte, ofFn, dif_pos h]

theorem byte_set {b : Block} {i j : ℕ} {x : UInt8} (h : j < BLOCK_SIZE) :
    (b.set i x).byte j = if j = i then x else b.byte j :=
  byte_ofFn h

@[simp] theorem length_bytes (b : Block) : b.bytes.length = BLOCK_SIZE := by
  simp [bytes]

/-- What is copied to a block and back. -/
theorem take_bytes_ofBytes {cur : Bytes} {n : ℕ} (hn : n ≤ BLOCK_SIZE) (hc : n ≤ cur.length) :
    (ofBytes cur).bytes.take n = cur.take n := by
  apply List.ext_getElem
  · rw [List.length_take, List.length_take, length_bytes]
    omega
  · intro i h₁ h₂
    rw [List.length_take] at h₂
    have hlt : i < cur.length := by omega
    simp only [bytes, List.getElem_take, List.getElem_map, List.getElem_range, ofBytes]
    rw [byte_ofFn (by omega)]
    simp [hlt]

end Block

/-- What ends the process. -/
inductive Fault where
  /-- a null pointer is used -/
  | nullDeref
  /-- a block that is not on the disk is read or written -/
  | outOfRange
  /-- a copy of negative length -/
  | badLength
  /-- the recursion does not end -/
  | tooDeep
  deriving DecidableEq, Repr

/-- `INODE` and `DATA`, the regions of the disk. -/
inductive Region where
  | INODE
  | DATA
  deriving DecidableEq, Repr

/-- What is recorded. -/
inductive Event where
  /-- a block is written -/
  | write (id : ℕ)
  /-- `alloc_block` returns 0 -/
  | noSpace (type : Region)
  deriving DecidableEq, Repr

/-- The disk, the clock, what uninitialized memory holds, and the record. -/
structure World where
  blocks : ℕ → Block
  clock : Stream' UInt32
  memory : Stream' Block
  trace : List Event := []

/-- Code of the inode layer. No lock is used here. -/
abbrev Code := Prog Fault Empty World

/-- `disk::read_block`. -/
def read_block (id : UInt32) : Code Block :=
  if id.toNat < BLOCK_NUM then .read (·.blocks id.toNat) else .fail .outOfRange

/-- Write a block, and record it. -/
def World.write (s : World) (id : ℕ) (buf : Block) : World :=
  { s with blocks := Function.update s.blocks id buf, trace := .write id :: s.trace }

/-- `disk::write_block`. -/
def write_block (id : UInt32) (buf : Block) : Code Unit :=
  if id.toNat < BLOCK_NUM then .modify (·.write id.toNat buf) else .fail .outOfRange

/-- `(unsigned int)time(NULL)`. -/
def time : Code UInt32 := .step fun s => (s.clock.head, { s with clock := s.clock.tail })

/-- What uninitialized memory of one block holds. -/
def uninitialized : Code Block := .step fun s => (s.memory.head, { s with memory := s.memory.tail })

/-- `8-index%8-1`: the first bit of a byte is its highest. -/
def bitOf (index : ℕ) : ℕ := 8 - index % 8 - 1

/-- `!CHECK(p, index)`. The macro has no outer brackets, so this is
`!(*(p+index/8) >> bit) & 0x1`: the bit is free with all bits before it in its byte. -/
def notCheck (p : Block) (index : ℕ) : Bool := (p.byte (index / 8)).toNat >>> bitOf index = 0

/-- `*p = *p | (0x1<<bit)`. -/
def setBit (p : Block) (index : ℕ) : Block :=
  p.set (index / 8) (.ofNat ((p.byte (index / 8)).toNat ||| 1 <<< bitOf index))

/-- `*p = ~(~(*p) | (0x1<<bit))`. -/
def clearBit (p : Block) (index : ℕ) : Block :=
  p.set (index / 8) (~~~(~~~(p.byte (index / 8)) ||| .ofNat (1 <<< bitOf index)))

/-- The first block of a region, and the first one after it. -/
@[simp] def Region.start : Region → ℕ
  | INODE => INODE_START
  | DATA => DATA_START

@[inherit_doc Region.start] def Region.stop : Region → ℕ
  | INODE => DATA_START
  | DATA => BLOCK_NUM

attribute [simp] Region.stop

/-- The loop of `alloc_block`. -/
def allocLoop (type : Region) (local_block_num : ℕ) (buf : Block) (i : ℕ) : Code UInt32 :=
  if i < type.stop then do
    let (local_block_num, buf) ← (if local_block_num ≠ BBLOCK i then do
        let buf ← read_block (.ofNat (BBLOCK i))
        pure (BBLOCK i, buf)
      else pure (local_block_num, buf))
    if notCheck buf (BBLOCK_INDEX i) then do
      write_block (.ofNat local_block_num) (setBit buf (BBLOCK_INDEX i))
      pure (.ofNat i)
    else allocLoop type local_block_num buf (i + 1)
  else do
    .modify fun s => { s with trace := .noSpace type :: s.trace }
    pure 0
termination_by type.stop - i
decreasing_by omega

/-- `block_manager::alloc_block`. -/
def alloc_block (type : Region) : Code UInt32 := allocLoop type 0 (.ofBytes []) type.start

/-- `block_manager::free_block`. -/
def free_block (id : UInt32) : Code Unit :=
  if id.toNat < INODE_START ∨ BLOCK_NUM ≤ id.toNat then pure ()
  else do
    let buf ← read_block (.ofNat (BBLOCK id.toNat))
    write_block (.ofNat (BBLOCK id.toNat)) (clearBit buf (BBLOCK_INDEX id.toNat))

/-! ## Marks -/

section Bits

variable {p : Block} {index j : ℕ}

/-- The bit of a block in its bitmap block. -/
def getBit (p : Block) (index : ℕ) : Bool := (p.byte (index / 8)).toNat.testBit (bitOf index)

/-- Two bits at the same place are one bit. -/
theorem bitOf_inj (hd : index / 8 = j / 8) (hb : bitOf index = bitOf j) : index = j := by
  simp only [bitOf] at hb
  omega

theorem getBit_of_notCheck (h : notCheck p index) : getBit p index = false := by
  have h0 : (p.byte (index / 8)).toNat >>> bitOf index = 0 := of_decide_eq_true h
  rw [getBit, ← Nat.add_zero (bitOf index), ← Nat.testBit_shiftRight, h0, Nat.zero_testBit]

/-- The first bit of a byte is free if a later one is: what a scan finds is the first bit
of a byte. -/
theorem notCheck_pred (h : notCheck p (index + 1)) (hi : (index + 1) % 8 ≠ 0) :
    notCheck p index := by
  have h0 : (p.byte ((index + 1) / 8)).toNat >>> bitOf (index + 1) = 0 := of_decide_eq_true h
  have hd : (index + 1) / 8 = index / 8 := by omega
  have hb : bitOf index = bitOf (index + 1) + 1 := by
    simp only [bitOf]
    omega
  apply decide_eq_true
  rw [hb, ← hd, Nat.shiftRight_succ, h0]

/-- The bit is free for the scan if it is clear with all bits before it in its byte. -/
theorem notCheck_iff :
    notCheck p index ↔ ∀ j ≤ index, j / 8 = index / 8 → getBit p j = false := by
  constructor
  · intro h j hj hd
    have h0 : (p.byte (index / 8)).toNat >>> bitOf index = 0 := of_decide_eq_true h
    have hb : bitOf j = bitOf index + (bitOf j - bitOf index) := by
      simp only [bitOf]
      omega
    rw [getBit, hd, hb, ← Nat.testBit_shiftRight, h0, Nat.zero_testBit]
  · intro h
    apply decide_eq_true
    apply Nat.eq_of_testBit_eq
    intro i
    rw [Nat.testBit_shiftRight, Nat.zero_testBit]
    by_cases hi : bitOf index + i < 8
    · -- it is the bit of a block before, or of this one
      simp only [bitOf] at hi
      have hd : (index - i) / 8 = index / 8 := by omega
      have hb : bitOf (index - i) = bitOf index + i := by
        simp only [bitOf]
        omega
      have := h (index - i) (Nat.sub_le ..) hd
      rwa [getBit, hd, hb] at this
    · exact Nat.testBit_lt_two_pow (Nat.lt_of_lt_of_le (p.byte (index / 8)).toNat_lt
        (Nat.pow_le_pow_right (by omega) (Nat.not_lt.mp hi)))

theorem getBit_setBit (hj : j < BPB) :
    getBit (setBit p index) j = (getBit p j || decide (j = index)) := by
  have hbit : bitOf j < 8 := by
    simp only [bitOf]
    omega
  simp only [BPB, BLOCK_SIZE] at hj
  unfold getBit setBit
  rw [Block.byte_set (by simp only [BLOCK_SIZE]; omega)]
  by_cases hd : j / 8 = index / 8
  · rw [if_pos hd, UInt8.toNat_ofNat', Nat.testBit_mod_two_pow, Nat.testBit_or,
      Nat.one_shiftLeft, Nat.testBit_two_pow, hd]
    have hiff : bitOf index = bitOf j ↔ j = index :=
      ⟨fun h => (bitOf_inj hd.symm h).symm, fun h => by rw [h]⟩
    simp [hbit, hiff]
  · have hne : j ≠ index := fun h => hd (by rw [h])
    simp [hd, hne]

theorem getBit_clearBit (hj : j < BPB) :
    getBit (clearBit p index) j = (getBit p j && !decide (j = index)) := by
  have hbit : bitOf j < 8 := by
    simp only [bitOf]
    omega
  simp only [BPB, BLOCK_SIZE] at hj
  unfold getBit clearBit
  rw [Block.byte_set (by simp only [BLOCK_SIZE]; omega)]
  by_cases hd : j / 8 = index / 8
  · have hiff : bitOf index = bitOf j ↔ j = index :=
      ⟨fun h => (bitOf_inj hd.symm h).symm, fun h => by rw [h]⟩
    have hmask : (UInt8.ofNat (1 <<< bitOf index)).toNat.testBit (bitOf j) =
        decide (j = index) := by
      rw [UInt8.toNat_ofNat', Nat.testBit_mod_two_pow, Nat.one_shiftLeft, Nat.testBit_two_pow]
      simp [hbit, hiff]
    rw [if_pos hd, hd]
    rw [← UInt8.toNat_toBitVec, BitVec.testBit_toNat] at hmask ⊢
    rw [← UInt8.toNat_toBitVec, BitVec.testBit_toNat]
    simp only [UInt8.toBitVec_not, UInt8.toBitVec_or, BitVec.getLsbD_not, BitVec.getLsbD_or, hmask,
      decide_eq_true hbit, Bool.true_and, Bool.not_or, Bool.not_not]
  · have hne : j ≠ index := fun h => hd (by rw [h])
    simp [hd, hne]

end Bits

namespace World

variable {s : World} {b r : ℕ} {buf : Block}

/-- The block is marked in the bitmap. -/
def marked (s : World) (b : ℕ) : Bool := getBit (s.blocks (BBLOCK b)) (BBLOCK_INDEX b)

/-- The scan takes the block for free. -/
def free (s : World) (b : ℕ) : Bool := notCheck (s.blocks (BBLOCK b)) (BBLOCK_INDEX b)

/-- Mark a block. -/
def mark (s : World) (r : ℕ) : World :=
  s.write (BBLOCK r) (setBit (s.blocks (BBLOCK r)) (BBLOCK_INDEX r))

/-- Clear the mark of a block. -/
def unmark (s : World) (r : ℕ) : World :=
  s.write (BBLOCK r) (clearBit (s.blocks (BBLOCK r)) (BBLOCK_INDEX r))

/-- Record that a region is full. -/
def noSpace (s : World) (type : Region) : World := { s with trace := .noSpace type :: s.trace }

@[simp] theorem write_blocks_self : (s.write r buf).blocks r = buf := Function.update_self ..

theorem write_blocks_of_ne (h : b ≠ r) : (s.write r buf).blocks b = s.blocks b :=
  Function.update_of_ne h ..

theorem not_marked_of_free (h : s.free b) : s.marked b = false := getBit_of_notCheck h

/-- The bitmap is in blocks 2 to 9. -/
theorem BBLOCK_lt (h : b < BLOCK_NUM) : BBLOCK b < 10 := by
  simp only [BBLOCK, BPB, BLOCK_SIZE, BLOCK_NUM] at h ⊢
  omega

theorem BBLOCK_INDEX_lt (b : ℕ) : BBLOCK_INDEX b < BPB := Nat.mod_lt _ (by decide)

theorem BBLOCK_inj (h : BBLOCK b = BBLOCK r) (hi : BBLOCK_INDEX b = BBLOCK_INDEX r) : b = r := by
  simp only [BBLOCK, BBLOCK_INDEX, BPB, BLOCK_SIZE] at h hi
  omega

theorem marked_mark : (s.mark r).marked b = (s.marked b || decide (b = r)) := by
  unfold marked mark
  by_cases h : BBLOCK b = BBLOCK r
  · rw [h, write_blocks_self, getBit_setBit (BBLOCK_INDEX_lt b)]
    congr 2
    exact propext ⟨BBLOCK_inj h, fun e => by rw [e]⟩
  · have hne : b ≠ r := fun e => h (by rw [e])
    rw [write_blocks_of_ne h]
    simp [hne]

theorem marked_unmark : (s.unmark r).marked b = (s.marked b && !decide (b = r)) := by
  unfold marked unmark
  by_cases h : BBLOCK b = BBLOCK r
  · rw [h, write_blocks_self, getBit_clearBit (BBLOCK_INDEX_lt b)]
    congr 3
    exact propext ⟨BBLOCK_inj h, fun e => by rw [e]⟩
  · have hne : b ≠ r := fun e => h (by rw [e])
    rw [write_blocks_of_ne h]
    simp [hne]

/-- Blocks with their bits in one byte have them in one block. -/
theorem BBLOCK_of_byte {j : ℕ} (h : j / 8 = b / 8) :
    BBLOCK j = BBLOCK b ∧ BBLOCK_INDEX j / 8 = BBLOCK_INDEX b / 8 := by
  simp only [BBLOCK, BBLOCK_INDEX, BPB, BLOCK_SIZE]
  omega

theorem free_iff : s.free b ↔ ∀ j ≤ b, j / 8 = b / 8 → s.marked j = false := by
  rw [free, notCheck_iff]
  constructor
  · intro h j hj hd
    obtain ⟨hb, hi⟩ := BBLOCK_of_byte hd
    rw [marked, hb]
    refine h _ ?_ hi
    simp only [BBLOCK_INDEX, BPB, BLOCK_SIZE]
    omega
  · intro h k hk hd
    -- bit `k` of the bitmap block is the bit of this block
    have hkb : BBLOCK_INDEX b / 8 * 8 ≤ k ∧ k ≤ BBLOCK_INDEX b := by omega
    simp only [BBLOCK_INDEX, BPB, BLOCK_SIZE] at hkb
    have hj : (b / BPB * BPB + k) / 8 = b / 8 := by
      simp only [BPB, BLOCK_SIZE]
      omega
    have hm := h (b / BPB * BPB + k) (by simp only [BPB, BLOCK_SIZE]; omega) hj
    have hidx : BBLOCK_INDEX (b / BPB * BPB + k) = k := by
      simp only [BBLOCK_INDEX, BPB, BLOCK_SIZE]
      omega
    rwa [marked, (BBLOCK_of_byte hj).1, hidx] at hm

/-- Outside of the bitmap marks change nothing. -/
theorem mark_blocks (hr : r < BLOCK_NUM) (hb : 10 ≤ b) : (s.mark r).blocks b = s.blocks b :=
  write_blocks_of_ne fun h => by
    have := BBLOCK_lt hr
    omega

theorem unmark_blocks (hr : r < BLOCK_NUM) (hb : 10 ≤ b) : (s.unmark r).blocks b = s.blocks b :=
  write_blocks_of_ne fun h => by
    have := BBLOCK_lt hr
    omega

/-- Writes outside of the bitmap change no mark. -/
theorem marked_write (hb : b < BLOCK_NUM) (hr : r < 2 ∨ 10 ≤ r) :
    (s.write r buf).marked b = s.marked b := by
  unfold marked
  rw [write_blocks_of_ne]
  have := BBLOCK_lt hb
  simp only [BBLOCK, BPB, BLOCK_SIZE] at this ⊢
  omega

@[simp] theorem noSpace_blocks {type : Region} : (s.noSpace type).blocks = s.blocks := rfl

end World

/-! ## What the functions do -/

section Wp

variable {α : Type} {s : World} {E : Fault → World → Prop} {id : UInt32} {buf : Block}

theorem wp_read_block {Q : Block → World → Prop} (h : id.toNat < BLOCK_NUM)
    (hQ : Q (s.blocks id.toNat) s) : Prog.wp (read_block id) Q E s := by
  rw [read_block, if_pos h]
  exact hQ

theorem wp_write_block {Q : Unit → World → Prop} (h : id.toNat < BLOCK_NUM)
    (hQ : Q () (s.write id.toNat buf)) : Prog.wp (write_block id buf) Q E s := by
  rw [write_block, if_pos h]
  exact hQ

theorem toNat_ofNat {n : ℕ} (h : n < BLOCK_NUM) : (UInt32.ofNat n).toNat = n :=
  UInt32.toNat_ofNat_of_lt' (Nat.lt_trans h (by decide))

/-- The scan stops at the first block that it takes for free, or at the end. -/
theorem wp_allocLoop {type : Region} {buf : Block} {i l : ℕ} {Q : UInt32 → World → Prop}
    (hl : l = 0 ∨ buf = s.blocks l) (hi : type.start ≤ i)
    (hfirst : ∀ j, type.start ≤ j → j < i → ¬ s.free j)
    (hfound : ∀ r, type.start ≤ r → r < type.stop → s.free r →
      (∀ j, type.start ≤ j → j < r → ¬ s.free j) → Q (.ofNat r) (s.mark r))
    (hnone : (∀ j, type.start ≤ j → j < type.stop → ¬ s.free j) → Q 0 (s.noSpace type)) :
    Prog.wp (allocLoop type l buf i) Q E s := by
  have hstop : type.stop ≤ BLOCK_NUM := by cases type <;> decide
  unfold allocLoop
  split
  case isFalse hge => exact hnone fun j hj hj' => hfirst j hj (by omega)
  case isTrue hlt =>
    have hb : BBLOCK i < BLOCK_NUM :=
      Nat.lt_trans (World.BBLOCK_lt (Nat.lt_of_lt_of_le hlt hstop)) (by decide)
    -- after the read the buffer is the bitmap block of `i`
    have hrest : Prog.wp (do
        if notCheck (s.blocks (BBLOCK i)) (BBLOCK_INDEX i) then do
          write_block (.ofNat (BBLOCK i)) (setBit (s.blocks (BBLOCK i)) (BBLOCK_INDEX i))
          pure (.ofNat i)
        else allocLoop type (BBLOCK i) (s.blocks (BBLOCK i)) (i + 1)) Q E s := by
      split
      case isTrue hfree =>
        rw [Prog.wp_bind]
        refine wp_write_block (by rwa [toNat_ofNat hb]) ?_
        rw [toNat_ofNat hb]
        exact hfound i hi hlt hfree hfirst
      case isFalse hfree =>
        refine wp_allocLoop (.inr rfl) (by omega) (fun j hj hj' => ?_) hfound hnone
        by_cases hji : j = i
        · rwa [hji]
        · exact hfirst j hj (by omega)
    rw [Prog.wp_bind]
    split
    case isTrue hne =>
      rw [Prog.wp_bind]
      refine wp_read_block (by rwa [toNat_ofNat hb]) ?_
      rw [toNat_ofNat hb]
      exact hrest
    case isFalse heq =>
      have hl' : l = BBLOCK i := not_not.mp heq
      have hbuf : buf = s.blocks (BBLOCK i) := by
        rcases hl with rfl | hl
        · simp [BBLOCK] at hl'
        · rw [hl, hl']
      rw [hl', hbuf]
      exact hrest
termination_by type.stop - i
decreasing_by omega

/-- `alloc_block` marks the first block of the region that it takes for free, or returns 0. -/
theorem wp_alloc_block {type : Region} {Q : UInt32 → World → Prop}
    (hfound : ∀ r, type.start ≤ r → r < type.stop → s.free r →
      (∀ j, type.start ≤ j → j < r → ¬ s.free j) → Q (.ofNat r) (s.mark r))
    (hnone : (∀ j, type.start ≤ j → j < type.stop → ¬ s.free j) → Q 0 (s.noSpace type)) :
    Prog.wp (alloc_block type) Q E s :=
  wp_allocLoop (.inl rfl) le_rfl (fun j hj hj' => absurd hj (by omega)) hfound hnone

/-- `free_block` clears the mark, of a block behind the bitmap. -/
theorem wp_free_block {Q : Unit → World → Prop}
    (hin : INODE_START ≤ id.toNat → id.toNat < BLOCK_NUM → Q () (s.unmark id.toNat))
    (hout : id.toNat < INODE_START ∨ BLOCK_NUM ≤ id.toNat → Q () s) :
    Prog.wp (free_block id) Q E s := by
  unfold free_block
  split
  case isTrue h => exact hout h
  case isFalse h =>
    rw [not_or, Nat.not_lt, Nat.not_le] at h
    have hb : BBLOCK id.toNat < BLOCK_NUM := Nat.lt_trans (World.BBLOCK_lt h.2) (by decide)
    rw [Prog.wp_bind]
    refine wp_read_block (by rwa [toNat_ofNat hb]) (wp_write_block (by rwa [toNat_ofNat hb]) ?_)
    rw [toNat_ofNat hb]
    exact hin h.1 h.2

end Wp

end Yfs.Storage
