import Mathlib.Data.Nat.Find
import Yfs.Storage.System

/-!
# The scan of the bitmap

What `alloc_block` takes for free, bit by bit. `!CHECK(buf, index)` negates the byte before
it is masked, so a block is free for the scan only if no block before it in the same byte of
the bitmap is marked (`World.free_iff`). The scan is a first fit exactly when the first clear
bit is such a block (`firstFit_iff`). As operations on the set of marked blocks, `alloc_block`
and `free_block` are right all the same (`bitmap_refines_set`).
-/

namespace Yfs.Storage

section Scan

variable {s : World} {type : Region} {b j : ℕ}

/-- A block of the region that is not marked, and the first such one. -/
def Lowest (s : World) (type : Region) (b : ℕ) : Prop :=
  type.start ≤ b ∧ b < type.stop ∧ s.marked b = false ∧
    ∀ j, type.start ≤ j → j < b → s.marked j = true

/-- `alloc_block` returns the first block of the region that is not marked, and 0 exactly
when all are. -/
def FirstFit (s : World) (type : Region) : Prop :=
  ∃ r w, (alloc_block type).run s = .done r w ∧ (∀ b, Lowest s type b → r.toNat = b) ∧
    (r = 0 ↔ ∀ b, type.start ≤ b → b < type.stop → s.marked b = true)

theorem exists_lowest (h : ∃ b, type.start ≤ b ∧ b < type.stop ∧ s.marked b = false) :
    ∃ b, Lowest s type b := by
  classical
  obtain ⟨h₁, h₂, h₃⟩ := Nat.find_spec h
  refine ⟨Nat.find h, h₁, h₂, h₃, fun j hj hlt => ?_⟩
  have := Nat.find_min h hlt
  cases hm : s.marked j with
  | true => rfl
  | false => exact absurd ⟨hj, by omega, hm⟩ this

/-- What `alloc_block` returns, in terms of its own test. -/
theorem run_alloc_block (s : World) (type : Region) :
    (∃ r w, (alloc_block type).run s = .done (.ofNat r) w ∧ type.start ≤ r ∧ r < type.stop ∧
      s.free r ∧ ∀ j, type.start ≤ j → j < r → ¬ s.free j) ∨
    ∃ w, (alloc_block type).run s = .done 0 w ∧
      ∀ j, type.start ≤ j → j < type.stop → ¬ s.free j := by
  have hwp : Prog.wp (alloc_block type) (fun i _ =>
      (∃ r, i = .ofNat r ∧ type.start ≤ r ∧ r < type.stop ∧ s.free r ∧
        ∀ j, type.start ≤ j → j < r → ¬ s.free j) ∨
      i = 0 ∧ ∀ j, type.start ≤ j → j < type.stop → ¬ s.free j) (fun _ _ => False) s :=
    wp_alloc_block (fun r hr hr' hfree hfirst => .inl ⟨r, rfl, hr, hr', hfree, hfirst⟩)
      fun hnone => .inr ⟨rfl, hnone⟩
  obtain ⟨i, w, hr, ⟨r, rfl, h⟩ | ⟨rfl, h⟩⟩ := Prog.wp_done hwp
  · exact .inl ⟨r, w, hr, h⟩
  · exact .inr ⟨w, hr, h⟩

/-- **First fit**, exactly if the first clear bit of the region has no set bit before it in
its byte. -/
theorem firstFit_iff (s : World) (type : Region) : FirstFit s type ↔
    ∀ b, Lowest s type b → ∀ j < b, j / 8 = b / 8 → s.marked j = false := by
  have hstop : type.stop ≤ BLOCK_NUM := by cases type <;> decide
  have hstart : 0 < type.start := by cases type <;> decide
  constructor
  · rintro ⟨r, w, hr, hlow, -⟩ b hb j hj hd
    have hrb := hlow b hb
    -- what is returned is free for the scan
    rcases run_alloc_block s type with ⟨r', w', hr', -, hlt, hfree, -⟩ | ⟨w', hr', -⟩
    · rw [hr'] at hr
      cases hr
      rw [toNat_ofNat (by omega)] at hrb
      exact World.free_iff.mp (hrb ▸ hfree) j hj.le hd
    · rw [hr'] at hr
      cases hr
      have := hb.1
      rw [UInt32.toNat_zero] at hrb
      omega
  · intro h
    -- the first clear bit is free for the scan, so the scan stops there
    have hfree : ∀ b, Lowest s type b → s.free b := by
      intro b hb
      refine World.free_iff.mpr fun j hj hd => ?_
      rcases Nat.lt_or_eq_of_le hj with hlt | rfl
      · exact h b hb j hlt hd
      · exact hb.2.2.1
    rcases run_alloc_block s type with ⟨r, w, hr, hge, hlt, hfr, hfirst⟩ | ⟨w, hr, hnone⟩
    · have hm := World.not_marked_of_free hfr
      refine ⟨_, w, hr, fun b hb => ?_, ?_⟩
      · rw [toNat_ofNat (by omega)]
        have hbr : ¬ b < r := fun hbr => hfirst b hb.1 hbr (hfree b hb)
        have hrb : ¬ r < b := fun hrb => absurd (hm.symm.trans (hb.2.2.2 r hge hrb)) (by decide)
        omega
      · refine iff_of_false (fun h0 => ?_) fun hall => ?_
        · have := congrArg UInt32.toNat h0
          rw [toNat_ofNat (by omega), UInt32.toNat_zero] at this
          omega
        · exact absurd (hm.symm.trans (hall r hge hlt)) (by decide)
    · refine ⟨0, w, hr, fun b hb => absurd (hfree b hb) (hnone b hb.1 hb.2.1), ?_⟩
      refine iff_of_true rfl fun b hb hb' => ?_
      by_contra hm
      obtain ⟨c, hc⟩ := exists_lowest ⟨b, hb, hb', by simpa using hm⟩
      exact hnone c hc.1 hc.2.1 (hfree c hc)

/-- After `inode_manager` block 12 is marked and block 13 is not, and `alloc_block` returns
block 16. -/
theorem block_13_skipped : ¬ FirstFit (inode_manager.run zeros).state .INODE := by
  rintro ⟨r, w, hr, hlow, -⟩
  have hres : ((alloc_block .INODE).run (inode_manager.run zeros).state).result = some 16 := by
    decide +kernel
  have hmarks : (inode_manager.run zeros).state.marked 13 = false ∧
      (inode_manager.run zeros).state.marked 12 = true := by decide +kernel
  rw [hr] at hres
  cases hres
  have := hlow 13 ⟨by decide, by decide, hmarks.1, fun j hj hj' => ?_⟩
  · exact absurd this (by decide)
  · simp only [Region.start, INODE_START] at hj
    obtain rfl : j = 12 := by omega
    exact hmarks.2

end Scan

/-! ## The bitmap as a set -/

/-- A block is its bits. -/
theorem Block.ext_bits {p q : Block} (h : ∀ j < BPB, getBit p j = getBit q j) : p = q := by
  obtain ⟨p⟩ := p
  obtain ⟨q⟩ := q
  congr 1
  funext ⟨k, hk⟩
  refine UInt8.toNat_inj.mp (Nat.eq_of_testBit_eq fun b => ?_)
  by_cases hb : b < 8
  · -- bit `b` of byte `k` is bit `8 * k + (7 - b)` of the block
    have hj := h (8 * k + (7 - b)) (by simp only [BPB, BLOCK_SIZE] at hk ⊢; omega)
    have hdiv : (8 * k + (7 - b)) / 8 = k := by omega
    have hbit : bitOf (8 * k + (7 - b)) = b := by
      simp only [bitOf]
      omega
    simpa only [getBit, hdiv, hbit, Block.byte, hk, dif_pos] using hj
  · have hlt : 2 ^ 8 ≤ 2 ^ b := Nat.pow_le_pow_right (by omega) (Nat.not_lt.mp hb)
    rw [Nat.testBit_lt_two_pow (Nat.lt_of_lt_of_le (p ⟨k, hk⟩).toNat_lt hlt),
      Nat.testBit_lt_two_pow (Nat.lt_of_lt_of_le (q ⟨k, hk⟩).toNat_lt hlt)]

theorem clearBit_setBit {p : Block} {i : ℕ} (h : getBit p i = false) :
    clearBit (setBit p i) i = p := by
  refine Block.ext_bits fun j hj => ?_
  rw [getBit_clearBit hj, getBit_setBit hj]
  by_cases hji : j = i
  · subst hji
    simp [h]
  · simp [hji]

namespace World

variable {s w : World} {r b : ℕ}

/-- The blocks whose bit is set. -/
def used (s : World) : Set ℕ := {b | b < BLOCK_NUM ∧ s.marked b = true}

/-- From one disk to the other at most the bitmap changes. -/
def SameData (s w : World) : Prop := ∀ b, b < 2 ∨ 10 ≤ b → w.blocks b = s.blocks b

theorem mem_used_mark (hr : r < BLOCK_NUM) : (s.mark r).used = insert r s.used := by
  ext b
  simp only [used, Set.mem_ofPred_eq, marked_mark, Bool.or_eq_true, decide_eq_true_eq,
    Set.mem_insert_iff]
  constructor
  · rintro ⟨hb, hm | rfl⟩
    · exact .inr ⟨hb, hm⟩
    · exact .inl rfl
  · rintro (rfl | ⟨hb, hm⟩)
    · exact ⟨hr, .inr rfl⟩
    · exact ⟨hb, .inl hm⟩

theorem mem_used_unmark : (s.unmark r).used = s.used \ {r} := by
  ext b
  simp only [used, Set.mem_ofPred_eq, marked_unmark, Bool.and_eq_true, Bool.not_eq_true',
    decide_eq_false_iff_not, Set.mem_sdiff, Set.mem_singleton_iff, and_assoc]

theorem sameData_write {buf : Block} (hr : r < BLOCK_NUM) :
    SameData s (s.write (BBLOCK r) buf) := by
  intro b hb
  refine write_blocks_of_ne ?_
  have := BBLOCK_lt hr
  simp only [BBLOCK, BPB, BLOCK_SIZE] at this ⊢
  omega

/-- Clearing the mark that was just set gives the disk back. -/
theorem unmark_mark (h : s.marked r = false) : ((s.mark r).unmark r).blocks = s.blocks := by
  funext b
  by_cases hb : b = BBLOCK r
  · subst hb
    rw [unmark, write_blocks_self, mark, write_blocks_self]
    exact clearBit_setBit h
  · rw [unmark, write_blocks_of_ne hb, mark, write_blocks_of_ne hb]

end World

/-- `block_manager::alloc_block` for whatever number it is called with. -/
def alloc_block_of (type : UInt32) : Code UInt32 :=
  if type = 0 then alloc_block .INODE else if type = 1 then alloc_block .DATA else pure 0

/-- The blocks of a region. -/
def inRegion (type : UInt32) (b : ℕ) : Prop :=
  type = 0 ∧ Region.INODE.start ≤ b ∧ b < Region.INODE.stop ∨
    type = 1 ∧ Region.DATA.start ≤ b ∧ b < Region.DATA.stop

/-- A call of the block manager. -/
inductive BlockCall where
  | alloc (type : UInt32)
  | free (id : UInt32)
  deriving DecidableEq

/-- A call together with its result. -/
inductive BlockRet where
  | alloc (r : UInt32)
  | free (id : UInt32)
  deriving DecidableEq

/-- The code of a call. -/
def BlockCall.code : BlockCall → Code BlockRet
  | .alloc type => do
    let r ← alloc_block_of type
    pure (.alloc r)
  | .free id => do
    free_block id
    pure (.free id)

/-- What `alloc_block` does to a disk `s`: `r` is 0 and the disk as it was, or `r` is a
block of the region that was free, and now is in the set; freeing it again gives the disk
back. -/
structure Allocates (s : World) (type : UInt32) (r : UInt32) (w : World) : Prop where
  none : r = 0 → w.blocks = s.blocks
  region : r ≠ 0 → inRegion type r.toNat
  fresh : r ≠ 0 → r.toNat ∉ s.used
  used : r ≠ 0 → w.used = insert r.toNat s.used
  data : s.SameData w
  back : ∃ w', (free_block r).run w = .done () w' ∧ w'.blocks = s.blocks

/-- What `free_block` does: the block leaves the set, if it is one behind the bitmap. -/
structure Frees (s : World) (id : UInt32) (w : World) : Prop where
  used : INODE_START ≤ id.toNat → id.toNat < BLOCK_NUM → w.used = s.used \ {id.toNat}
  data : s.SameData w
  out : id.toNat < INODE_START ∨ BLOCK_NUM ≤ id.toNat → w = s

theorem run_free_block (s : World) (id : UInt32) :
    ∃ w, (free_block id).run s = .done () w ∧ Frees s id w := by
  have hwp : Prog.wp (free_block id) (fun _ w => Frees s id w) (fun _ _ => False) s := by
    refine wp_free_block (fun hlo hhi => ⟨fun _ _ => World.mem_used_unmark,
      World.sameData_write hhi, fun h => ?_⟩) fun h =>
        ⟨fun hlo hhi => ?_, fun _ _ => rfl, fun _ => rfl⟩
    · omega
    · omega
  obtain ⟨_, w, hr, h⟩ := Prog.wp_done hwp
  exact ⟨w, hr, h⟩

theorem allocates_found {s : World} {type : UInt32} {r : ℕ} (hreg : inRegion type r)
    (hfree : s.free r) : Allocates s type (.ofNat r) (s.mark r) := by
  have hr : INODE_START ≤ r ∧ r < BLOCK_NUM := by
    rcases hreg with ⟨-, h⟩ | ⟨-, h⟩
    · simp only [Region.start, Region.stop, DATA_START, INODE_START, INODE_NUM, BLOCK_NUM] at h ⊢
      omega
    · simp only [Region.start, Region.stop, DATA_START, INODE_START, INODE_NUM, BLOCK_NUM] at h ⊢
      omega
  have hm := World.not_marked_of_free hfree
  have hto : (UInt32.ofNat r).toNat = r := toNat_ofNat hr.2
  refine ⟨fun h0 => ?_, fun _ => by rwa [hto], fun _ hu => ?_,
    fun _ => by rw [hto, World.mem_used_mark hr.2], World.sameData_write hr.2, ?_⟩
  · have := congrArg UInt32.toNat h0
    rw [hto, UInt32.toNat_zero] at this
    simp only [INODE_START] at hr
    omega
  · rw [hto] at hu
    exact absurd (hm.symm.trans hu.2) (by decide)
  · have hwp : Prog.wp (free_block (.ofNat r)) (fun _ w' => w'.blocks = s.blocks)
        (fun _ _ => False) (s.mark r) := by
      refine wp_free_block (fun _ _ => ?_) fun h => ?_
      · rw [hto]
        exact World.unmark_mark hm
      · rw [hto] at h
        omega
    obtain ⟨_, w', hw', h⟩ := Prog.wp_done hwp
    exact ⟨w', hw', h⟩

theorem allocates_none {s w : World} {type : UInt32} (h : w.blocks = s.blocks) :
    Allocates s type 0 w := by
  refine ⟨fun _ => h, fun h0 => absurd rfl h0, fun h0 => absurd rfl h0, fun h0 => absurd rfl h0,
    fun b _ => congrFun h b, ?_⟩
  obtain ⟨w', hw', hf⟩ := run_free_block w 0
  exact ⟨w', hw', by rw [hf.out (.inl (by decide)), h]⟩

theorem run_alloc_block_of (s : World) (type : UInt32) :
    ∃ r w, (alloc_block_of type).run s = .done r w ∧ Allocates s type r w := by
  have hwp : Prog.wp (alloc_block_of type) (Allocates s type) (fun _ _ => False) s := by
    unfold alloc_block_of
    split
    case isTrue h0 =>
      exact wp_alloc_block (fun r hr hr' hfree _ => allocates_found (.inl ⟨h0, hr, hr'⟩) hfree)
        fun _ => allocates_none rfl
    case isFalse h0 =>
      split
      case isTrue h1 =>
        exact wp_alloc_block (fun r hr hr' hfree _ => allocates_found (.inr ⟨h1, hr, hr'⟩) hfree)
          fun _ => allocates_none rfl
      case isFalse => exact allocates_none rfl
  exact Prog.wp_done hwp

/-- One call: it returns, and does to the disk what its result says. -/
theorem run_blockCall (s : World) (c : BlockCall) : ∃ ret w, c.code.run s = .done ret w ∧
    match ret with
    | .alloc r => ∃ type, c = .alloc type ∧ Allocates s type r w
    | .free id => c = .free id ∧ Frees s id w := by
  cases c with
  | alloc type =>
    obtain ⟨r, w, hr, h⟩ := run_alloc_block_of s type
    refine ⟨.alloc r, w, ?_, type, rfl, h⟩
    rw [BlockCall.code, Prog.run_bind, hr]
    rfl
  | free id =>
    obtain ⟨w, hr, h⟩ := run_free_block s id
    refine ⟨.free id, w, ?_, rfl, h⟩
    rw [BlockCall.code, Prog.run_bind, hr]
    rfl

/-- Calls one after the other, with their results. -/
def blockCalls : List BlockCall → Code (List BlockRet)
  | [] => pure []
  | c :: cs => do
    let ret ← c.code
    let rets ← blockCalls cs
    pure (ret :: rets)

/-- The induction along a run of calls, one result at a time. -/
theorem run_blockCalls {Q : World → List BlockRet → Prop} (hnil : ∀ s, Q s [])
    (hcons : ∀ (s : World) (c : BlockCall) ret w rets, c.code.run s = .done ret w → Q w rets →
      Q s (ret :: rets))
    (cs : List BlockCall) (s : World) :
    ∃ rets w, (blockCalls cs).run s = .done rets w ∧ Q s rets := by
  induction cs generalizing s with
  | nil => exact ⟨[], s, rfl, hnil s⟩
  | cons c cs ih =>
    obtain ⟨ret, w, hr, -⟩ := run_blockCall s c
    obtain ⟨rets, w', hr', hQ⟩ := ih w
    refine ⟨ret :: rets, w', ?_, hcons s c ret w rets hr hQ⟩
    rw [blockCalls, Prog.run_bind, hr]
    show ((blockCalls cs >>= fun rets => pure (ret :: rets)) : Code _).run w = _
    rw [Prog.run_bind, hr']
    rfl

/-- A block of the set is not returned before it is freed. -/
def NotBefore (s : World) (rets : List BlockRet) : Prop :=
  ∀ r, r ≠ 0 → r.toNat ∈ s.used → ∀ mid post, rets = mid ++ .alloc r :: post → .free r ∈ mid

/-- No block is returned a second time before it is freed. -/
def NotTwice (rets : List BlockRet) : Prop :=
  ∀ r pre mid post, r ≠ 0 → rets = pre ++ .alloc r :: (mid ++ .alloc r :: post) → .free r ∈ mid

theorem notBefore_cons {s w : World} {c : BlockCall} {ret : BlockRet} {rets : List BlockRet}
    (hrun : c.code.run s = .done ret w) (h : NotBefore w rets) : NotBefore s (ret :: rets) := by
  obtain ⟨ret', w', hr, hspec⟩ := run_blockCall s c
  cases hrun.symm.trans hr
  intro r h0 hu mid post he
  cases mid with
  | nil =>
    -- the call returned a block that was not in the set
    cases he
    obtain ⟨type, -, ha⟩ := hspec
    exact absurd hu (ha.fresh h0)
  | cons x mid =>
    obtain ⟨rfl, rfl⟩ := List.cons.inj he
    by_cases hx : ret = .free r
    · exact hx ▸ List.mem_cons_self
    -- otherwise the block stays in the set
    have huw : r.toNat ∈ w.used := by
      cases ret with
      | alloc r' =>
        obtain ⟨type, -, ha⟩ := hspec
        by_cases hr0 : r' = 0
        · have hb := ha.none hr0
          have : w.used = s.used := by
            unfold World.used World.marked
            rw [hb]
          rwa [this]
        · rw [ha.used hr0]
          exact Set.mem_insert_of_mem _ hu
      | free id =>
        obtain ⟨-, hf⟩ := hspec
        by_cases hid : INODE_START ≤ id.toNat ∧ id.toNat < BLOCK_NUM
        · rw [hf.used hid.1 hid.2]
          refine ⟨hu, fun he => hx ?_⟩
          rw [UInt32.toNat_inj.mp (Set.mem_singleton_iff.mp he)]
        · rwa [hf.out (by omega)]
    exact List.mem_cons_of_mem _ (h r h0 huw mid post rfl)

theorem notTwice_cons {s w : World} {c : BlockCall} {ret : BlockRet} {rets : List BlockRet}
    (hrun : c.code.run s = .done ret w) (hb : NotBefore w rets) (h : NotTwice rets) :
    NotTwice (ret :: rets) := by
  obtain ⟨ret', w', hr, hspec⟩ := run_blockCall s c
  cases hrun.symm.trans hr
  intro r pre mid post h0 he
  cases pre with
  | nil =>
    cases he
    obtain ⟨type, -, ha⟩ := hspec
    refine hb r h0 ?_ mid post rfl
    rw [ha.used h0]
    exact Set.mem_insert ..
  | cons x pre =>
    obtain ⟨rfl, rfl⟩ := List.cons.inj he
    exact h r pre mid post h0 rfl

/-- **The bitmap is a set of blocks**, on every disk: `alloc_block` returns 0 and changes
nothing, or adds a new block of its region to the set, which `free_block` takes out again
exactly; `free_block` takes out its block; superblock and bitmap blocks are never returned;
and no block is returned twice without being freed in between. -/
theorem bitmap_refines_set (s : World) :
    (∀ type, ∃ r w, (alloc_block_of type).run s = .done r w ∧ Allocates s type r w ∧
      (r = 0 ∨ INODE_START ≤ r.toNat)) ∧
    (∀ id, ∃ w, (free_block id).run s = .done () w ∧ Frees s id w) ∧
    ∀ cs, ∃ rets w, (blockCalls cs).run s = .done rets w ∧ NotTwice rets := by
  refine ⟨fun type => ?_, run_free_block s, fun cs => ?_⟩
  · obtain ⟨r, w, hr, ha⟩ := run_alloc_block_of s type
    refine ⟨r, w, hr, ha, ?_⟩
    by_cases h0 : r = 0
    · exact .inl h0
    · refine .inr ?_
      rcases ha.region h0 with ⟨-, hge, -⟩ | ⟨-, hge, -⟩
      · exact hge
      · exact Nat.le_trans (Nat.le_add_right ..) hge
  · obtain ⟨rets, w, hr, -, h⟩ :=
      run_blockCalls (Q := fun s rets => NotBefore s rets ∧ NotTwice rets)
      (fun s => ⟨fun r _ _ mid post he => by simp at he, fun r pre mid post _ he => by simp at he⟩)
      (fun s c ret w rets hrun h => ⟨notBefore_cons hrun h.1, notTwice_cons hrun h.1 h.2⟩) cs s
    exact ⟨rets, w, hr, h⟩

end Yfs.Storage
