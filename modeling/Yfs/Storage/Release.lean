import Yfs.Storage.Bitmap
import Yfs.Storage.Requests

/-!
# What is given back

Which bits `free_inode` clears, on any disk, and which ones `write_file` clears when the new
content is shorter. A chain of inodes is given back in two places. `free_inode` puts the size
that is left into the next inode before it goes on there; `write_file` only calls `free_inode`
on it, and finds size 0. So what is behind the last inode that is needed stays marked
(`truncates_iff`).
-/

namespace Yfs.Storage

open Extent (Bytes toInt T_FILE)

namespace World

/-- The size in the inode, as an `int`. -/
def fileSize (s : World) (i : UInt32) : Int := toInt (s.inode i).size.toNat

/-- The data block that is `m`-th along the chain. -/
def dataAt (s : World) (i : UInt32) (m : ℕ) : UInt32 :=
  (s.inode (s.nodeAt i (m / NDIRECT))).blocks (m % NDIRECT)

/-- `free_inode` comes to inode `j` of the chain. -/
def Reaches (s : World) (i : UInt32) (j : ℕ) : Prop :=
  j = 0 ∨ (j * (NDIRECT * BLOCK_SIZE : ℕ) : Int) < s.fileSize i

/-- The blocks of the chain up to the size, from inode `j` and from data block `m` on. -/
def listed (s : World) (i : UInt32) (j m : ℕ) : Set ℕ :=
  {b | INODE_START ≤ b ∧ ((∃ k, j ≤ k ∧ s.Reaches i k ∧ b = (s.nodeAt i k).toNat + 11) ∨
    ∃ x : ℕ, m ≤ x ∧ (x * BLOCK_SIZE : Int) < s.fileSize i ∧ b = (s.dataAt i x).toNat)}

end World

/-- From `s` to `s'` the blocks in `A` are given back, and only their inodes are written: the
pointers are as they were. -/
structure GivesBack (s : World) (A : Set ℕ) (s' : World) : Prop where
  used : s'.used = s.used \ A
  pointers : ∀ k x, (s'.inode k).blocks x = (s.inode k).blocks x
  blocks : ∀ b, INODE_START ≤ b → b ∉ A → s'.blocks b = s.blocks b
  trace : s.trace <:+ s'.trace

section GivesBack

variable {s s₀ s₁ s₂ : World} {A B : Set ℕ} {E : Fault → World → Prop} {i : UInt32}

theorem GivesBack.refl (s : World) : GivesBack s ∅ s :=
  ⟨Set.sdiff_empty.symm, fun _ _ => rfl, fun _ _ _ => rfl, List.suffix_rfl⟩

theorem GivesBack.trans (h : GivesBack s A s₁) (h' : GivesBack s₁ B s₂) :
    GivesBack s (A ∪ B) s₂ where
  used := by rw [h'.used, h.used, Set.sdiff_sdiff]
  pointers k x := (h'.pointers k x).trans (h.pointers k x)
  blocks b hb hn := by
    rw [Set.mem_union, not_or] at hn
    rw [h'.blocks b hb hn.2, h.blocks b hb hn.1]
  trace := h.trace.trans h'.trace

theorem World.used_putInode {ino : Inode} : (s.putInode i ino).used = s.used := by
  ext b
  exact and_congr_right fun hb => by rw [World.marked_putInode hb]

/-- An inode keeps its pointers, and its block is given back later. -/
theorem GivesBack.putInode {ino : Inode} (h : GivesBack (s.putInode i ino) A s₁)
    (hino : ∀ x, ino.blocks x = (s.inode i).blocks x)
    (hi : INODE_START ≤ i.toNat + 11 → i.toNat + 11 ∈ A) :
    GivesBack s A s₁ where
  used := by rw [h.used, World.used_putInode]
  pointers k x := by
    rw [h.pointers, World.inode_putInode]
    split
    case isTrue he => rw [he, hino]
    case isFalse => rfl
  blocks b hb hn := by
    have hne : b ≠ i.toNat + 11 := fun he => hn (he ▸ hi (he ▸ hb))
    rw [h.blocks b hb hn, World.putInode_blocks hne]
  trace := (List.suffix_cons ..).trans h.trace

/-- `free_block` gives back its block, if it is one behind the bitmap. -/
theorem wp_free_block_givesBack {Q : Unit → World → Prop}
    (hQ : ∀ s', GivesBack s {b | INODE_START ≤ b ∧ b = i.toNat} s' → (∀ k, s'.inode k = s.inode k) →
      Q () s') :
    Prog.wp (free_block i) Q E s := by
  refine wp_free_block
    (fun hin hlt => hQ _ ⟨?_, fun k x => ?_, fun b hb _ => ?_, List.suffix_cons ..⟩
    fun k => World.inode_unmark hlt)
    fun hout => hQ _ ⟨?_, fun _ _ => rfl, fun _ _ _ => rfl, List.suffix_rfl⟩ fun _ => rfl
  · rw [World.mem_used_unmark]
    congr 1
    ext b
    exact ⟨fun hb => ⟨hb ▸ hin, hb⟩, fun hb => hb.2⟩
  · rw [World.inode_unmark hlt]
  · exact World.unmark_blocks hlt (by simp only [INODE_START] at hb; omega)
  · refine (sdiff_eq_left.mpr (Set.disjoint_left.mpr fun b hu hb => ?_)).symm
    have hlt := hu.1
    have hge := hb.1
    rw [hb.2] at hlt hge
    omega

end GivesBack

/-! ## `free_inode` -/

namespace World

/-- The blocks of the chain up to the size, before inode `c` and before data block `m`. -/
def before (s : World) (i : UInt32) (c m : ℕ) : Set ℕ :=
  {b | INODE_START ≤ b ∧ ((∃ k < c, b = (s.nodeAt i k).toNat + 11) ∨
    ∃ x < m, (x * BLOCK_SIZE : Int) < s.fileSize i ∧ b = (s.dataAt i x).toNat)}

/-- `free_inode` comes to inode `k` of the chain, and it is in range. -/
def Visits (s : World) (i : UInt32) (k : ℕ) : Prop :=
  s.Reaches i k ∧ (s.nodeAt i k).toNat < INODE_NUM

end World

/-- From `s` to `s'` the chain that was there in `s₀` is given back, from inode `j` and from
data block `m` on. -/
structure Walked (s₀ : World) (i : UInt32) (s : World) (j m : ℕ) (s' : World) : Prop where
  inRange : ∀ k, j ≤ k → s₀.Reaches i k → (s₀.nodeAt i k).toNat < INODE_NUM
  gives : GivesBack s (s₀.listed i j m) s'

/-- `free_inode` is called on inode `j` of the chain that was there in `s₀`, with the size that
is left in it. What is given back from here on comes on top of what is behind. -/
structure Entered (s₀ : World) (i : UInt32) (j : ℕ) (s : World) : Prop where
  visits : ∀ k ≤ j, s₀.Visits i k
  pointers : ∀ k x, (s.inode k).blocks x = (s₀.inode k).blocks x
  size : s.fileSize (s₀.nodeAt i j) = s₀.fileSize i - 51200 * j
  gives : ∀ {A s'}, (INODE_START ≤ (s₀.nodeAt i j).toNat + 11 → (s₀.nodeAt i j).toNat + 11 ∈ A) →
    GivesBack s A s' → GivesBack s₀ (s₀.before i j (NDIRECT * j) ∪ A) s'

/-- `free_inode` has been called on `c` inodes of the chain, and has given them back with their
data blocks. There is no call on the one behind them. -/
structure Ended (s₀ : World) (i : UInt32) (c : ℕ) (s : World) : Prop where
  visits : ∀ k < c, s₀.Visits i k
  ends : ¬ s₀.Visits i c
  gives : GivesBack s₀ (s₀.before i c (NDIRECT * c)) s

section Walk

variable {s₀ s s' : World} {i : UInt32} {c j m : ℕ} {E : Fault → World → Prop}

theorem World.fileSize_lt : s.fileSize i < 2 ^ 31 := Int32.toInt_lt _

/-- One inode more. -/
theorem World.listed_node (h : s.Reaches i j) :
    {b | INODE_START ≤ b ∧ b = (s.nodeAt i j).toNat + 11} ∪ s.listed i (j + 1) m =
      s.listed i j m := by
  ext b
  constructor
  · rintro (⟨hb, he⟩ | ⟨hb, ⟨k, hk, hs, he⟩ | hd⟩)
    · exact ⟨hb, .inl ⟨j, le_rfl, h, he⟩⟩
    · exact ⟨hb, .inl ⟨k, Nat.le_of_succ_le hk, hs, he⟩⟩
    · exact ⟨hb, .inr hd⟩
  · rintro ⟨hb, ⟨k, hk, hs, he⟩ | hd⟩
    · rcases Nat.eq_or_lt_of_le hk with rfl | hk
      · exact .inl ⟨hb, he⟩
      · exact .inr ⟨hb, .inl ⟨k, hk, hs, he⟩⟩
    · exact .inr ⟨hb, .inr hd⟩

/-- Behind the size there is nothing. -/
theorem World.not_reaches (h : s.fileSize i ≤ (NDIRECT * BLOCK_SIZE : ℕ) * (j + 1 : ℕ)) {k : ℕ}
    (hk : j + 1 ≤ k) : ¬ s.Reaches i k := by
  simp only [NDIRECT, BLOCK_SIZE] at h
  rintro (rfl | hlt)
  · omega
  · simp only [NDIRECT, BLOCK_SIZE] at hlt
    omega

theorem World.listed_end (h : s.fileSize i ≤ m * BLOCK_SIZE) (hm : m ≤ NDIRECT * (j + 1)) :
    s.listed i (j + 1) m = ∅ := by
  simp only [NDIRECT, BLOCK_SIZE] at h hm
  refine Set.eq_empty_of_forall_notMem ?_
  rintro b ⟨-, ⟨k, hk, hs, -⟩ | ⟨x, hx, hs, -⟩⟩
  · exact World.not_reaches (j := j) (by simp only [NDIRECT, BLOCK_SIZE]; omega) hk hs
  · simp only [BLOCK_SIZE] at hs
    omega

@[simp] theorem World.before_zero : s.before i 0 0 = ∅ := by
  simp [World.before]

/-- One inode more is behind. -/
theorem World.before_node :
    s.before i j m ∪ {b | INODE_START ≤ b ∧ b = (s.nodeAt i j).toNat + 11} =
      s.before i (j + 1) m := by
  ext b
  simp only [World.before, Nat.exists_lt_succ_right, Set.mem_union, Set.mem_ofPred_eq]
  rw [← and_or_left, or_right_comm]

/-- One data block more is behind. -/
theorem World.before_data (h : (m * BLOCK_SIZE : Int) < s.fileSize i) :
    s.before i c m ∪ {b | INODE_START ≤ b ∧ b = (s.dataAt i m).toNat} = s.before i c (m + 1) := by
  ext b
  simp only [World.before, Nat.exists_lt_succ_right, h, true_and, Set.mem_union, Set.mem_ofPred_eq]
  rw [← and_or_left, or_assoc]

/-- From the size on there are no data blocks. -/
theorem World.before_end {m' : ℕ} (h : s.fileSize i ≤ m * BLOCK_SIZE) (hm : m ≤ m') :
    s.before i c m' = s.before i c m := by
  ext b
  refine and_congr_right fun _ => or_congr_right ⟨?_, ?_⟩
  · rintro ⟨x, -, hs, he⟩
    refine ⟨x, ?_, hs, he⟩
    simp only [BLOCK_SIZE] at h hs
    omega
  · rintro ⟨x, hx, hd⟩
    exact ⟨x, Nat.lt_of_lt_of_le hx hm, hd⟩

theorem World.Reaches.mono (h : s.Reaches i j) {k : ℕ} (hk : k ≤ j) : s.Reaches i k := by
  rcases h with rfl | hlt
  · exact .inl (Nat.le_zero.mp hk)
  · refine .inr ?_
    simp only [NDIRECT, BLOCK_SIZE] at hlt ⊢
    omega

/-- At the end of the chain everything that it lists is behind. -/
theorem World.listed_eq_before (hc : ∀ k < c, s.Reaches i k) (hend : ¬ s.Reaches i c) :
    s.listed i 0 0 = s.before i c (NDIRECT * c) := by
  ext b
  refine and_congr_right fun _ => or_congr ⟨?_, ?_⟩ ⟨?_, ?_⟩
  · rintro ⟨k, -, hr, he⟩
    exact ⟨k, Nat.lt_of_not_le fun hk => hend (hr.mono hk), he⟩
  · rintro ⟨k, hk, he⟩
    exact ⟨k, Nat.zero_le k, hc k hk, he⟩
  · rintro ⟨x, -, hs, he⟩
    refine ⟨x, Nat.lt_of_not_le fun hx => hend (.inr ?_), hs, he⟩
    simp only [NDIRECT, BLOCK_SIZE] at hx hs ⊢
    omega
  · rintro ⟨x, -, hd⟩
    exact ⟨x, Nat.zero_le x, hd⟩

theorem Ended.walked (h : Ended s i c s') (hend : ¬ s.Reaches i c) : Walked s i s 0 0 s' := by
  refine ⟨fun k _ hr => (h.visits k ?_).2, ?_⟩
  · exact Nat.lt_of_not_le fun hk => hend (hr.mono hk)
  · rw [World.listed_eq_before (fun k hk => (h.visits k hk).1) hend]
    exact h.gives

theorem Entered.root (h : i.toNat < INODE_NUM) : Entered s i 0 s where
  visits k hk := by
    obtain rfl : k = 0 := Nat.le_zero.mp hk
    exact ⟨.inl rfl, h⟩
  pointers _ _ := rfl
  size := by
    show s.fileSize i = _
    omega
  gives _ hg := by rwa [Nat.mul_zero, World.before_zero, Set.empty_union]

/-- On from inode `j`: the next one gets the size that is left. -/
theorem Entered.next {ino : Inode} (hvisits : ∀ k ≤ j, s₀.Visits i k) (hnext : s₀.Visits i (j + 1))
    (h : GivesBack s₀ (s₀.before i (j + 1) (NDIRECT * (j + 1))) s)
    (hino : ∀ x, ino.blocks x = (s.inode (s₀.nodeAt i (j + 1))).blocks x)
    (hsize : toInt ino.size.toNat = s₀.fileSize i - 51200 * (j + 1 : ℕ)) :
    Entered s₀ i (j + 1) (s.putInode (s₀.nodeAt i (j + 1)) ino) where
  visits k hk := by
    rcases Nat.le_succ_iff.mp hk with hk | rfl
    · exact hvisits k hk
    · exact hnext
  pointers k x := by
    rw [← h.pointers, World.inode_putInode]
    split
    case isTrue he => rw [he, hino]
    case isFalse => rfl
  size := by rw [World.fileSize, World.inode_putInode, if_pos rfl, hsize]
  gives hA hg := h.trans (hg.putInode hino hA)

/-- A number that is out of range is used. -/
theorem wp_get_inode_out {α : Type} {k : Inode → Code α} {Q : α → World → Prop}
    (h : ¬ i.toNat < INODE_NUM) (hE : E .nullDeref s) :
    Prog.wp (get_inode i >>= fun p => deref p >>= k) Q E s :=
  Prog.wp_of_failed (run_get_inode h) hE

/-- The loop of `free_inode`, on inode `j` of the chain; `next` is the next inode's turn. -/
theorem wp_freeLoop_walk {s : World} {next : UInt32 → Code Unit} {inode : Inode}
    {x : ℕ} {size : Int} {Q : Unit → World → Prop} (hvisits : ∀ k ≤ j, s₀.Visits i k)
    (h : GivesBack s₀ (s₀.before i (j + 1) (NDIRECT * j + x)) s)
    (hinode : ∀ y, inode.blocks y = (s₀.inode (s₀.nodeAt i j)).blocks y)
    (hsize : size = s₀.fileSize i - 512 * (100 * j + x)) (hx : x ≤ 100)
    (hnext : ∀ s', Entered s₀ i (j + 1) s' → Prog.wp (next (s₀.nodeAt i (j + 1))) Q E s')
    (hE : ∀ s', Ended s₀ i (j + 1) s' → s₀.Reaches i (j + 1) → E .nullDeref s')
    (hQ : ∀ s', Ended s₀ i (j + 1) s' → ¬ s₀.Reaches i (j + 1) → Q () s') :
    Prog.wp (freeLoop next inode x size) Q E s := by
  have hbefore : ∀ k < j + 1, s₀.Visits i k := fun k hk => hvisits k (Nat.le_of_lt_succ hk)
  unfold freeLoop
  split
  case isFalse hend =>
    have hnot : ¬ s₀.Reaches i (j + 1) :=
      World.not_reaches (j := j) (by simp only [NDIRECT, BLOCK_SIZE]; omega) le_rfl
    refine hQ s ⟨hbefore, fun hv => hnot hv.1, ?_⟩ hnot
    rwa [World.before_end (m := NDIRECT * j + x) (by simp only [NDIRECT, BLOCK_SIZE]; omega)
      (by simp only [NDIRECT]; omega)]
  case isTrue hpos =>
    split
    case isTrue hlast =>
      simp only [NDIRECT] at hlast
      obtain rfl : x = 100 := by omega
      have hnode : inode.blocks NDIRECT = s₀.nodeAt i (j + 1) := hinode 100
      have hreach : s₀.Reaches i (j + 1) := .inr (by simp only [NDIRECT, BLOCK_SIZE]; omega)
      rw [hnode]
      by_cases hrange : (s₀.nodeAt i (j + 1)).toNat < INODE_NUM
      case neg => exact wp_get_inode_out hrange (hE s ⟨hbefore, fun hv => hrange hv.2, h⟩ hreach)
      rw [Prog.wp_bind]
      refine wp_get_inode hrange ?_
      simp only [Prog.wp_bind, wp_deref]
      refine wp_put_inode hrange (hnext _ (.next hvisits ⟨hreach, hrange⟩ h (fun _ => rfl) ?_))
      have hlt := s₀.fileSize_lt (i := i)
      show toInt (UInt32.ofInt size).toNat = _
      rw [toNat_ofInt hpos.le (by omega), toInt, Int32.toInt_ofNat_of_lt (by omega)]
      omega
    case isFalse hin =>
      simp only [NDIRECT] at hin
      have hdata : inode.blocks x = s₀.dataAt i (NDIRECT * j + x) := by
        have hdiv : (100 * j + x) / 100 = j ∧ (100 * j + x) % 100 = x := by omega
        rw [hinode, World.dataAt, NDIRECT, hdiv.1, hdiv.2]
      rw [hdata, Prog.wp_bind]
      refine wp_free_block_givesBack fun s₁ hs₁ _ => wp_freeLoop_walk hvisits ?_ hinode ?_
        (by omega) hnext hE hQ
      · rw [← Nat.add_assoc, ← World.before_data (by simp only [NDIRECT, BLOCK_SIZE]; omega)]
        exact h.trans hs₁
      · simp only [BLOCK_SIZE]
        omega
termination_by size.toNat
decreasing_by
  simp only [BLOCK_SIZE]
  omega

/-- `free_inode` on inode `j` of the chain, with `depth` calls at most. -/
theorem wp_freeInode_walk {depth : ℕ} {Q : Unit → World → Prop} (h : Entered s₀ i j s)
    (hdeep : ∀ s', (∀ k ≤ j + depth, s₀.Visits i k) → E .tooDeep s')
    (hE : ∀ c s', c ≤ j + depth → Ended s₀ i c s' → s₀.Reaches i c → E .nullDeref s')
    (hQ : ∀ c s', c ≤ j + depth → Ended s₀ i c s' → ¬ s₀.Reaches i c → Q () s') :
    Prog.wp (freeInode depth (s₀.nodeAt i j)) Q E s := by
  induction depth generalizing j s with
  | zero => exact hdeep s h.visits
  | succ depth ih =>
    have hrange := (h.visits j le_rfl).2
    rw [freeInode, Prog.wp_bind]
    refine wp_get_inode hrange ?_
    simp only [Prog.wp_bind, wp_deref]
    refine wp_put_inode hrange (wp_free_block_givesBack fun s₁ hs₁ _ => ?_)
    rw [IBLOCK_toNat hrange] at hs₁
    have hs : GivesBack s₀ (s₀.before i (j + 1) (NDIRECT * j)) s₁ := by
      rw [← World.before_node]
      exact h.gives (fun hb => ⟨hb, rfl⟩) (hs₁.putInode (fun _ => rfl) fun hb => ⟨hb, rfl⟩)
    have hle : j + 1 ≤ j + (depth + 1) := by omega
    have hadd : j + 1 + depth = j + (depth + 1) := by omega
    refine wp_freeLoop_walk (x := 0) h.visits hs (fun y => h.pointers _ y) ?_ (Nat.zero_le _)
      (fun s' hs' => ih hs' ?_ ?_ ?_) (fun s' => hE _ s' hle) fun s' => hQ _ s' hle
    · rw [← World.fileSize, h.size]
      omega
    · exact fun s' hv => hdeep s' (hadd ▸ hv)
    · exact fun c s' hc => hE c s' (hadd ▸ hc)
    · exact fun c s' hc => hQ c s' (hadd ▸ hc)

/-- No chain is as long as that. -/
theorem World.not_reaches_deep : ¬ s.Reaches i (0 + (2 ^ 31 / (NDIRECT * BLOCK_SIZE) + 1)) := by
  have hlt := s.fileSize_lt (i := i)
  refine World.not_reaches (j := 2 ^ 31 / (NDIRECT * BLOCK_SIZE)) ?_ (Nat.zero_add _).ge
  simp only [NDIRECT, BLOCK_SIZE]
  omega

/-- **What `free_inode` gives back**, on any disk: what the inode lists, be it a file or not.
It uses `NULL` if one of the inodes is out of range. -/
theorem wp_free_inode {Q : Unit → World → Prop}
    (hE : ∀ s' k, s.Reaches i k → ¬ (s.nodeAt i k).toNat < INODE_NUM → E .nullDeref s')
    (hQ : ∀ s', (∀ k, s.Reaches i k → (s.nodeAt i k).toNat < INODE_NUM) →
      GivesBack s (s.listed i 0 0) s' → Q () s') : Prog.wp (free_inode i) Q E s := by
  by_cases hrange : i.toNat < INODE_NUM
  case neg => exact wp_get_inode_out hrange (hE s 0 (.inl rfl) hrange)
  refine wp_freeInode_walk (.root hrange) (fun s' hv => ?_)
    (fun c s' _ h hr => hE s' c hr fun hlt => h.ends ⟨hr, hlt⟩) fun c s' _ h hr => ?_
  · exact absurd (hv _ le_rfl).1 s.not_reaches_deep
  · have hw := h.walked hr
    exact hQ s' (fun k => hw.inRange k (Nat.zero_le k)) hw.gives

/-- An inode of size 0 lists nothing but itself. -/
theorem World.listed_empty (h : s.fileSize i = 0) :
    s.listed i 0 0 = {b | INODE_START ≤ b ∧ b = i.toNat + 11} := by
  rw [← World.listed_node (.inl rfl), World.listed_end (by simp [h]) (Nat.zero_le _),
    Set.union_empty]
  rfl

end Walk

/-! ## The loop of `write_file` -/

/-- What the loop of `write_file` gives back behind `c` inodes and `m` data blocks: the data
blocks in the inode that it is at, and the inode behind that one. -/
def World.dropped (s : World) (i : UInt32) (c m : ℕ) : Set ℕ :=
  {b | INODE_START ≤ b ∧ (s.Reaches i c ∧ b = (s.nodeAt i c).toNat + 11 ∨
    ∃ x : ℕ, m ≤ x ∧ x < NDIRECT * c ∧ (x * BLOCK_SIZE : Int) < s.fileSize i ∧
      b = (s.dataAt i x).toNat)}

section Drop

variable {s₀ s : World} {i : UInt32} {j m : ℕ} {E : Fault → World → Prop}

theorem World.dropped_subset : s.dropped i j m ⊆ s.listed i j m := by
  rintro b ⟨hb, ⟨hr, he⟩ | ⟨x, hx, -, hs, he⟩⟩
  · exact ⟨hb, .inl ⟨j, le_rfl, hr, he⟩⟩
  · exact ⟨hb, .inr ⟨x, hx, hs, he⟩⟩

theorem World.dropped_data (h : (m * BLOCK_SIZE : Int) < s.fileSize i) (hm : m < NDIRECT * j) :
    {b | INODE_START ≤ b ∧ b = (s.dataAt i m).toNat} ∪ s.dropped i j (m + 1) = s.dropped i j m := by
  ext b
  constructor
  · rintro (⟨hb, he⟩ | ⟨hb, hn | ⟨x, hx, hd⟩⟩)
    · exact ⟨hb, .inr ⟨m, le_rfl, hm, h, he⟩⟩
    · exact ⟨hb, .inl hn⟩
    · exact ⟨hb, .inr ⟨x, Nat.le_of_succ_le hx, hd⟩⟩
  · rintro ⟨hb, hn | ⟨x, hx, hd⟩⟩
    · exact .inr ⟨hb, .inl hn⟩
    · rcases Nat.eq_or_lt_of_le hx with rfl | hx
      · exact .inl ⟨hb, hd.2.2⟩
      · exact .inr ⟨hb, .inr ⟨x, hx, hd⟩⟩

theorem World.dropped_node (h : s.Reaches i j) (hm : NDIRECT * j ≤ m) :
    s.dropped i j m = {b | INODE_START ≤ b ∧ b = (s.nodeAt i j).toNat + 11} := by
  ext b
  refine and_congr_right fun _ => ⟨?_, fun he => .inl ⟨h, he⟩⟩
  rintro (⟨-, he⟩ | ⟨x, hx, hlt, -⟩)
  · exact he
  · omega

/-- The loop does not tell the next inode how much is left. -/
theorem wp_shrinkLoop_dropped {s : World} {x : ℕ} {p : Cursor} {Q : Unit → World → Prop}
    (hptr : ∀ y, p.file_inode.blocks y = (s₀.inode (s₀.nodeAt i j)).blocks y)
    (hx : x = 100 * j + p.real_block_num) (hreal : p.real_block_num ≤ 100)
    (hnext : s₀.Reaches i (j + 1) → (s₀.nodeAt i (j + 1)).toNat < INODE_NUM ∧
      (s.inode (s₀.nodeAt i (j + 1))).size = 0)
    (hQ : ∀ s', GivesBack s (s₀.dropped i (j + 1) x) s' → Q () s') :
    Prog.wp (shrinkLoop (s₀.fileSize i) x p) Q E s := by
  unfold shrinkLoop
  split
  case isFalse hend =>
    have hempty : s₀.dropped i (j + 1) x = ∅ :=
      Set.subset_eq_empty World.dropped_subset
        (World.listed_end (by omega) (by simp only [NDIRECT]; omega))
    exact hQ s (hempty ▸ .refl s)
  case isTrue hmore =>
    simp only [BLOCK_SIZE] at hmore
    split
    case isTrue hlast =>
      simp only [NDIRECT] at hlast
      have hreach : s₀.Reaches i (j + 1) := .inr (by simp only [NDIRECT, BLOCK_SIZE]; omega)
      obtain ⟨hrange, hsize⟩ := hnext hreach
      have hnode : p.file_inode.blocks NDIRECT = s₀.nodeAt i (j + 1) := hptr 100
      have hzero : s.fileSize (s₀.nodeAt i (j + 1)) = 0 := by
        rw [World.fileSize, hsize]
        rfl
      rw [hnode]
      refine wp_free_inode (fun _ k hk hout => ?_) fun s' _ hs' => hQ s' ?_
      · rcases hk with rfl | hk
        · exact absurd hrange hout
        · rw [hzero] at hk
          simp only [NDIRECT, BLOCK_SIZE] at hk
          omega
      · rw [World.listed_empty hzero] at hs'
        rwa [World.dropped_node hreach (by simp only [NDIRECT]; omega)]
    case isFalse hin =>
      simp only [NDIRECT] at hin
      have hdata : p.file_inode.blocks p.real_block_num = s₀.dataAt i x := by
        have hdiv : x / 100 = j ∧ x % 100 = p.real_block_num := by omega
        rw [hptr, World.dataAt, NDIRECT, hdiv.1, hdiv.2]
      rw [hdata, Prog.wp_bind]
      refine wp_free_block_givesBack fun s₁ hs₁ hinode => ?_
      refine wp_shrinkLoop_dropped (p := { p with real_block_num := p.real_block_num + 1 }) hptr
        (by show x + 1 = 100 * j + (p.real_block_num + 1); omega)
        (by show p.real_block_num + 1 ≤ 100; omega) (fun hr => ?_) fun s' hs' => hQ s' ?_
      · rw [hinode]
        exact hnext hr
      · rw [← World.dropped_data (by simp only [BLOCK_SIZE]; omega) (by simp only [NDIRECT]; omega)]
        exact hs₁.trans hs'
termination_by (s₀.fileSize i - x * BLOCK_SIZE).toNat
decreasing_by
  simp only [BLOCK_SIZE] at *
  omega

end Drop

section Shorter

variable {s s₁ : World} {f : Shape} {E : Fault → World → Prop}

/-- Of the two disks only the data is different. -/
structure SameInodes (s s₁ : World) : Prop where
  used : s₁.used = s.used
  inode : ∀ i : UInt32, i.toNat < INODE_NUM → s₁.inode i = s.inode i

theorem SameInodes.refl (s : World) : SameInodes s s := ⟨rfl, fun _ _ => rfl⟩

theorem SameInodes.putInode {i : UInt32} (h : SameInodes s s₁) :
    SameInodes s (s₁.putInode i (s.inode i)) where
  used := World.used_putInode.trans h.used
  inode k hk := by
    rw [World.inode_putInode]
    split
    case isTrue he => rw [he]
    case isFalse => exact h.inode k hk

/-- A data block is written, or block 0. -/
theorem SameInodes.write {b : ℕ} {buf : Block} (h : SameInodes s s₁) (hb : b = 0 ∨ DATA_START ≤ b) :
    SameInodes s (s₁.write b buf) where
  used := by
    rw [← h.used]
    ext x
    refine and_congr_right fun hx => ?_
    rw [World.marked_write hx (by simp only [DATA_START, INODE_START, INODE_NUM] at hb; omega)]
  inode k hk := by
    rw [← h.inode k hk, World.inode, World.write_blocks_of_ne]
    · rfl
    · simp only [DATA_START, INODE_START, INODE_NUM] at hb hk
      omega

/-- The walk is at data block `k`, in inode `j` of the chain. -/
structure Here (s : World) (f : Shape) (k j : ℕ) (p : Cursor) : Prop where
  inode : p.file_inode = s.inode (f.node j)
  node : p.last_inum = f.node j
  pos : k = 100 * j + p.real_block_num
  real : p.real_block_num ≤ 100

/-- **The loop of `write_file` inside of the file** takes nothing. -/
theorem wp_writeLoop_inside (h : Stored s f) {s₁ : World} {lost : Int} {cur : Bytes} {k j : ℕ}
    {p : Cursor} {Q : ℕ × Cursor → World → Prop} (hs : SameInodes s s₁) (hp : Here s f k j p)
    (hj : j = (k - 1) / 100) (hlost : 512 * k + lost < (s.inode (f.node 0)).size.toNat)
    (hQ : ∀ s' p' m, m = k + ((lost + 511) / 512).toNat → SameInodes s s' →
      Here s f m ((m - 1) / 100) p' → Q (m, p') s') :
    Prog.wp (writeLoop (s.inode (f.node 0)).size.toNat lost cur k p) Q E s₁ := by
  have hn := h.blocks
  have hlen := h.len
  simp only [BLOCK_SIZE, NDIRECT] at hn hlen
  unfold writeLoop
  split
  case isFalse hend => exact hQ s₁ p k (by omega) hs (hj ▸ hp)
  case isTrue hmore =>
    have hold : ¬ ((s.inode (f.node 0)).size.toNat : Int) ≤ k * BLOCK_SIZE := by
      simp only [BLOCK_SIZE]
      omega
    have hk : k < f.n := by omega
    rw [Prog.wp_bind]
    -- on to the inode of block `k`
    refine Prog.wp_mono (Q := fun p' s' => SameInodes s s' ∧ Here s f k (k / 100) p' ∧
      p'.real_block_num < 100) ?_ ?_ fun _ _ hE => hE
    · have hpos := hp.pos
      have hreal := hp.real
      unfold advance
      split
      case isTrue hlast =>
        simp only [NDIRECT] at hlast
        have hnext : j + 1 < f.len := by omega
        have hlt := (h.rep.node_lt (j + 1) hnext).2
        have hlt' := (h.rep.node_lt j (by omega)).2
        rw [pure_bind, hp.inode, h.rep.link j hnext, hp.node]
        simp only [Prog.wp_bind]
        refine wp_get_inode hlt (wp_put_inode hlt' ?_)
        rw [wp_deref, hs.inode _ hlt]
        have hdiv : k / 100 = j + 1 := by omega
        have hpos' : k = 100 * (k / 100) + 0 := by omega
        exact ⟨hs.putInode, ⟨hdiv ▸ rfl, hdiv ▸ rfl, hpos', Nat.zero_le _⟩, Nat.succ_pos 99⟩
      case isFalse hin =>
        simp only [NDIRECT] at hin
        have hdiv : k / 100 = j := by omega
        exact ⟨hs, hdiv ▸ hp, by omega⟩
    · rintro p' s' ⟨hs', hp', hreal'⟩
      have hpos' := hp'.pos
      rw [if_neg hold, pure_bind, Prog.wp_bind]
      have hdata : p'.file_inode.blocks p'.real_block_num = f.data k := by
        have hd := h.rep.data k hk
        have hmod : k % 100 = p'.real_block_num := by omega
        rwa [NDIRECT, hmod, ← hp'.inode] at hd
      rw [hdata]
      refine wp_write_block (h.rep.data_on_disk hk) ?_
      refine wp_writeLoop_inside (j := k / 100) h
        (hs'.write ((h.rep.data_lt k hk).imp (fun h0 => by rw [h0]; rfl) fun h1 => h1.1))
        ⟨hp'.inode, hp'.node, ?_, ?_⟩ (by omega) ?_ fun s'' p'' m hm => hQ s'' p'' m ?_
      · show k + 1 = 100 * (k / 100) + (p'.real_block_num + 1)
        omega
      · exact hreal'
      · simp only [BLOCK_SIZE]
        omega
      · simp only [BLOCK_SIZE] at hm
        omega
termination_by lost.toNat
decreasing_by
  simp only [BLOCK_SIZE]
  omega

theorem Stored.fileSize (h : Stored s f) :
    s.fileSize (f.node 0) = (s.inode (f.node 0)).size.toNat :=
  h.toInt_size

theorem Stored.lt_n_iff (h : Stored s f) {x : ℕ} :
    (x * BLOCK_SIZE : Int) < s.fileSize (f.node 0) ↔ x < f.n := by
  have hn := h.blocks
  rw [h.fileSize]
  simp only [BLOCK_SIZE] at hn ⊢
  omega

theorem Stored.reaches_iff (h : Stored s f) {k : ℕ} : s.Reaches (f.node 0) k ↔ k < f.len := by
  have hn := h.blocks
  have hlen := h.len
  rw [World.Reaches, h.fileSize]
  simp only [BLOCK_SIZE, NDIRECT] at hn hlen ⊢
  omega

theorem Stored.dataAt (h : Stored s f) {m : ℕ} (hm : m < f.n) :
    s.dataAt (f.node 0) m = f.data m := by
  have henough := h.rep.enough
  have hd := h.rep.data m hm
  simp only [NDIRECT] at henough hd
  rw [World.dataAt, NDIRECT, h.nodeAt (by omega), hd]

/-- What a file lists is marked. -/
theorem Stored.listed_subset (h : Stored s f) {j m : ℕ} : s.listed (f.node 0) j m ⊆ s.used := by
  have hown : ∀ b ∈ s.listed (f.node 0) j m, b ∈ f.own := by
    rintro b ⟨hb, ⟨k, -, hk, rfl⟩ | ⟨x, -, hx, rfl⟩⟩
    · rw [h.reaches_iff] at hk
      rw [h.nodeAt hk]
      exact Shape.node_own hk
    · rw [h.lt_n_iff] at hx
      rw [h.dataAt hx] at hb ⊢
      refine Shape.data_own hx fun h0 => ?_
      rw [h0] at hb
      exact absurd hb (by decide)
  exact fun b hb => ⟨(h.rep.own_range (hown b hb)).2, h.marked b (hown b hb)⟩

variable {buf : Bytes}

/-- **`write_file` with a shorter content.** -/
theorem wp_write_file_shorter (h : Stored s f) (hbuf : buf.length < (s.inode (f.node 0)).size.toNat)
    {Q : Unit → World → Prop}
    (hQ : ∀ s', s'.used = s.used \ s.dropped (f.node 0) (inodesFor buf.length)
      ((buf.length + 511) / BLOCK_SIZE) → Q () s') :
    Prog.wp (write_file (f.node 0) buf buf.length) Q E s := by
  have hlt := (h.rep.node_lt 0 h.rep.pos).2
  simp only [write_file, Prog.wp_bind]
  refine wp_get_inode hlt ?_
  rw [wp_deref, h.toInt_size]
  refine wp_writeLoop_inside (j := 0) h (.refl s) ⟨rfl, rfl, rfl, Nat.zero_le _⟩ rfl (by omega)
    fun s₁ p m hm hs₁ hp => ?_
  have hpos := hp.pos
  have hreal := hp.real
  have hn := h.blocks
  have hlen := h.len
  simp only [BLOCK_SIZE, NDIRECT] at hn hlen
  have hm : m = (buf.length + 511) / 512 := by omega
  have hc : (m - 1) / 100 + 1 = inodesFor buf.length := by
    unfold inodesFor
    omega
  have hj : (m - 1) / 100 < f.len := by omega
  have hnode := h.nodeAt hj
  rw [← h.fileSize]
  refine wp_shrinkLoop_dropped (i := f.node 0) (j := (m - 1) / 100) (fun y => ?_) hpos hreal
    (fun hr => ?_) fun s₂ hs₂ => ?_
  · rw [hp.inode, hnode]
  · have hnext := h.reaches_iff.mp hr
    have hrange := (h.rep.node_lt _ hnext).2
    rw [h.nodeAt hnext]
    exact ⟨hrange, by rw [hs₁.inode _ hrange, h.rep.chained _ hnext (Nat.succ_pos _)]⟩
  · refine wp_put_inode (by rw [hp.node]; exact (h.rep.node_lt _ hj).2) (wp_get_inode hlt ?_)
    rw [wp_deref]
    refine wp_put_inode hlt (hQ _ ?_)
    have hused : s₂.used = s.used \ s.dropped (f.node 0) (inodesFor buf.length)
        ((buf.length + 511) / BLOCK_SIZE) := by
      rw [← hs₁.used, ← hc, BLOCK_SIZE, ← hm]
      exact hs₂.used
    rw [World.used_putInode, ← hused]
    exact World.used_putInode

end Shorter

/-! ## Truncation -/

/-- Writing `buf` over a file frees exactly its tail: the data blocks behind the new end, and
the inodes of the chain that are not needed any more, with their data blocks. Over it all,
`free_inode` frees the same and the inode itself. -/
structure TruncatesTail (s : World) (i : UInt32) (buf : Bytes) : Prop where
  tail : ∃ w, (write_file i buf buf.length).run s = .done () w ∧
    w.used = s.used \ s.listed i (inodesFor buf.length) ((buf.length + 511) / BLOCK_SIZE)
  empty : buf = [] → ∃ w w', (write_file i buf buf.length).run s = .done () w ∧
    (free_inode i).run s = .done () w' ∧ w'.used = w.used \ {i.toNat + 11}

/-- Behind the inodes that `n` bytes need there is at most one, and it has no data blocks. -/
def World.NoChainBehind (s : World) (i : UInt32) (n : ℕ) : Prop :=
  s.fileSize i ≤ (NDIRECT * BLOCK_SIZE * (inodesFor n + 1) : ℕ) ∧
    ∀ x : ℕ, NDIRECT * inodesFor n ≤ x → (x * BLOCK_SIZE : Int) < s.fileSize i → s.dataAt i x = 0

section Truncate

variable {s : World} {f : Shape} {i : UInt32} {n m : ℕ} {buf : Bytes}

theorem World.NoChainBehind.dropped_eq (h : s.NoChainBehind i n) :
    s.dropped i (inodesFor n) m = s.listed i (inodesFor n) m := by
  refine Set.Subset.antisymm World.dropped_subset ?_
  rintro b ⟨hb, ⟨k, hk, hr, he⟩ | ⟨x, hx, hs, he⟩⟩
  · -- the inode is the one behind the last that is needed
    have hpos : 0 < inodesFor n := Nat.lt_of_lt_of_le Nat.one_pos (Nat.le_max_left ..)
    obtain rfl : k = inodesFor n := by
      have hle := h.1
      rcases hr with h0 | hlt
      · omega
      · simp only [NDIRECT, BLOCK_SIZE] at hle hlt
        omega
    exact ⟨hb, .inl ⟨hr, he⟩⟩
  · by_cases hin : x < NDIRECT * inodesFor n
    · exact ⟨hb, .inr ⟨x, hx, hin, hs, he⟩⟩
    · rw [h.2 x (Nat.not_lt.mp hin) hs] at he
      rw [he] at hb
      exact absurd hb (by decide)

/-- What the loop does not come to is listed all the same. -/
theorem Stored.noChainBehind (h : Stored s f) (hm : m ≤ NDIRECT * inodesFor n)
    (hsub : s.listed (f.node 0) (inodesFor n) m ⊆ s.dropped (f.node 0) (inodesFor n) m) :
    s.NoChainBehind (f.node 0) n := by
  have hnode : ∀ k < f.len, INODE_START ≤ (f.node k).toNat + 11 := fun k hk =>
    (h.rep.own_range (Shape.node_own hk)).1
  -- the inodes, and the data blocks, that it comes to
  have hdrop : ∀ b ∈ s.dropped (f.node 0) (inodesFor n) m,
      (inodesFor n < f.len ∧ b = (f.node (inodesFor n)).toNat + 11) ∨
        ∃ x < f.n, x < NDIRECT * inodesFor n ∧ f.data x ≠ 0 ∧ b = (f.data x).toNat := by
    rintro b ⟨hb, ⟨hr, he⟩ | ⟨x, -, hx, hs, he⟩⟩
    · rw [h.reaches_iff] at hr
      exact .inl ⟨hr, h.nodeAt hr ▸ he⟩
    · rw [h.lt_n_iff] at hs
      rw [h.dataAt hs] at he
      refine .inr ⟨x, hs, hx, fun h0 => ?_, he⟩
      rw [he, h0] at hb
      exact absurd hb (by decide)
  constructor
  · by_contra hlong
    have hr : s.Reaches (f.node 0) (inodesFor n + 1) := by
      refine .inr ?_
      simp only [NDIRECT, BLOCK_SIZE] at hlong ⊢
      omega
    have hk := h.reaches_iff.mp hr
    have hin := hsub ⟨hnode _ hk, .inl ⟨inodesFor n + 1, Nat.le_succ _, hr, by rw [h.nodeAt hk]⟩⟩
    rcases hdrop _ hin with ⟨hlt, he⟩ | ⟨x, hx, -, h0, he⟩
    · have := h.rep.node_inj _ hk _ hlt (UInt32.toNat_inj.mp (Nat.add_right_cancel he))
      omega
    · exact h.rep.node_ne_data hk hx h0 he
  · intro x hx hs
    have hxn := h.lt_n_iff.mp hs
    rw [h.dataAt hxn]
    by_contra h0
    have hb := (h.rep.own_range (Shape.data_own hxn h0)).1
    have hin := hsub ⟨hb, .inr ⟨x, Nat.le_trans hm hx, hs, by rw [h.dataAt hxn]⟩⟩
    rcases hdrop _ hin with ⟨hlt, he⟩ | ⟨y, hy, hylt, -, he⟩
    · exact h.rep.node_ne_data hlt hxn h0 he.symm
    · have := h.rep.data_inj x hxn y hy (UInt32.toNat_inj.mp he) h0
      omega

/-- A file is truncated as it should be if nothing is behind the inodes that it keeps. -/
theorem Stored.truncatesTail_iff (h : Stored s f)
    (hbuf : buf.length < (s.inode (f.node 0)).size.toNat) :
    TruncatesTail s (f.node 0) buf ↔ s.NoChainBehind (f.node 0) buf.length := by
  obtain ⟨⟨⟩, w, hr, hw⟩ := Prog.wp_done (Q := fun _ w => w.used = s.used \
    s.dropped (f.node 0) (inodesFor buf.length) ((buf.length + 511) / BLOCK_SIZE))
    (wp_write_file_shorter h hbuf fun _ => id)
  constructor
  · intro ht
    obtain ⟨w', hr', hw'⟩ := ht.tail
    cases hr.symm.trans hr'
    refine h.noChainBehind (m := (buf.length + 511) / BLOCK_SIZE) ?_ fun b hb => ?_
    · unfold inodesFor
      simp only [BLOCK_SIZE, NDIRECT]
      omega
    · by_contra hnot
      have hin : b ∈ w.used := hw ▸ ⟨h.listed_subset hb, hnot⟩
      rw [hw'] at hin
      exact hin.2 hb
  · intro hno
    rw [hno.dropped_eq] at hw
    refine ⟨⟨w, hr, hw⟩, fun hnil => ?_⟩
    obtain ⟨⟨⟩, w', hr', hw'⟩ := Prog.wp_done (wp_free_inode (E := fun _ _ => False)
      (Q := fun _ w' => w'.used = s.used \ s.listed (f.node 0) 0 0)
      (fun _ k hk hout => hout (by
        have hlt := h.reaches_iff.mp hk
        rw [h.nodeAt hlt]
        exact (h.rep.node_lt k hlt).2)) fun _ _ hg => hg.used)
    refine ⟨w, w', hr, hr', ?_⟩
    subst hnil
    have hfirst : {b | INODE_START ≤ b ∧ b = (s.nodeAt (f.node 0) 0).toNat + 11} =
        {(f.node 0).toNat + 11} := by
      ext b
      exact ⟨fun hb => hb.2, fun hb => ⟨hb ▸ (h.rep.own_range (Shape.node_own h.rep.pos)).1, hb⟩⟩
    rw [hw', hw, ← World.listed_node (.inl rfl), hfirst, Set.sdiff_sdiff, Set.union_comm]
    rfl

/-- **Truncation frees exactly the tail** if nothing is behind the inodes that the file keeps. -/
theorem truncates_iff {st : State} (h : Reachable Init Step st) (hi : i ∈ st.live)
    (hlt : i.toNat < INODE_NUM) (hbuf : buf.length < (st.world.inode i).size.toNat) :
    TruncatesTail st.world i buf ↔ st.world.NoChainBehind i buf.length := by
  obtain ⟨F, hF⟩ := inv_of_reachable h
  have hroot := hF.root i hi hlt
  rw [← hroot] at hbuf ⊢
  exact (hF.stored i hi hlt).truncatesTail_iff hbuf

/-- File 5 with two bytes in it. -/
def hiFile : State := ⟨((write_file 5 [104, 105] 2).run twoFiles.world).state, [5, 1]⟩

theorem reachable_hiFile : Reachable Init Step hiFile := by
  have hr : (write_file 5 [104, 105] 2).run twoFiles.world = .done () hiFile.world :=
    Prog.Outcome.eq_done (by decide +kernel)
  exact .next reachable_twoFiles (.write_file (by decide) (by decide) hr)

/-- The second byte goes. -/
theorem truncates_iff_byte : TruncatesTail hiFile.world 5 [104] := by
  have hsize : (hiFile.world.inode 5).size = 2 := by decide +kernel
  have hfile : hiFile.world.fileSize 5 = 2 := by
    rw [World.fileSize, hsize]
    rfl
  refine (truncates_iff reachable_hiFile (by decide) (by decide) (by rw [hsize]; decide)).mpr
    ⟨by rw [hfile]; decide, fun x hx hs => ?_⟩
  rw [hfile] at hs
  simp only [BLOCK_SIZE] at hs
  simp only [inodesFor, NDIRECT, List.length_singleton] at hx
  omega

/-- File 5 with 201 blocks of zeros, in three inodes. -/
def longFile : State :=
  ⟨((write_file 5 (List.replicate 102401 0) 102401).run twoFiles.world).state, [5, 1]⟩

/-- The inode region has room for two more. -/
theorem two_le_inodesLeft : 2 ≤ twoFiles.world.inodesLeft := by
  have hfree : twoFiles.world.free 24 ∧ twoFiles.world.free 32 := by decide +kernel
  calc 2 = ({24, 32} : Finset ℕ).card := rfl
    _ ≤ _ := Finset.card_le_card fun r hr => ?_
  simp only [Finset.mem_insert, Finset.mem_singleton] at hr
  refine Finset.mem_filter.mpr ?_
  rcases hr with rfl | rfl
  · exact ⟨by decide, hfree.1, by decide⟩
  · exact ⟨by decide, hfree.2, by decide⟩

theorem longFile_stored : Reachable Init Step longFile ∧
    ∃ g, Stored longFile.world g ∧ g.node 0 = 5 ∧ (longFile.world.inode 5).size.toNat = 102401 := by
  obtain ⟨F, hF⟩ := inv_of_reachable reachable_twoFiles
  have hi : (5 : UInt32) ∈ twoFiles.live := by decide
  have hroot := hF.root 5 hi (by decide)
  have hsize : (twoFiles.world.inode 5).size = 0 := by decide +kernel
  have hlen : (List.replicate 102401 (0 : UInt8)).length = 102401 := List.length_replicate ..
  have hbuf : (List.replicate 102401 (0 : UInt8)).length < 2 ^ 31 := by
    rw [hlen]
    decide
  have hwp := wp_write_file (E := fun _ _ => False)
    (Q := fun _ w => ∃ g, Written twoFiles.world (F 5) (List.replicate 102401 0) g w)
    (hF.stored 5 hi (by decide)) hbuf (fun g w hw => ⟨g, hw⟩) fun _ _ _ _ hno => by
      have hleft := two_le_inodesLeft
      have hno : twoFiles.world.inodesLeft < inodesFor (List.replicate 102401 (0 : UInt8)).length -
          inodesFor (twoFiles.world.inode ((F 5).node 0)).size.toNat := hno
      rw [hroot, hsize, hlen] at hno
      exact absurd hno (by simp only [inodesFor]; omega)
  rw [hroot, hlen] at hwp
  obtain ⟨⟨⟩, w, hr, g, hw⟩ := Prog.wp_done hwp
  have hlong : longFile = ⟨w, [5, 1]⟩ := by
    unfold longFile
    rw [show (102401 : Int) = (102401 : ℕ) from rfl, hr]
    rfl
  have hnode : g.node 0 = 5 := hw.root.trans hroot
  rw [hlong]
  refine ⟨.next reachable_twoFiles
    (.write_file hi (by rw [hlen]; decide) (by rw [hlen]; exact hr)), g, hw.stored, hnode, ?_⟩
  rw [← hnode, hw.size, hlen]

/-- The third inode of the file is not given back when its content is overwritten with nothing. -/
theorem truncate_leaves : Reachable Init Step longFile ∧ 5 ∈ longFile.live ∧
    (longFile.world.inode 5).size.toNat = 102401 ∧ ¬ TruncatesTail longFile.world 5 [] := by
  obtain ⟨hreach, g, hg, hnode, hsize⟩ := longFile_stored
  refine ⟨hreach, by decide, hsize, fun ht => ?_⟩
  rw [← hnode] at ht hsize
  have hle := ((hg.truncatesTail_iff (by rw [hsize]; decide)).mp ht).1
  rw [hg.fileSize, hsize] at hle
  exact absurd hle (by decide)

end Truncate

end Yfs.Storage
