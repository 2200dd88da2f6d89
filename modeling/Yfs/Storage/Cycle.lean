import Yfs.Storage.Release

/-!
# Chains that do not end

`free_inode` follows the pointers that it finds on the disk, and these may lead back to an
inode that it has been to. It ends all the same: every call takes what 100 blocks hold from the
size, and that size is what the next call finds, be it in another inode or in the same one
(`free_inode_ends`).
-/

namespace Yfs.Storage

open Extent (toInt)

section Fuel

variable {next next' : UInt32 → Code Unit} {n m : ℕ} {i : UInt32}

theorem freeLoop_upTo (h : ∀ i, Prog.UpTo .tooDeep (next i) (next' i)) (inode : Inode) (x : ℕ)
    (size : Int) : Prog.UpTo .tooDeep (freeLoop next inode x size)
    (freeLoop next' inode x size) := by
  unfold freeLoop
  split
  case isFalse => exact .refl _
  case isTrue hpos =>
    split
    case isTrue =>
      exact .bind (.refl _) fun _ => .bind (.refl _) fun _ => .bind (.refl _) fun _ => h _
    case isFalse => exact .bind (.refl _) fun _ => freeLoop_upTo h inode (x + 1) (size - BLOCK_SIZE)
termination_by size.toNat
decreasing_by
  simp only [BLOCK_SIZE]
  omega

/-- More calls than there are make no difference. -/
theorem freeInode_upTo (h : n ≤ m) : Prog.UpTo .tooDeep (freeInode n i) (freeInode m i) := by
  induction n generalizing m i with
  | zero => exact .fail _
  | succ n ih =>
    obtain ⟨m, rfl⟩ : ∃ m', m = m' + 1 := ⟨m - 1, by omega⟩
    refine .bind (.refl _) fun _ => .bind (.refl _) fun _ => .bind (.refl _) fun _ => ?_
    exact .bind (.refl _) fun _ => freeLoop_upTo (fun _ => ih (by omega)) _ _ _

end Fuel

section Ends

variable {s s' w : World} {i : UInt32} {c d n : ℕ}

/-- There is one number of calls only. -/
theorem Ended.unique (h : Ended s i c s') (h' : Ended s i d w) : c = d := by
  rcases Nat.lt_trichotomy c d with hlt | he | hlt
  · exact absurd (h'.visits c hlt) h.ends
  · exact he
  · exact absurd (h.visits d hlt) h'.ends

/-- A chain of `c` inodes has a size that needs them. -/
theorem Ended.le (h : Ended s i c s') : (c : Int) ≤ max 1 ((s.fileSize i + 51199) / 51200) := by
  rcases c with _ | _ | c
  · omega
  · omega
  · rcases (h.visits (c + 1) (Nat.lt_succ_self _)).1 with h0 | hlt
    · omega
    · simp only [NDIRECT, BLOCK_SIZE] at hlt
      omega

/-- The ways in which `free_inode` can end when it may call itself `n` times. -/
theorem run_freeInode (h : i.toNat < INODE_NUM) (n : ℕ) :
    (∃ c s', c ≤ n ∧ Ended s i c s' ∧
      (s.Reaches i c ∧ (freeInode n i).run s = .failed .nullDeref s' ∨
      ¬ s.Reaches i c ∧ (freeInode n i).run s = .done () s')) ∨
    (∀ k ≤ n, s.Visits i k) ∧ ∃ s', (freeInode n i).run s = .failed .tooDeep s' := by
  have hwp : Prog.wp (freeInode n i) (fun _ s' => ∃ c ≤ n, Ended s i c s' ∧ ¬ s.Reaches i c)
      (fun e s' => e = .tooDeep ∧ (∀ k ≤ n, s.Visits i k) ∨
        e = .nullDeref ∧ ∃ c ≤ n, Ended s i c s' ∧ s.Reaches i c) s :=
    wp_freeInode_walk (.root h) (fun s' hv => .inl ⟨rfl, Nat.zero_add n ▸ hv⟩)
      (fun c s' hc he hr => .inr ⟨rfl, c, Nat.zero_add n ▸ hc, he, hr⟩)
      fun c s' hc he hr => ⟨c, Nat.zero_add n ▸ hc, he, hr⟩
  rcases Prog.wp_cases hwp with ⟨⟨⟩, s', hrun, c, hc, he, hr⟩ |
    ⟨e, s', hrun, ⟨rfl, hv⟩ | ⟨rfl, c, hc, he, hr⟩⟩
  · exact .inl ⟨c, s', hc, he, .inr ⟨hr, hrun⟩⟩
  · exact .inr ⟨hv, s', hrun⟩
  · exact .inl ⟨c, s', hc, he, .inl ⟨hr, hrun⟩⟩

/-- It ends as it does with just the calls that there are. -/
theorem Ended.run_eq (he : Ended s i c s') (h : i.toNat < INODE_NUM) (hn : c ≤ n) :
    (freeInode n i).run s = (freeInode c i).run s := by
  refine (freeInode_upTo hn s).resolve_left ?_
  rintro ⟨w, hdeep⟩
  rcases run_freeInode (s := s) h c with ⟨d, w', -, -, ⟨-, hrun⟩ | ⟨-, hrun⟩⟩ | ⟨hv, -⟩
  · cases hdeep.symm.trans hrun
  · cases hdeep.symm.trans hrun
  · exact he.ends (hv c le_rfl)

/-- **`free_inode` ends on every disk**, in `c` calls of which there are at most
`max 1 ⌈size / 51200⌉`: it ends in the same way if it may call itself `c` times or more, and it
is not through with fewer. It ends with an error if the size says that there is more and the
chain goes on to a number out of range. Either way the bits that it has cleared are those of
the `c` inodes and of the data blocks in them. -/
theorem free_inode_ends (s : World) {i : UInt32} (h : i.toNat < INODE_NUM) :
    ∃ (c : ℕ) (s' : World), (c : Int) ≤ max 1 ((s.fileSize i + 51199) / 51200) ∧
      (∀ n, c ≤ n → (freeInode n i).run s = (free_inode i).run s) ∧
      (∀ n < c, ∃ w, (freeInode n i).run s = .failed .tooDeep w) ∧
      (¬ s.Reaches i c ∧ (free_inode i).run s = .done () s' ∨
        s.Reaches i c ∧ ¬ (s.nodeAt i c).toNat < INODE_NUM ∧
          (free_inode i).run s = .failed .nullDeref s') ∧
      (∀ k < c, (s.nodeAt i k).toNat < INODE_NUM) ∧
      s'.used = s.used \ s.before i c (NDIRECT * c) := by
  obtain ⟨c, s', hc, he, hrun⟩ := (run_freeInode (s := s) h _).resolve_right fun hv =>
    absurd (hv.1 _ (Nat.zero_add _).le).1 s.not_reaches_deep
  have henough : ∀ n, c ≤ n → (freeInode n i).run s = (free_inode i).run s := fun n hn =>
    (he.run_eq h hn).trans (he.run_eq h hc).symm
  have hfew : ∀ n < c, ∃ w, (freeInode n i).run s = .failed .tooDeep w := by
    intro n hn
    rcases run_freeInode (s := s) h n with ⟨d, w, hd, he', -⟩ | ⟨-, hw⟩
    · have := he.unique he'
      omega
    · exact hw
  refine ⟨c, s', he.le, henough, hfew, ?_, fun k hk => (he.visits k hk).2, he.gives.used⟩
  rcases hrun with ⟨hr, hrun⟩ | hdone
  · exact .inr ⟨hr, fun hlt => he.ends ⟨hr, hlt⟩, hrun⟩
  · exact .inl hdone

/-- A disk on which inode 1 is its own next inode, and 200 blocks long. -/
def selfLinked : World :=
  zeros.putInode 1 (({ Inode.ofBlock (.ofBytes []) with size := 102400 }).setBlock NDIRECT 1)

theorem nodeAt_selfLinked (k : ℕ) : selfLinked.nodeAt 1 k = 1 := by
  induction k with
  | zero => rfl
  | succ k ih =>
    rw [World.nodeAt, ih, selfLinked, World.inode_putInode, if_pos rfl,
      Inode.blocks_setBlock le_rfl, if_pos rfl]

/-- It is freed in two calls. -/
theorem free_inode_ends_self_linked : ∃ s', (free_inode 1).run selfLinked = .done () s' ∧
    (freeInode 2 1).run selfLinked = .done () s' := by
  obtain ⟨c, s', hc, henough, -, hrun, -, -⟩ := free_inode_ends selfLinked (i := 1) (by decide)
  have hsize : selfLinked.fileSize 1 = 102400 := by
    rw [World.fileSize, selfLinked, World.inode_putInode, if_pos rfl, Inode.setBlock_size]
    rfl
  rw [hsize] at hc
  rcases hrun with ⟨-, hrun⟩ | ⟨-, hout, -⟩
  · exact ⟨s', hrun, (henough 2 (by omega)).trans hrun⟩
  · rw [nodeAt_selfLinked] at hout
    exact absurd (by decide) hout

end Ends

end Yfs.Storage
