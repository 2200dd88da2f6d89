import Yfs.Storage.Release

/-!
# Freeing an inode that is free

`free_inode` clears the type of an inode and leaves its size and its pointers on the disk, and
it does not look at the type when it is called again. Then it gives back what the pointers say,
whoever has these blocks by now. It does nothing exactly if all of them are still free
(`free_again_iff`), and as long as no call does more the files keep out of each other's way.
-/

namespace Yfs.Storage

open Extent (Bytes toInt T_FILE)

/-- No inode is allocated under this number: its bit is clear, or its type is 0. -/
def World.NotAllocated (s : World) (i : UInt32) : Prop :=
  s.marked (i.toNat + 11) = false ∨ (s.inode i).type = 0

/-- All blocks that the inode lists are free, and its chain is in range. -/
def World.Gone (s : World) (i : UInt32) : Prop :=
  (∀ k, s.Reaches i k → (s.nodeAt i k).toNat < INODE_NUM) ∧ ∀ b ∈ s.listed i 0 0, b ∉ s.used

/-- The file has all its data blocks. One that could not be had is block 0, which is everybody's. -/
def World.Whole (s : World) (i : UInt32) : Prop :=
  ∀ m : ℕ, (m * BLOCK_SIZE : Int) < s.fileSize i → s.dataAt i m ≠ 0

/-- One call that returns. A number that is not in use may be freed if nothing is left there. -/
inductive FreeStep : State → State → Prop
  | call {s s' : State} : Step s s' → FreeStep s s'
  | again {s : State} {i : UInt32} {w : World} : s.world.Gone i →
      (remove_file i).run s.world = .done () w → FreeStep s ⟨w, s.live⟩

/-- A write to one file changes the content of no other file. -/
def WritesApart (st : State) : Prop :=
  ∀ j ∈ st.live, ∀ buf : Bytes, buf.length < 2 ^ 31 → ∀ w,
    (write_file j buf buf.length).run st.world = .done () w →
    ∀ k ∈ st.live, k ≠ j → st.world.Whole k →
      ((read_file k).run w).result = ((read_file k).run st.world).result

/-- Freeing the inode changes no bit, and after it writes keep apart, whatever is called. -/
def FreeIsNoOp (st : State) (i : UInt32) : Prop :=
  ∃ w, (remove_file i).run st.world = .done () w ∧ w.used = st.world.used ∧
    ∀ st', Reachable (· = ⟨w, st.live⟩) FreeStep st' → WritesApart st'

section Again

variable {st : State} {s w : World} {live : List UInt32} {F : UInt32 → Shape} {i : UInt32}
  {A : Set ℕ}

/-- To give back what is free changes no bit. -/
theorem GivesBack.used_eq_iff (h : GivesBack s A w) : w.used = s.used ↔ ∀ b ∈ A, b ∉ s.used := by
  rw [h.used, sdiff_eq_left, Set.disjoint_right]

/-- It is nobody's. -/
theorem GivesBack.frame (h : GivesBack s A w) (hA : ∀ b ∈ A, b ∉ s.used) : Frame s ∅ w := by
  refine ⟨fun b hb hlt hm => ?_, h.trace⟩
  have hmark : s.marked b = true := by simpa [Mine] using hm
  have hused : b ∈ s.used := ⟨hlt, hmark⟩
  refine ⟨?_, h.blocks b hb fun hbA => hA b hbA hused⟩
  rw [← h.used_eq_iff.mpr hA] at hused
  exact hused.2

/-- What `free_inode` does when it returns. -/
theorem run_free_inode (hr : (remove_file i).run s = .done () w) :
    (∀ k, s.Reaches i k → (s.nodeAt i k).toNat < INODE_NUM) ∧ GivesBack s (s.listed i 0 0) w :=
  Prog.wp_run (E := fun _ _ => True) (Q := fun _ w =>
    (∀ k, s.Reaches i k → (s.nodeAt i k).toNat < INODE_NUM) ∧ GivesBack s (s.listed i 0 0) w)
    (wp_free_inode (fun _ _ _ _ => trivial) fun _ hin hg => ⟨hin, hg⟩) hr

/-- It returns if the chain is in range. -/
theorem free_inode_returns (h : ∀ k, s.Reaches i k → (s.nodeAt i k).toNat < INODE_NUM) :
    ∃ w, (remove_file i).run s = .done () w := by
  obtain ⟨⟨⟩, w, hr, -⟩ := Prog.wp_done (Q := fun _ _ => True) (s := s) (p := remove_file i)
    (wp_free_inode (fun _ k hk hout => hout (h k hk)) fun _ _ _ => trivial)
  exact ⟨w, hr⟩

/-- To free what is gone keeps the files apart. -/
theorem Inv.freeStep {st' : State} (h : Inv st F) (hs : FreeStep st st') : ∃ F, Inv st' F := by
  cases hs with
  | call hs => exact h.step hs
  | @again i w hgone hr =>
    have hframe := (run_free_inode hr).2.frame hgone.2
    exact ⟨F, h.frame hframe (fun _ _ _ _ _ => id) (fun _ hj _ => hj) fun hnf =>
      h.inRange (mt hframe.full hnf)⟩

theorem inv_of_freed (h : Reachable Init FreeStep st) : ∃ F, Inv st F :=
  h.invariant (fun _ => Inv.init) fun _ _ ⟨_, hF⟩ => hF.freeStep

/-- Files that are apart are written apart. -/
theorem Inv.writesApart (h : Inv st F) : WritesApart st := by
  intro j hj buf hbuf w hr k hk hkj hwhole
  by_cases hlt : j.toNat < INODE_NUM
  case neg =>
    rw [write_file, run_get_inode hlt] at hr
    cases hr
  by_cases hlt' : k.toNat < INODE_NUM
  case neg =>
    rw [read_file, run_get_inode hlt', run_get_inode hlt']
    rfl
  have hroot := h.root k hk hlt'
  have hst := h.stored k hk hlt'
  have hdisj := h.disjoint k hk hlt' j hj hlt hkj
  have hwp := Storage.wp_write_file (E := fun _ _ => True) (h.stored j hj hlt) hbuf
    (Q := fun _ w => ∃ g, Written st.world (F j) buf g w) (fun g w hw => ⟨g, hw⟩)
    fun _ _ _ _ _ => trivial
  rw [h.root j hj hlt] at hwp
  obtain ⟨g, hw⟩ := Prog.wp_run hwp hr
  -- the blocks of `k` are not those that the call writes
  have hnz : ∀ m < (F k).n, (F k).data m ≠ 0 := by
    intro m hm
    rw [← hst.dataAt hm, hroot]
    exact hwhole m (hroot ▸ hst.lt_n_iff.mpr hm)
  have hread := (hst.frame hw.frame hdisj).1.result
  rw [hst.content_frame hw.frame hdisj (.inr hnz), ← hst.result, hroot] at hread
  exact hread

/-- The disk after a call. -/
def World.after {α : Type} (s : World) (p : Code α) : World := (p.run s).state

/-- File 5 has had two bytes, and is removed. -/
def removed : State := ⟨hiFile.world.after (remove_file 5), [1]⟩

theorem reachable_removed : Reachable Init Step removed := by
  have hr : (remove_file 5).run hiFile.world = .done () removed.world :=
    Prog.Outcome.eq_done (by decide +kernel)
  exact reachable_hiFile.next (.remove_file (by decide) hr)

/-- File 5 has had two bytes and is removed, and its block is in file 1 now; file 13 is empty. -/
def handedOn : State :=
  ⟨(((twoFiles.world.after (alloc_inode T_FILE)).after (write_file 5 [104, 105] 2)).after
    (remove_file 5)).after (write_file 1 [97, 98] 2), [13, 1]⟩

theorem reachable_handedOn : Reachable Init Step handedOn := by
  have h₁ : (alloc_inode T_FILE).run twoFiles.world = .done 13 _ :=
    Prog.Outcome.eq_done (by decide +kernel)
  have h₂ : (write_file 5 [104, 105] 2).run
      (twoFiles.world.after (alloc_inode T_FILE)) = .done () _ :=
    Prog.Outcome.eq_done (by decide +kernel)
  have h₃ : (remove_file 5).run ((twoFiles.world.after (alloc_inode T_FILE)).after
      (write_file 5 [104, 105] 2)) = .done () _ := Prog.Outcome.eq_done (by decide +kernel)
  have h₄ : (write_file 1 [97, 98] 2).run (((twoFiles.world.after (alloc_inode T_FILE)).after
      (write_file 5 [104, 105] 2)).after (remove_file 5)) = .done () handedOn.world :=
    Prog.Outcome.eq_done (by decide +kernel)
  exact .next (.next (.next (.next reachable_twoFiles (.alloc_inode h₁))
    (.write_file (by decide) (by decide) h₂)) (.remove_file (by decide) h₃))
    (.write_file (by decide) (by decide) h₄)

end Again

end Yfs.Storage
