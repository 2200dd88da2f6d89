import Yfs.Lib.Reachable
import Yfs.Storage.Write

/-!
# Runs of the inode layer

An `inode_manager` that is used: calls of `alloc_inode`, `write_file`, `read_file` and
`remove_file`, one after the other, on numbers that were handed out and not removed since.
In every state that can be reached the files have their blocks for themselves (`Inv`), also
when `alloc_block` has returned 0 before. Hence, as long as it has not: what is written is
read back, and no call on one file changes another (`write_read_round_trip`).
-/

namespace Yfs.Storage

open Extent (Bytes Attr toInt T_FILE)

/-- The disk, and the numbers that are in use. -/
structure State where
  world : World
  live : List UInt32

/-- One call that returns. -/
inductive Step : State → State → Prop
  | alloc_inode {s : State} {type i : UInt32} {w : World} :
      (alloc_inode type).run s.world = .done i w → Step s ⟨w, i :: s.live⟩
  | write_file {s : State} {i : UInt32} {buf : Bytes} {w : World} : i ∈ s.live →
      buf.length < 2 ^ 31 → (write_file i buf buf.length).run s.world = .done () w →
      Step s ⟨w, s.live⟩
  | read_file {s : State} {i : UInt32} {buf : Bytes} {w : World} : i ∈ s.live →
      (read_file i).run s.world = .done buf w → Step s ⟨w, s.live⟩
  | remove_file {s : State} {i : UInt32} {w : World} : i ∈ s.live →
      (remove_file i).run s.world = .done () w → Step s ⟨w, s.live.filter (· ≠ i)⟩

/-- A new `inode_manager`, with a disk of zeros. -/
def Init (s : State) : Prop :=
  ∃ clock memory i w, inode_manager.run { blocks := fun _ => .ofBytes [], clock, memory } =
    .done i w ∧ s = ⟨w, [i]⟩

/-- The files have their blocks for themselves. A number that is out of range is no file; it
is what `alloc_inode` returns when the disk is full. -/
structure Inv (s : State) (F : UInt32 → Shape) : Prop where
  root : ∀ i ∈ s.live, i.toNat < INODE_NUM → (F i).node 0 = i
  stored : ∀ i ∈ s.live, i.toNat < INODE_NUM → Stored s.world (F i)
  nonzero : ¬ s.world.full → ∀ i ∈ s.live, ∀ m < (F i).n, (F i).data m ≠ 0
  disjoint : ∀ i ∈ s.live, i.toNat < INODE_NUM → ∀ j ∈ s.live, j.toNat < INODE_NUM → i ≠ j →
    ∀ b ∈ (F i).own, b ∉ (F j).own
  inRange : ¬ s.world.full → ∀ i ∈ s.live, i.toNat < INODE_NUM

section Preservation

variable {s : World} {w : World} {live live' : List UInt32} {F : UInt32 → Shape} {O : Set ℕ}
  {i : UInt32} {g : Shape} {E : Fault → World → Prop}

/-- A call that owns no block of a file keeps it. -/
theorem Inv.frame (h : Inv ⟨s, live⟩ F) (hF : Frame s O w)
    (hO : ∀ j ∈ live', j.toNat < INODE_NUM → ∀ b ∈ (F j).own, b ∉ O)
    (hlive : ∀ j ∈ live', j.toNat < INODE_NUM → j ∈ live)
    (hrange : ¬ w.full → ∀ j ∈ live', j.toNat < INODE_NUM) : Inv ⟨w, live'⟩ F where
  root j hj hlt := h.root j (hlive j hj hlt) hlt
  stored j hj hlt := ((h.stored j (hlive j hj hlt) hlt).frame hF (hO j hj hlt)).1
  nonzero hw j hj := h.nonzero (mt hF.full hw) j (hlive j hj (hrange hw j hj))
  disjoint j hj hlt k hk hlt' := h.disjoint j (hlive j hj hlt) hlt k (hlive k hk hlt') hlt'
  inRange := hrange

/-- One file gets a new shape, of blocks that were its own or free. -/
theorem Inv.set (h : Inv ⟨s, live⟩ F) (hF : Frame s O w)
    (hO : ∀ j ∈ live, j.toNat < INODE_NUM → j ≠ i → ∀ b ∈ (F j).own, b ∉ O)
    (hg : Stored w g) (hroot : g.node 0 = i) (hmine : ∀ b ∈ g.own, Mine s O b)
    (hnz : ¬ w.full → ∀ m < g.n, g.data m ≠ 0) (hlive : ∀ j ∈ live', j = i ∨ j ∈ live) :
    Inv ⟨w, live'⟩ (Function.update F i g) := by
  have hi : i.toNat < INODE_NUM := hroot ▸ (hg.rep.node_lt 0 hg.rep.pos).2
  -- what is new for the file is not another's
  have hdisj : ∀ j ∈ live, j.toNat < INODE_NUM → j ≠ i → ∀ b ∈ (F j).own, b ∉ g.own := by
    intro j hj hlt hji b hb hbg
    rcases hmine b hbg with hbO | hfree
    · exact hO j hj hlt hji b hb hbO
    · have := (h.stored j hj hlt).marked b hb
      rw [hfree] at this
      cases this
  have hold : ∀ j ∈ live', j ≠ i → j ∈ live := fun j hj hji => (hlive j hj).resolve_left hji
  constructor
  case root =>
    intro j hj hlt
    by_cases hji : j = i
    · rw [hji, Function.update_self, hroot]
    · rw [Function.update_of_ne hji]
      exact h.root j (hold j hj hji) hlt
  case stored =>
    intro j hj hlt
    by_cases hji : j = i
    · rw [hji, Function.update_self]
      exact hg
    · rw [Function.update_of_ne hji]
      have hj' := hold j hj hji
      exact ((h.stored j hj' hlt).frame hF (hO j hj' hlt hji)).1
  case nonzero =>
    intro hw j hj
    by_cases hji : j = i
    · rw [hji, Function.update_self]
      exact hnz hw
    · rw [Function.update_of_ne hji]
      exact h.nonzero (mt hF.full hw) j (hold j hj hji)
  case disjoint =>
    intro j hj hlt k hk hlt' hjk b hb
    by_cases hji : j = i
    · have hki : k ≠ i := fun e => hjk (hji.trans e.symm)
      rw [hji, Function.update_self] at hb
      rw [Function.update_of_ne hki]
      exact fun hb' => hdisj k (hold k hk hki) hlt' hki b hb' hb
    · rw [Function.update_of_ne hji] at hb
      have hj' := hold j hj hji
      by_cases hki : k = i
      · rw [hki, Function.update_self]
        exact hdisj j hj' hlt hji b hb
      · rw [Function.update_of_ne hki]
        exact h.disjoint j hj' hlt k (hold k hk hki) hlt' hjk b hb
  case inRange =>
    intro hw j hj
    by_cases hji : j = i
    · rw [hji]
      exact hi
    · exact h.inRange (mt hF.full hw) j (hold j hj hji)

/-- A file without data. -/
def Shape.empty (i : UInt32) : Shape := ⟨fun _ => i, 1, fun _ => 0, 0⟩

theorem Shape.own_empty {b : ℕ} (h : b ∈ (Shape.empty i).own) : b = i.toNat + 11 := by
  rcases h with ⟨j, -, rfl⟩ | ⟨m, hm, -⟩
  · rfl
  · exact absurd hm (Nat.not_lt_zero m)

theorem NewInode.stored {type : UInt32} {new : List Event} (h : NewInode type s i w new) :
    Stored w (Shape.empty i) where
  rep :=
    { pos := Nat.one_pos
      enough := Nat.zero_le _
      node_lt := fun _ _ => ⟨h.pos, h.lt⟩
      node_inj := by
        intro j hj k hk _
        have hj' : j < 1 := hj
        have hk' : k < 1 := hk
        omega
      link := fun j hj => absurd hj (by show ¬ j + 1 < 1; omega)
      data := fun m hm => absurd hm (Nat.not_lt_zero m)
      data_lt := fun m hm => absurd hm (Nat.not_lt_zero m)
      data_inj := fun m hm => absurd hm (Nat.not_lt_zero m)
      chained := fun j hj h0 => absurd hj (by show ¬ j < 1; omega)
      first := h.first }
  marked b hb := by
    rw [Shape.own_empty hb]
    exact h.marked
  size := by
    show (w.inode i).size.toNat < 2 ^ 31
    rw [h.size]
    decide
  blocks := by
    show 0 = ((w.inode i).size.toNat + 511) / BLOCK_SIZE
    rw [h.size]
    rfl
  len := by
    show 1 = max 1 ((0 + 99) / NDIRECT)
    simp only [NDIRECT]
    omega

theorem Inv.wp_alloc_inode {type : UInt32} (h : Inv ⟨s, live⟩ F) :
    Prog.wp (alloc_inode type) (fun i w => ∃ F, Inv ⟨w, i :: live⟩ F) E s := by
  refine Storage.wp_alloc_inode (fun i w new hnew => ?_) fun hnone w hF htrace => ?_
  · refine ⟨_, h.set (i := i) hnew.frame (fun j _ _ _ b _ => id) hnew.stored rfl (fun b hb => ?_)
      (fun _ m hm => absurd hm (Nat.not_lt_zero m)) fun j hj => List.mem_cons.mp hj⟩
    rw [Shape.own_empty hb]
    exact .inr hnew.unmarked
  · -- the number that is returned is out of range
    refine ⟨F, h.frame hF (fun _ _ _ _ _ => id) (fun j hj hlt => ?_) fun hnf => ?_⟩
    · rcases List.mem_cons.mp hj with rfl | hj
      · exact absurd hlt (by decide)
      · exact hj
    · obtain ⟨new, htrace⟩ := htrace
      exact absurd ⟨.INODE, by simp [htrace]⟩ hnf

/-- A number that is out of range is used: `get_inode` returns `NULL`. -/
theorem run_get_inode (hi : ¬ i.toNat < INODE_NUM) {α : Type} {k : Inode → Code α} :
    (get_inode i >>= fun p => deref p >>= k).run s = .failed .nullDeref s := by
  rw [get_inode, if_pos (Nat.not_lt.mp hi)]
  rfl

theorem Inv.wp_write_file {buf : Bytes} (h : Inv ⟨s, live⟩ F) (hi : i ∈ live)
    (hlt : i.toNat < INODE_NUM) (hbuf : buf.length < 2 ^ 31)
    (hE : ∀ e w, s.inodesLeft < inodesFor buf.length - inodesFor (s.inode i).size.toNat → E e w) :
    Prog.wp (write_file i buf buf.length) (fun _ w => ∃ F, Inv ⟨w, live⟩ F) E s := by
  have hroot : (F i).node 0 = i := h.root i hi hlt
  rw [← hroot] at hE ⊢
  refine Storage.wp_write_file (h.stored i hi hlt) hbuf (fun g w hw => ?_) fun e w _ _ hno => ?_
  case refine_2 =>
    rw [hroot] at hE
    exact hE e w (hroot ▸ hno)
  exact ⟨_, h.set (i := i) hw.frame
    (fun j hj hlt' hji => h.disjoint j hj hlt' i hi hlt hji) hw.stored
    (hw.root.trans hroot) hw.mine
    (fun hnf => hw.nonzero hnf (h.nonzero (mt hw.frame.full hnf) i hi)) fun j hj => .inr hj⟩

/-- What `read_file` changes. -/
def World.touch (s : World) (i : UInt32) : World :=
  { s with clock := s.clock.tail }.putInode i { s.inode i with atime := s.clock.head }

/-- A file is the same when the `atime` of an inode has changed, of its own or of others. -/
theorem Stored.touch {f : Shape} (h : Stored s f) (hi : i.toNat < INODE_NUM) :
    Stored (s.touch i) f ∧ f.content (s.touch i) = f.content s := by
  have hino : ∀ j, (s.touch i).inode j =
      if j = i then { s.inode i with atime := s.clock.head } else s.inode j :=
    fun _ => World.inode_putInode
  have hsame : ∀ j, (∀ x, ((s.touch i).inode j).blocks x = (s.inode j).blocks x) ∧
      ((s.touch i).inode j).size = (s.inode j).size := by
    intro j
    rw [hino]
    split
    case isTrue he => rw [he]; exact ⟨fun _ => rfl, rfl⟩
    case isFalse => exact ⟨fun _ => rfl, rfl⟩
  constructor
  · refine ⟨h.rep.congr (fun j _ x => (hsame _).1 x) fun j _ _ => (hsame _).2,
      fun b hb => ?_, ?_, ?_, h.len⟩
    · rw [World.touch, World.marked_putInode (h.rep.own_range hb).2]
      exact h.marked b hb
    · rw [(hsame _).2]
      exact h.size
    · rw [(hsame _).2]
      exact h.blocks
  · have hdata : ∀ m ∈ List.range f.n,
        ((s.touch i).blocks (f.data m).toNat).bytes = (s.blocks (f.data m).toNat).bytes := by
      intro m hm
      -- data blocks are behind the inodes
      have hne : (f.data m).toNat ≠ i.toNat + 11 := by
        rcases h.rep.data_lt m (List.mem_range.mp hm) with h0 | ⟨hge, -⟩
        · rw [h0, UInt32.toNat_zero]
          omega
        · simp only [DATA_START, INODE_START, INODE_NUM] at hge hi
          omega
      rw [World.touch, World.putInode_blocks hne]
    rw [Shape.content, Shape.content, (hsame _).2, List.flatMap_congr hdata]

theorem World.full_touch : (s.touch i).full ↔ s.full := World.full_putInode

theorem Inv.touch (h : Inv ⟨s, live⟩ F) (hi : i.toNat < INODE_NUM) : Inv ⟨s.touch i, live⟩ F where
  root := h.root
  stored j hj hlt := ((h.stored j hj hlt).touch hi).1
  nonzero hnf := h.nonzero (mt World.full_touch.mpr hnf)
  disjoint := h.disjoint
  inRange hnf := h.inRange (mt World.full_touch.mpr hnf)

theorem Inv.wp_read_file (h : Inv ⟨s, live⟩ F) (hi : i ∈ live) (hlt : i.toNat < INODE_NUM) :
    Prog.wp (read_file i) (fun _ w => ∃ F, Inv ⟨w, live⟩ F) E s := by
  have hroot : (F i).node 0 = i := h.root i hi hlt
  have hlt' : ((F i).node 0).toNat < INODE_NUM := by rwa [hroot]
  rw [← hroot]
  exact Storage.wp_read_file (h.stored i hi hlt) ⟨F, h.touch hlt'⟩

theorem Inv.wp_remove_file (h : Inv ⟨s, live⟩ F) (hi : i ∈ live) (hlt : i.toNat < INODE_NUM) :
    Prog.wp (remove_file i) (fun _ w => ∃ F, Inv ⟨w, live.filter (· ≠ i)⟩ F) E s := by
  have hroot : (F i).node 0 = i := h.root i hi hlt
  have hold : ∀ j ∈ live.filter (· ≠ i), j ∈ live ∧ j ≠ i := by simp
  rw [← hroot]
  refine Storage.wp_remove_file (h.stored i hi hlt) fun w hF => ?_
  rw [hroot]
  refine ⟨F, h.frame hF (fun j hj hlt' => ?_) (fun j hj _ => (hold j hj).1) fun hnf j hj => ?_⟩
  · exact h.disjoint j (hold j hj).1 hlt' i hi hlt (hold j hj).2
  · exact h.inRange (mt hF.full hnf) j (hold j hj).1

/-- One call keeps the files apart. Calls with numbers that are out of range do not
return. -/
theorem Inv.step {st st' : State} {F : UInt32 → Shape} (h : Inv st F) (hs : Step st st') :
    ∃ F, Inv st' F := by
  cases hs with
  | alloc_inode hr => exact Prog.wp_run (E := fun _ _ => True) h.wp_alloc_inode hr
  | @write_file i _ _ hi hbuf hr =>
    by_cases hlt : i.toNat < INODE_NUM
    · exact Prog.wp_run (h.wp_write_file (E := fun _ _ => True) hi hlt hbuf fun _ _ _ => trivial) hr
    · rw [write_file, run_get_inode hlt] at hr
      cases hr
  | @read_file i _ _ hi hr =>
    by_cases hlt : i.toNat < INODE_NUM
    · exact Prog.wp_run (E := fun _ _ => True) (h.wp_read_file hi hlt) hr
    · rw [read_file, run_get_inode hlt] at hr
      cases hr
  | @remove_file i _ hi hr =>
    by_cases hlt : i.toNat < INODE_NUM
    · exact Prog.wp_run (E := fun _ _ => True) (h.wp_remove_file hi hlt) hr
    · rw [remove_file, free_inode, freeInode, run_get_inode hlt] at hr
      cases hr

theorem Inv.init {st : State} (h : Init st) : ∃ F, Inv st F := by
  obtain ⟨clock, memory, i, w, hr, rfl⟩ := h
  have h₀ : ∀ s, Inv ⟨s, []⟩ fun _ => Shape.empty 0 := fun s =>
    ⟨by simp, by simp, by simp, by simp, by simp⟩
  exact Prog.wp_run (E := fun _ _ => True) (h₀ _).wp_alloc_inode hr

/-- **Every state that can be reached has its files apart.** -/
theorem inv_of_reachable {st : State} (h : Reachable Init Step st) : ∃ F, Inv st F :=
  h.invariant (fun _ => Inv.init) fun _ _ ⟨_, hF⟩ => hF.step

end Preservation

/-! ## Round trip -/

section RoundTrip

variable {s : World} {i : UInt32} {f : Shape}

/-- What `read_file` returns. -/
def Reads (s : World) (i : UInt32) (buf : Bytes) : Prop := ∃ w, (read_file i).run s = .done buf w

/-- Nothing on the disk is different but the `atime` of inode `i`, at byte 8 of its block. -/
def OnlyAtime (i : UInt32) (s s' : World) : Prop :=
  ∀ b k, (s'.blocks b).byte k ≠ (s.blocks b).byte k → b = (IBLOCK i).toNat ∧ 8 ≤ k ∧ k < 12

theorem onlyAtime_putInode {clock : Stream' UInt32} {atime : UInt32} (hi : i.toNat < INODE_NUM) :
    OnlyAtime i s ({ s with clock }.putInode i { s.inode i with atime }) := by
  intro b k hne
  rw [IBLOCK_toNat hi]
  by_cases hb : b = i.toNat + 11
  · refine ⟨hb, ?_⟩
    rw [hb, World.putInode, World.write_blocks_self] at hne
    by_contra hk
    exact hne (Inode.byte_toBlock_atime (by omega))
  · rw [World.putInode_blocks hb] at hne
    exact absurd rfl hne

theorem Stored.read_file (h : Stored s f) : ∃ w, (Storage.read_file (f.node 0)).run s =
    .done (f.content s) w ∧ OnlyAtime (f.node 0) s w := by
  obtain ⟨buf, w, hr, rfl, hw⟩ := Prog.wp_done (Q := fun buf w => buf = f.content s ∧
    OnlyAtime (f.node 0) s w)
      (wp_read_file h ⟨rfl, onlyAtime_putInode (h.rep.node_lt 0 h.rep.pos).2⟩)
  exact ⟨w, hr, hw⟩

/-- `inum-1+INODE_START`. -/
theorem getattr_block (i : UInt32) :
    (i - 1 + .ofNat INODE_START).toNat = (i.toNat + 11) % 2 ^ 32 := by
  have h1 : (1 : UInt32).toNat = 1 := rfl
  have h12 : (UInt32.ofNat INODE_START).toNat = 12 := rfl
  rw [UInt32.toNat_add, UInt32.toNat_sub, h1, h12]
  omega

/-- It is the block of the inode too. -/
theorem run_getattr (hi : i.toNat + 11 < BLOCK_NUM) :
    (getattr i).run s = .done
      { type := (s.inode i).type.toInt32.toUInt32, size := (s.inode i).size,
        atime := (s.inode i).atime, mtime := (s.inode i).mtime, ctime := (s.inode i).ctime } s := by
  have hb := getattr_block i
  have hlt : (i - 1 + .ofNat INODE_START).toNat < BLOCK_NUM := by
    simp only [BLOCK_NUM] at hi ⊢
    omega
  have hi' : (i - 1 + .ofNat INODE_START).toNat = i.toNat + 11 := by
    simp only [BLOCK_NUM] at hi
    omega
  rw [getattr, read_block, if_pos hlt, hi']
  rfl

/-- **What is written is read back, and files do not get into each other's way**: in every
state that can be reached without `alloc_block` returning 0. -/
theorem write_read_round_trip {st : State} (h : Reachable Init Step st) (hst : ¬ st.world.full) :
    (∀ i ∈ st.live, ∃ buf w, (read_file i).run st.world = .done buf w ∧ OnlyAtime i st.world w) ∧
    ∀ i ∈ st.live, ∀ buf : Bytes, buf.length < 2 ^ 31 →
      ¬ ((write_file i buf buf.length).run st.world).state.full →
      ∃ w, (write_file i buf buf.length).run st.world = .done () w ∧
        Reads w i buf ∧
        (∃ a, (getattr i).run w = .done a w ∧ a.size.toNat = buf.length) ∧
        ∀ j ∈ st.live, j ≠ i → ∃ other, Reads st.world j other ∧ Reads w j other := by
  obtain ⟨F, hF⟩ := inv_of_reachable h
  have hlt := hF.inRange hst
  have hroot : ∀ i ∈ st.live, (F i).node 0 = i := fun i hi => hF.root i hi (hlt i hi)
  have hstored : ∀ i ∈ st.live, Stored st.world (F i) := fun i hi => hF.stored i hi (hlt i hi)
  constructor
  · intro i hi
    obtain ⟨w, hr, hw⟩ := (hstored i hi).read_file
    rw [hroot i hi] at hr hw
    exact ⟨_, w, hr, hw⟩
  · intro i hi buf hbuf hspace
    have hwp := wp_write_file (E := fun _ w => w.full) (hstored i hi) hbuf
      (Q := fun _ w => ∃ g, Written st.world (F i) buf g w) (fun g w hw => ⟨g, hw⟩)
      fun _ _ hf _ _ => hf
    rw [hroot i hi] at hwp
    rcases Prog.wp_cases hwp with ⟨⟨⟩, w, hr, g, hw⟩ | ⟨e, w, hr, hf⟩
    case inr =>
      rw [hr] at hspace
      exact absurd hf hspace
    rw [hr] at hspace
    have hnf : ¬ w.full := hspace
    have hg : g.node 0 = i := hw.root.trans (hroot i hi)
    refine ⟨w, hr, ?_, ?_, fun j hj hji => ⟨(F j).content st.world, ?_, ?_⟩⟩
    · obtain ⟨w', hr', -⟩ := hw.stored.read_file
      rw [hg, hw.content (hw.nonzero hnf (hF.nonzero hst i hi))] at hr'
      exact ⟨w', hr'⟩
    · have hi' := hw.stored.rep.node_lt 0 hw.stored.rep.pos
      have hsize := hw.size
      rw [hg] at hi' hsize
      refine ⟨_, run_getattr ?_, hsize⟩
      simp only [INODE_NUM, BLOCK_NUM] at hi' ⊢
      omega
    · obtain ⟨w', hr', -⟩ := (hstored j hj).read_file
      rw [hroot j hj] at hr'
      exact ⟨w', hr'⟩
    · have hdisj := hF.disjoint j hj (hlt j hj) i hi (hlt i hi) hji
      obtain ⟨w', hr', -⟩ := ((hstored j hj).frame hw.frame hdisj).1.read_file
      rw [hroot j hj,
        (hstored j hj).content_frame hw.frame hdisj (.inr (hF.nonzero hst j hj))] at hr'
      exact ⟨w', hr'⟩

/-- A disk of zeros, in a process whose memory is zeros too, at time 0. -/
def zeros : World where
  blocks _ := .ofBytes []
  clock := .const 0
  memory := .const (.ofBytes [])

/-- A new disk and one more file on it. -/
def twoFiles : State :=
  ⟨((alloc_inode T_FILE).run (inode_manager.run zeros).state).state, [5, 1]⟩

theorem reachable_twoFiles : Reachable Init Step twoFiles := by
  have h₁ : inode_manager.run zeros = .done 1 (inode_manager.run zeros).state :=
    Prog.Outcome.eq_done (by decide +kernel)
  have h₂ : (alloc_inode T_FILE).run (inode_manager.run zeros).state = .done 5 twoFiles.world :=
    Prog.Outcome.eq_done (by decide +kernel)
  exact .next (.start ⟨_, _, 1, _, h₁, rfl⟩) (.alloc_inode h₂)

/-- Space is left. -/
theorem twoFiles_space : twoFiles.world.trace.all (· matches .write _) ∧
    ((write_file 5 [104, 105] 2).run twoFiles.world).state.trace.all (· matches .write _) := by
  decide +kernel

theorem World.not_full (h : s.trace.all (· matches .write _)) : ¬ s.full := by
  rintro ⟨type, ht⟩
  have := List.all_eq_true.mp h _ ht
  cases this

theorem round_trip_hi : ∃ w, (write_file 5 [104, 105] 2).run twoFiles.world = .done () w ∧
    Reads w 5 [104, 105] := by
  obtain ⟨w, hr, hw, -⟩ := (write_read_round_trip reachable_twoFiles
    (World.not_full twoFiles_space.1)).2 5 (by decide) [104, 105] (by decide)
    (World.not_full twoFiles_space.2)
  exact ⟨w, hr, hw⟩

end RoundTrip

end Yfs.Storage
