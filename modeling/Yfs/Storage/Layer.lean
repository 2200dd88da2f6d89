import Yfs.Storage.Space

/-!
# The disk as an inode layer

What `extent_server` relies on is stated in `LawfulInodes`. Here `inode_manager` on its disk
is shown to be such a layer: with the numbers in use, and as long as `alloc_block` has not
returned 0. A call that makes it return 0 is refused, and so is one with a number that is not
in use; the server makes no such call as long as its clients do not.
-/

namespace Yfs.Storage

open Extent (Bytes Attr File InodeLayer LawfulInodes toInt)

instance (s : World) : Decidable s.full :=
  decidable_of_iff (s.trace.any (· matches .noSpace _)) <| by
    rw [List.any_eq_true]
    constructor
    · rintro ⟨_ | type, hmem, h⟩
      · cases h
      · exact ⟨type, hmem⟩
    · rintro ⟨type, hmem⟩
      exact ⟨_, hmem, rfl⟩

/-- A disk with its files apart, on which space has not run out. -/
structure Disk where
  st : State
  apart : ∃ F, Inv st F
  space : ¬ st.world.full

namespace Disk

/-- The disk after a call that has returned, with the numbers that are in use then. -/
def after {α : Type} (live : α → List UInt32) (o : Prog.Outcome Fault World α)
    (h : ∀ a w, o = .done a w → ∃ F, Inv ⟨w, live a⟩ F) : Option (α × Disk) :=
  match o, h with
  | .done a w, h => if hw : w.full then none else some (a, ⟨⟨w, live a⟩, h a w rfl, hw⟩)
  | .failed _ _, _ | .blocked _, _ => none

variable {α : Type} {live : α → List UInt32} {o : Prog.Outcome Fault World α}
  {h : ∀ a w, o = .done a w → ∃ F, Inv ⟨w, live a⟩ F} {a : α} {t : Disk}

theorem of_after (ht : after live o h = some (a, t)) :
    o = .done a t.st.world ∧ t.st.live = live a := by
  unfold after at ht
  split at ht
  case h_1 b w h =>
    split at ht
    case isTrue => cases ht
    case isFalse =>
      cases ht
      exact ⟨rfl, rfl⟩
  case h_2 => cases ht
  case h_3 => cases ht

theorem after_done {w : World} (ho : o = .done a w) (hw : ¬ w.full) :
    after live o h = some (a, ⟨⟨w, live a⟩, h a w ho, hw⟩) := by
  subst ho
  simp only [after, dif_neg hw]

/-- A call that returns is refused only if space has run out. -/
theorem full_of_none {w : World} (hn : after live o h = none) (ho : o = .done a w) : w.full := by
  by_contra hw
  rw [after_done ho hw] at hn
  cases hn

/-- The file with this number. -/
def file (t : Disk) (i : UInt32) : Option File :=
  if i ∈ t.st.live then
    some ⟨(t.st.world.inode i).type, ((read_file i).run t.st.world).result.getD []⟩
  else none

theorem file_eq {f : Shape} {i : UInt32} (hf : Stored t.st.world f) (hroot : f.node 0 = i)
    (hi : i ∈ t.st.live) : t.file i = some ⟨(t.st.world.inode i).type, f.content t.st.world⟩ := by
  have hread := hf.result
  rw [hroot] at hread
  rw [file, if_pos hi, hread]
  rfl

theorem file_none {i : UInt32} (hi : i ∉ t.st.live) : t.file i = none := if_neg hi

end Disk

/-- `inode_manager`, for the server. -/
def layer : InodeLayer Disk where
  alloc_inode ty t :=
    Disk.after (· :: t.st.live) ((alloc_inode ty).run t.st.world) fun _ _ hr =>
      let ⟨_, hF⟩ := t.apart
      Prog.wp_run (E := fun _ _ => True) hF.wp_alloc_inode hr
  write_file i buf size t :=
    if hi : i ∈ t.st.live ∧ buf.length < 2 ^ 31 ∧ size = buf.length then
      (Disk.after (fun _ => t.st.live) ((write_file i buf size).run t.st.world) fun _ _ hr =>
        let ⟨_, hF⟩ := t.apart
        hF.step (.write_file hi.1 hi.2.1 (hi.2.2 ▸ hr))).map (·.2)
    else none
  read_file i t :=
    if hi : i ∈ t.st.live then
      Disk.after (fun _ => t.st.live) ((read_file i).run t.st.world) fun _ _ hr =>
        let ⟨_, hF⟩ := t.apart
        hF.step (.read_file hi hr)
    else none
  getattr i t :=
    if i ∈ t.st.live then (((getattr i).run t.st.world).result).map (·, t) else none
  remove_file i t :=
    if hi : i ∈ t.st.live then
      (Disk.after (fun _ => t.st.live.filter (· ≠ i)) ((remove_file i).run t.st.world) fun _ _ hr =>
        let ⟨_, hF⟩ := t.apart
        hF.step (.remove_file hi hr)).map (·.2)
    else none

section Laws

variable {t t' : Disk} {i j : UInt32} {f : File} {F : UInt32 → Shape}

/-- The files of a disk, by their shapes. -/
theorem Disk.exists_shapes (t : Disk) : ∃ F, Inv t.st F ∧ ∀ i ∈ t.st.live,
    Stored t.st.world (F i) ∧ (F i).node 0 = i ∧ (∀ m < (F i).n, (F i).data m ≠ 0) ∧
      t.file i = some ⟨(t.st.world.inode i).type, (F i).content t.st.world⟩ := by
  obtain ⟨F, hF⟩ := t.apart
  refine ⟨F, hF, fun i hi => ?_⟩
  have hlt := hF.inRange t.space i hi
  have hst := hF.stored i hi hlt
  have hroot := hF.root i hi hlt
  exact ⟨hst, hroot, hF.nonzero t.space i hi, Disk.file_eq hst hroot hi⟩

/-- What a call does not own stays as it is: the inode, and the file. -/
theorem Disk.inode_frame {O : Set ℕ} {g : Shape} (hst : Stored t.st.world g) (hroot : g.node 0 = j)
    (hF : Frame t.st.world O t'.st.world) (hO : ∀ b ∈ g.own, b ∉ O) :
    t'.st.world.inode j = t.st.world.inode j := by
  rw [← hroot, World.inode, World.inode, (hst.frame hF hO).2 _ (Shape.node_own hst.rep.pos)]

@[inherit_doc Disk.inode_frame]
theorem Disk.file_frame {O : Set ℕ} {g : Shape} (hst : Stored t.st.world g) (hroot : g.node 0 = j)
    (h0 : ∀ m < g.n, g.data m ≠ 0) (hF : Frame t.st.world O t'.st.world) (hO : ∀ b ∈ g.own, b ∉ O)
    (hj : j ∈ t.st.live) (hj' : j ∈ t'.st.live) : t'.file j = t.file j := by
  have hst' := (hst.frame hF hO).1
  have hinode := Disk.inode_frame hst hroot hF hO
  rw [Disk.file_eq hst' hroot hj', Disk.file_eq hst hroot hj, hinode,
    hst.content_frame hF hO (.inr h0)]

theorem live_of_file (h : t.file i = some f) : i ∈ t.st.live := by
  by_contra hi
  rw [Disk.file_none hi] at h
  cases h

theorem file_ne_none : t.file i ≠ none ↔ i ∈ t.st.live := by
  simp [Disk.file]

/-- Numbers in use are in range. -/
theorem Disk.live_range (hi : i ∈ t.st.live) : 0 < i.toNat ∧ i.toNat < INODE_NUM := by
  obtain ⟨F, hF, hfiles⟩ := t.exists_shapes
  obtain ⟨hst, hroot, -, -⟩ := hfiles i hi
  have := hst.rep.node_lt 0 hst.rep.pos
  rwa [hroot] at this

/-- The content is as long as the size says. -/
theorem Stored.length_content {s : World} {g : Shape} (h : Stored s g) :
    (g.content s).length = (s.inode (g.node 0)).size.toNat := by
  have hlen : (g.front s g.n).length = BLOCK_SIZE * g.n := Shape.length_front g.n
  have hn := h.blocks
  simp only [BLOCK_SIZE] at hlen hn
  show ((g.front s g.n).take _).length = _
  rw [List.length_take, hlen]
  omega

/-- An inode that the disk has made. -/
theorem Disk.of_alloc {ty : UInt32} (h : layer.alloc_inode ty t = some (i, t')) :
    (alloc_inode ty).run t.st.world = .done i t'.st.world ∧ t'.st.live = i :: t.st.live ∧
      ∃ new, NewInode ty t.st.world i t'.st.world new := by
  obtain ⟨hr, hlive⟩ := Disk.of_after h
  refine ⟨hr, hlive, ?_⟩
  have hwp : Prog.wp (alloc_inode ty) (fun i w => w.full ∨ ∃ new, NewInode ty t.st.world i w new)
      (fun _ _ => False) t.st.world := by
    refine wp_alloc_inode (fun i w new hnew => .inr ⟨new, hnew⟩) fun _ w _ ⟨new, htrace⟩ => .inl ?_
    exact ⟨.INODE, by simp [htrace]⟩
  exact (Prog.wp_run hwp hr).resolve_left t'.space

/-- A file that the disk has written. -/
theorem Disk.of_write {buf : Bytes} (h : layer.write_file i buf (toInt buf.length) t = some t') :
    i ∈ t.st.live ∧ buf.length < 2 ^ 31 ∧ t'.st.live = t.st.live ∧
      (write_file i buf buf.length).run t.st.world = .done () t'.st.world := by
  simp only [layer, Option.dite_none_right_eq_some, Option.map_eq_some_iff, Prod.exists,
    exists_eq_right] at h
  obtain ⟨⟨hi, hbuf, hsize⟩, ⟨⟩, h⟩ := h
  obtain ⟨hr, hlive⟩ := Disk.of_after h
  exact ⟨hi, hbuf, hlive, hsize ▸ hr⟩

/-- How a file is stored then. -/
theorem Disk.written {buf : Bytes} {g : Shape} (hst : Stored t.st.world g) (hroot : g.node 0 = i)
    (h : layer.write_file i buf (toInt buf.length) t = some t') :
    ∃ g', Written t.st.world g buf g' t'.st.world := by
  obtain ⟨-, hbuf, -, hr⟩ := Disk.of_write h
  rw [← hroot] at hr
  exact Prog.wp_run (Q := fun _ w => ∃ g', Written t.st.world g buf g' w) (E := fun _ _ => True)
    (wp_write_file hst hbuf (fun g' w hw => ⟨g', hw⟩) fun _ _ _ _ _ => trivial) hr

theorem alloc_inode_lawful {ty : UInt32} (h : layer.alloc_inode ty t = some (i, t')) :
    i.toNat < 2 ^ 31 ∧ i ≠ 0 ∧ t.file i = none ∧
      ∀ j, t'.file j = if j = i then some ⟨ty.toUInt16.toInt16, []⟩ else t.file j := by
  obtain ⟨-, hlive, new, hnew⟩ := Disk.of_alloc h
  obtain ⟨F, hF, hfiles⟩ := t.exists_shapes
  have hlt := hnew.lt
  have hdead : i ∉ t.st.live := by
    intro hi
    obtain ⟨hst, hroot, -, -⟩ := hfiles i hi
    have hmark := hst.marked _ (Shape.node_own hst.rep.pos)
    rw [hroot, hnew.unmarked] at hmark
    cases hmark
  refine ⟨?_, ?_, Disk.file_none hdead, fun j => ?_⟩
  · simp only [INODE_NUM] at hlt
    omega
  · rintro rfl
    exact absurd hnew.pos (by decide)
  · by_cases hji : j = i
    · subst hji
      have hsize : (t'.st.world.inode ((Shape.empty j).node 0)).size = 0 := hnew.size
      have hroot : (Shape.empty j).node 0 = j := rfl
      rw [if_pos rfl, Disk.file_eq hnew.stored hroot (by simp [hlive]), hnew.type,
        Shape.content, hsize]
      rfl
    · rw [if_neg hji]
      by_cases hj : j ∈ t.st.live
      · obtain ⟨hst, hroot, h0, -⟩ := hfiles j hj
        exact Disk.file_frame hst hroot h0 hnew.frame (fun _ _ => id) hj (by simp [hlive, hj])
      · rw [Disk.file_none hj, Disk.file_none (by simp [hlive, hj, hji])]

theorem write_file_lawful {buf : Bytes} (hf : t.file i = some f)
    (h : layer.write_file i buf (toInt buf.length) t = some t') :
    ∀ j, t'.file j = if j = i then some { f with data := buf } else t.file j := by
  obtain ⟨hi, -, hlive, -⟩ := Disk.of_write h
  obtain ⟨F, hF, hfiles⟩ := t.exists_shapes
  obtain ⟨hst, hroot, h0, hfile⟩ := hfiles i hi
  obtain ⟨g, hw⟩ := Disk.written hst hroot h
  intro j
  by_cases hji : j = i
  · subst hji
    have hg : g.node 0 = j := hw.root.trans hroot
    have htype := hw.type
    rw [hg, hroot] at htype
    rw [hf] at hfile
    rw [if_pos rfl, Disk.file_eq hw.stored hg (hlive ▸ hi), htype,
      hw.content (hw.nonzero t'.space h0), Option.some.inj hfile]
  · rw [if_neg hji]
    by_cases hj : j ∈ t.st.live
    · obtain ⟨hst', hroot', h0', -⟩ := hfiles j hj
      exact Disk.file_frame hst' hroot' h0' hw.frame
        (hF.disjoint j hj (hF.inRange t.space j hj) i hi
        (hF.inRange t.space i hi) hji) hj (hlive ▸ hj)
    · rw [Disk.file_none hj, Disk.file_none (hlive ▸ hj)]

/-- A file that the disk has read. -/
theorem Disk.of_read {b : Bytes} {g : Shape} (hi : i ∈ t.st.live) (hst : Stored t.st.world g)
    (hroot : g.node 0 = i) (h : layer.read_file i t = some (b, t')) :
    b = g.content t.st.world ∧ t'.st.world = t.st.world.touch i ∧ t'.st.live = t.st.live := by
  simp only [layer, dif_pos hi] at h
  obtain ⟨hr, hlive⟩ := Disk.of_after h
  rw [← hroot] at hr
  have hwp := wp_read_file (E := fun _ _ => False)
    (Q := fun b w => b = g.content t.st.world ∧ w = t.st.world.touch (g.node 0)) hst ⟨rfl, rfl⟩
  obtain ⟨hb, hw⟩ := Prog.wp_run hwp hr
  rw [hroot] at hw
  exact ⟨hb, hw, hlive⟩

theorem read_file_lawful {b : Bytes} (hf : t.file i = some f)
    (h : layer.read_file i t = some (b, t')) : b = f.data ∧ t'.file = t.file := by
  have hi := live_of_file hf
  obtain ⟨F, hF, hfiles⟩ := t.exists_shapes
  obtain ⟨hst, hroot, -, hfile⟩ := hfiles i hi
  have hlt : i.toNat < INODE_NUM := hF.inRange t.space i hi
  obtain ⟨hb, hw, hlive⟩ := Disk.of_read hi hst hroot h
  rw [hf] at hfile
  refine ⟨by rw [hb, Option.some.inj hfile], funext fun j => ?_⟩
  by_cases hj : j ∈ t.st.live
  · obtain ⟨hst', hroot', -, hfile'⟩ := hfiles j hj
    obtain ⟨htouch, hcontent⟩ := hst'.touch hlt
    have htype : ((t.st.world.touch i).inode j).type = (t.st.world.inode j).type := by
      rw [World.touch, World.inode_putInode]
      split
      case isTrue he => rw [he]
      case isFalse => rfl
    rw [← hw] at htouch hcontent htype
    rw [Disk.file_eq htouch hroot' (hlive ▸ hj), hcontent, htype, hfile']
  · rw [Disk.file_none hj, Disk.file_none (hlive ▸ hj)]

theorem getattr_lawful {a : Attr} (hf : t.file i = some f) (h : layer.getattr i t = some (a, t')) :
    a.type = f.type.toInt32.toUInt32 ∧ a.size = .ofNat f.data.length ∧ t'.file = t.file := by
  have hi := live_of_file hf
  obtain ⟨F, hF, hfiles⟩ := t.exists_shapes
  obtain ⟨hst, hroot, -, hfile⟩ := hfiles i hi
  have hlt : i.toNat + 11 < BLOCK_NUM := by
    have := hF.inRange t.space i hi
    simp only [INODE_NUM, BLOCK_NUM] at this ⊢
    omega
  rw [hf] at hfile
  obtain rfl := Option.some.inj hfile
  simp only [layer, if_pos hi, run_getattr hlt, Prog.Outcome.result, Option.map_some,
    Option.some.injEq, Prod.mk.injEq] at h
  obtain ⟨rfl, rfl⟩ := h
  refine ⟨rfl, ?_, rfl⟩
  rw [hst.length_content, hroot, UInt32.ofNat_toNat]

theorem remove_file_lawful (hf : t.file i = some f) (h : layer.remove_file i t = some t') :
    ∀ j, t'.file j = if j = i then none else t.file j := by
  have hi := live_of_file hf
  simp only [layer, dif_pos hi, Option.map_eq_some_iff, Prod.exists, exists_eq_right] at h
  obtain ⟨⟨⟩, h⟩ := h
  obtain ⟨hr, hlive⟩ := Disk.of_after h
  obtain ⟨F, hF, hfiles⟩ := t.exists_shapes
  obtain ⟨hst, hroot, -, -⟩ := hfiles i hi
  have hframe : Frame t.st.world (F i).own t'.st.world := by
    rw [← hroot] at hr
    exact Prog.wp_run (Q := fun _ w => Frame t.st.world (F i).own w) (E := fun _ _ => False)
      (wp_remove_file hst fun _ => id) hr
  intro j
  by_cases hji : j = i
  · rw [if_pos hji, hji, Disk.file_none (by simp [hlive])]
  · rw [if_neg hji]
    by_cases hj : j ∈ t.st.live
    · obtain ⟨hst', hroot', h0', -⟩ := hfiles j hj
      exact Disk.file_frame hst' hroot' h0' hframe (hF.disjoint j hj (hF.inRange t.space j hj) i hi
        (hF.inRange t.space i hi) hji) hj (by simp [hlive, hj, hji])
    · rw [Disk.file_none hj, Disk.file_none (by simp [hlive, hj])]

/-- **The disk is an inode layer as the server needs it.** -/
def lawful : LawfulInodes layer where
  files := Disk.file
  alloc_ok := alloc_inode_lawful
  write_ok := write_file_lawful
  read_ok := read_file_lawful
  getattr_ok := getattr_lawful
  remove_ok := remove_file_lawful

/-! ## What is refused, and the first disk -/

/-- To read a file takes no space. -/
theorem Disk.read_some (hf : t.file i = some f) : ∃ b t', layer.read_file i t = some (b, t') := by
  have hi := live_of_file hf
  obtain ⟨F, hF, hfiles⟩ := t.exists_shapes
  obtain ⟨hst, hroot, -, -⟩ := hfiles i hi
  have hwp : Prog.wp (read_file ((F i).node 0)) (fun _ w => w = t.st.world.touch ((F i).node 0))
      (fun _ _ => False) t.st.world := wp_read_file hst rfl
  obtain ⟨b, w, hr, hw⟩ := Prog.wp_done hwp
  rw [hroot] at hr
  have hfull : ¬ w.full := fun h => t.space (World.full_touch.mp (hw ▸ h))
  simp only [layer, dif_pos hi]
  exact ⟨b, _, Disk.after_done hr hfull⟩

theorem Disk.getattr_some (hf : t.file i = some f) : ∃ a, layer.getattr i t = some (a, t) := by
  have hi := live_of_file hf
  obtain ⟨F, hF⟩ := t.apart
  have hlt : i.toNat + 11 < BLOCK_NUM := by
    have := hF.inRange t.space i hi
    simp only [INODE_NUM, BLOCK_NUM] at this ⊢
    omega
  simp [layer, hi, run_getattr hlt, Prog.Outcome.result]

/-- **Unless it is to write, the disk refuses nothing but a new inode for which there is no space**:
one of the two calls of `alloc_block` has returned 0. -/
theorem refused {N : Prop} (hN : ¬ N) (h : lawful.Refuses N t) :
    ∃ ty i w, (alloc_inode ty).run t.st.world = .done i w ∧ w.full := by
  rcases h with ⟨ty, hnone⟩ | ⟨i, f, hf, hread | hattr | ⟨hN', -⟩⟩
  · have hwp : Prog.wp (alloc_inode ty) (fun _ _ => True) (fun _ _ => False) t.st.world :=
      wp_alloc_inode (fun _ _ _ _ => trivial) fun _ _ _ _ => trivial
    obtain ⟨i, w, hr, -⟩ := Prog.wp_done hwp
    exact ⟨ty, i, w, hr, Disk.full_of_none hnone hr⟩
  · obtain ⟨b, t', hb⟩ := Disk.read_some hf
    rw [hread] at hb
    cases hb
  · obtain ⟨a, ha⟩ := Disk.getattr_some hf
    rw [hattr] at ha
    cases ha
  · exact absurd hN' hN

/-- The files of a new disk. -/
theorem Disk.file_init (h : Init t.st) (hlive : t.st.live = [1]) (i : UInt32) :
    t.file i = if i = 1 then some ⟨(Extent.T_DIR).toUInt16.toInt16, []⟩ else none := by
  obtain ⟨clock, memory, n, w, hr, hst⟩ := h
  obtain ⟨st, hapart, hspace⟩ := t
  subst hst
  cases hlive
  -- before the constructor there is no file at all
  have hinv : ∃ F, Inv ⟨{ blocks := fun _ => .ofBytes [], clock, memory }, []⟩ F :=
    ⟨fun _ => Shape.empty 0, by simp, by simp, by simp, by simp, by simp⟩
  have hfull : ¬ World.full { blocks := fun _ => .ofBytes [], clock, memory } := by
    rintro ⟨type, hmem⟩
    cases hmem
  have halloc : layer.alloc_inode Extent.T_DIR ⟨⟨_, []⟩, hinv, hfull⟩ =
      some (1, ⟨⟨w, [1]⟩, hapart, hspace⟩) := Disk.after_done hr hspace
  obtain ⟨-, -, -, hfiles⟩ := alloc_inode_lawful halloc
  rw [hfiles]
  rfl

end Laws

theorem init_zeros : Init ⟨(inode_manager.run zeros).state, [1]⟩ :=
  ⟨_, _, 1, _, Prog.Outcome.eq_done (by decide +kernel), rfl⟩

/-- A new disk. -/
def newDisk : Disk where
  st := ⟨(inode_manager.run zeros).state, [1]⟩
  apart := Inv.init init_zeros
  space := by decide +kernel

end Yfs.Storage
