import Yfs.Extent.Server
import Yfs.Lib.Pool

/-!
# What a call on one extent can see

Everything the server and the clients keep about one extent is its `Slice`. A call on an
extent reads and writes only that slice: the rules of this file say so for every single
access, and what the access does. The code in between is verified with them in
`Extent.Coherence`.

A slice is a set of copies of one file: the one on the disk, and those in the clients'
caches. In no state ever does a client but the owner have data (`Slice.Ok`).
-/

namespace Yfs.Extent

/-- What is kept about one extent. -/
@[ext] structure Slice where
  owner : Option String
  cache : String → Option FileData
  disk : Option File

namespace Slice

/-- Write the entry of a client. -/
def setFile (sl : Slice) (c : String) (f : FileData) : Slice :=
  { sl with cache := Function.update sl.cache c (some f) }

/-- Write the owner. -/
def setOwner (sl : Slice) (c : String) : Slice := { sl with owner := some c }

/-- Write the file on the disk. -/
def setDisk (sl : Slice) (f : File) : Slice := { sl with disk := some f }

variable {sl : Slice} {c x : String} {f : FileData} {d : File}

@[simp] theorem setFile_owner : (sl.setFile c f).owner = sl.owner := rfl
@[simp] theorem setFile_disk : (sl.setFile c f).disk = sl.disk := rfl
@[simp] theorem setOwner_owner : (sl.setOwner c).owner = some c := rfl
@[simp] theorem setOwner_cache : (sl.setOwner c).cache = sl.cache := rfl
@[simp] theorem setOwner_disk : (sl.setOwner c).disk = sl.disk := rfl
@[simp] theorem setDisk_owner : (sl.setDisk d).owner = sl.owner := rfl
@[simp] theorem setDisk_cache : (sl.setDisk d).cache = sl.cache := rfl
@[simp] theorem setDisk_disk : (sl.setDisk d).disk = some d := rfl

theorem setFile_cache : (sl.setFile c f).cache x = if x = c then some f else sl.cache x :=
  Function.update_apply ..

@[simp] theorem setFile_cache_self : (sl.setFile c f).cache c = some f :=
  Function.update_self ..

@[simp] theorem setFile_setFile {f' : FileData} :
    (sl.setFile c f).setFile c f' = sl.setFile c f' := by
  simp [setFile]

theorem setOwner_self (h : sl.owner = some c) : sl.setOwner c = sl :=
  Slice.ext h.symm rfl rfl

theorem setDisk_self (h : sl.disk = some d) : sl.setDisk d = sl :=
  Slice.ext rfl rfl h.symm

theorem setFile_self (h : sl.cache c = some f) : sl.setFile c f = sl := by
  refine Slice.ext rfl (funext fun x => ?_) rfl
  rw [setFile_cache]
  split
  case isTrue hx => rw [hx, h]
  case isFalse => rfl

/-- Only the owner has data. -/
def Ok (sl : Slice) : Prop :=
  ∀ c f, sl.cache c = some f → f.data_stat = .ok → sl.owner = some c

/-- An extent that is not on the disk is nowhere. -/
def Blank (sl : Slice) : Prop := sl.disk = none → sl.owner = none ∧ ∀ c, sl.cache c = none

/-- Writing an entry is fine if it does not claim data, or the client is the owner. -/
theorem Ok.setFile (h : sl.Ok) (hf : f.data_stat = .ok → sl.owner = some c) :
    (sl.setFile c f).Ok := by
  intro x f' hx hd
  rw [setFile_cache] at hx
  split at hx
  case isTrue hxc =>
    cases hx
    exact hxc ▸ hf hd
  case isFalse => exact h x f' hx hd

end Slice

variable {ι τ : Type} {L : InodeLayer τ}

/-- The slice of an extent. Ids of more than 31 bits have no file of their own. -/
def Sys.slice (M : LawfulInodes L) (s : Sys τ) (i : ExtentId) : Slice where
  owner := s.fileManger i
  cache c := s.cache c i
  disk := if i.toNat < 2 ^ 31 then M.files s.im i.toUInt32 else none

section Primitives

variable {M : LawfulInodes L} {s : Sys τ} {i j : ExtentId}

theorem Sys.slice_setFile (c : String) (f : FileData) :
    ((Sys.host c).setFile i f s).slice M j =
      if j = i then (s.slice M i).setFile c f else s.slice M j := by
  by_cases hji : j = i
  · subst hji
    rw [if_pos rfl]
    refine Slice.ext rfl (funext fun x => ?_) rfl
    by_cases hx : x = c <;> simp [Sys.slice, Sys.host, Slice.setFile, Function.update_apply, hx]
  · rw [if_neg hji]
    refine Slice.ext rfl (funext fun x => ?_) rfl
    by_cases hx : x = c <;> simp [Sys.slice, Sys.host, Function.update_apply, hx, hji]

theorem Sys.slice_setOwner (c : String) :
    ({ s with fileManger := Function.update s.fileManger i (some c) } : Sys τ).slice M j =
      if j = i then (s.slice M i).setOwner c else s.slice M j := by
  by_cases hji : j = i
  · subst hji
    simp [Sys.slice, Slice.setOwner]
  · simp [Sys.slice, hji]

/-- `0x7fffffff` masks nothing of an id of 31 bits. -/
theorem Server.mask_eq (hi : i.toNat < 2 ^ 31) : Server.mask i = i := by
  apply UInt64.toNat_inj.mp
  rw [Server.mask, UInt64.toNat_and]
  exact (Nat.and_two_pow_sub_one_eq_mod i.toNat 31).trans (Nat.mod_eq_of_lt hi)

theorem toUInt32_inj (hi : i.toNat < 2 ^ 31) (hj : j.toNat < 2 ^ 31)
    (h : i.toUInt32 = j.toUInt32) : i = j := by
  apply UInt64.toNat_inj.mp
  have := congrArg UInt32.toNat h
  simp only [UInt64.toNat_toUInt32] at this
  omega

/-- A step of the inode layer on the file of `i` that makes it `f`. -/
theorem Sys.slice_im {t : τ} {f : File} (hi : i.toNat < 2 ^ 31)
    (ht : ∀ n, M.files t n = if n = i.toUInt32 then some f else M.files s.im n) :
    ({ s with im := t } : Sys τ).slice M j =
      if j = i then (s.slice M i).setDisk f else s.slice M j := by
  by_cases hji : j = i
  · subst hji
    simp only [Sys.slice, Slice.setDisk, if_pos hi, ht, if_true]
  · simp only [Sys.slice, if_neg hji]
    split
    case isTrue hj => rw [ht, if_neg fun h => hji (toUInt32_inj hj hi h)]
    case isFalse => rfl

end Primitives

/-! ## Extents as objects -/

/-- Extents as objects whose values `obj` reads off their slices. Lock 0 protects no
extent. -/
def objects {κ : Type} (M : LawfulInodes L) (N : Prop) (obj : ExtentId → κ → Slice → Prop) :
    Objects ExtentId κ (Sys τ) where
  same i s s' := s'.slice M i = s.slice M i
  free i s := i ≠ 0 ∧ (s.slice M i).disk = none
  obj i v s := obj i v (s.slice M i)
  always i s := (s.slice M i).Ok ∧ (s.slice M i).Blank
  stuck s := M.Refuses N s.im
  same_refl _ _ := rfl
  same_trans h h' := h'.trans h
  free_same h hf := h ▸ hf
  obj_same h ho := h.symm ▸ ho
  always_same h ha := h.symm ▸ ha

section Rules

variable {κ α : Type} {M : LawfulInodes L} {N : Prop} {obj : ExtentId → κ → Slice → Prop}
  {E : Fault → Prop}
  {H : Set ExtentId} {s : Sys τ} {i : ExtentId} {sl : Slice} {c : String} {f : FileData} {d : File}
  {Q : α → Set ExtentId → Sys τ → Prop}

/-- An atomic step on the slice of `i`. -/
theorem seg_slice {δ : Type} {g : Sys τ → Option (δ × Sys τ)}
    {k : δ → Prog Fault ExtentId (Sys τ) α} (hi : i ∈ H) (hs : s.slice M i = sl)
    (hstuck : ∀ s₁, s₁.slice M i = sl → g s₁ = none → M.Refuses N s₁.im)
    (h : ∀ s₁, s₁.slice M i = sl → ∀ b s₂, g s₁ = some (b, s₂) →
      (∀ j, j ≠ i → s₂.slice M j = s₁.slice M j) ∧ (∃ d, (s₂.slice M i).disk = some d) ∧
        (s₂.slice M i).Ok ∧ Seg (objects M N obj) E (k b) Q H s₂) :
    Seg (objects M N obj) E (.atom g k) Q H s := by
  refine Seg.atom hi (fun s₁ hs₁ => hstuck s₁ (hs₁.trans hs)) fun s₁ hs₁ b s₂ hg => ?_
  obtain ⟨hother, ⟨d, hd⟩, hok, hk⟩ := h s₁ (hs₁.trans hs) b s₂ hg
  refine ⟨hother, fun hf => ?_, ⟨hok, fun hn => ?_⟩, hk⟩
  · exact absurd (hd.symm.trans hf.2) (by simp)
  · exact absurd (hd.symm.trans hn) (by simp)

/-- The same, for a step that can always be taken. -/
theorem seg_slice_step {δ : Type} {g : Sys τ → δ × Sys τ} {k : δ → Prog Fault ExtentId (Sys τ) α}
    (hi : i ∈ H) (hs : s.slice M i = sl)
    (h : ∀ s₁, s₁.slice M i = sl → (∀ j, j ≠ i → (g s₁).2.slice M j = s₁.slice M j) ∧
      (∃ d, ((g s₁).2.slice M i).disk = some d) ∧ ((g s₁).2.slice M i).Ok ∧
        Seg (objects M N obj) E (k (g s₁).1) Q H (g s₁).2) :
    Seg (objects M N obj) E (.step g >>= k) Q H s := by
  refine seg_slice hi hs nofun fun s₁ hs₁ b s₂ hb => ?_
  have hb' : g s₁ = (b, s₂) := Option.some.inj hb
  have := h s₁ hs₁
  rwa [hb'] at this

theorem seg_time {k : UInt32 → Prog Fault ExtentId (Sys τ) α} (hi : i ∈ H)
    (hs : s.slice M i = sl) (hd : sl.disk = some d) (hok : sl.Ok)
    (h : ∀ now s', s'.slice M i = sl → Seg (objects M N obj) E (k now) Q H s') :
    Seg (objects M N obj) E (Client.time (Sys.host c) >>= k) Q H s :=
  seg_slice_step hi hs fun _ hs₁ =>
    ⟨fun _ _ => rfl, ⟨d, hs₁.symm ▸ hd⟩, hs₁.symm ▸ hok, h _ _ hs₁⟩

theorem seg_file {k : FileData → Prog Fault ExtentId (Sys τ) α} (hi : i ∈ H)
    (hs : s.slice M i = sl) (hd : sl.disk = some d) (hok : sl.Ok) (hc : sl.cache c = some f)
    (h : ∀ s', s'.slice M i = sl → Seg (objects M N obj) E (k f) Q H s') :
    Seg (objects M N obj) E (Client.file (Sys.host c) i >>= k) Q H s := by
  rw [Client.file, bind_assoc]
  refine seg_slice_step hi hs fun s₁ hs₁ => ⟨fun _ _ => rfl, ⟨d, hs₁.symm ▸ hd⟩, hs₁.symm ▸ hok, ?_⟩
  have hf : (Sys.host c).fileManager s₁ i = some f := by
    rw [← hc, ← hs₁]
    rfl
  simp only [hf, pure_bind]
  exact h s₁ hs₁

theorem seg_update {g : FileData → FileData} {k : Unit → Prog Fault ExtentId (Sys τ) α} (hi : i ∈ H)
    (hs : s.slice M i = sl) (hd : sl.disk = some d) (hok : sl.Ok) (hc : sl.cache c = some f)
    (hg : (g f).data_stat = .ok → sl.owner = some c)
    (h : ∀ s', s'.slice M i = sl.setFile c (g f) → Seg (objects M N obj) E (k ()) Q H s') :
    Seg (objects M N obj) E (Client.update (Sys.host c) i g >>= k) Q H s := by
  rw [Client.update, bind_assoc]
  refine seg_slice_step hi hs fun s₁ hs₁ => ?_
  have hf : (Sys.host c).fileManager s₁ i = some f := by
    rw [← hc, ← hs₁]
    rfl
  have hsl : ((Sys.host c).setFile i (g f) s₁).slice M i = sl.setFile c (g f) := by
    rw [Sys.slice_setFile, if_pos rfl, hs₁]
  simp only [hf, if_true, pure_bind]
  refine ⟨fun j hj => ?_, ⟨d, ?_⟩, ?_, h _ hsl⟩
  · rw [Sys.slice_setFile, if_neg hj]
  · rw [hsl, Slice.setFile_disk, hd]
  · exact hsl.symm ▸ hok.setFile hg

/-- An entry is there, or is made. -/
theorem seg_enter {k : Unit → Prog Fault ExtentId (Sys τ) α} (hi : i ∈ H)
    (hs : s.slice M i = sl) (hd : sl.disk = some d) (hok : sl.Ok)
    (h : ∀ s' f, s'.slice M i = sl.setFile c f →
      (sl.cache c = some f ∨ sl.cache c = none ∧ f.data_stat = .none ∧ f.attr_stat = .none) →
      Seg (objects M N obj) E (k ()) Q H s') :
    Seg (objects M N obj) E (Client.enter (Sys.host c) i >>= k) Q H s := by
  refine seg_slice_step hi hs fun s₁ hs₁ => ?_
  have hf : (Sys.host c).fileManager s₁ i = sl.cache c := by
    rw [← hs₁]
    rfl
  cases hc : sl.cache c with
  | some f =>
    have hsl : s₁.slice M i = sl.setFile c f := hs₁.trans (Slice.setFile_self hc).symm
    simp only [hf, hc]
    exact ⟨fun _ _ => trivial, ⟨d, hs₁.symm ▸ hd⟩, hs₁.symm ▸ hok, h s₁ f hsl (.inl hc)⟩
  | none =>
    simp only [hf, hc]
    have hsl : ((Sys.host c).setFile i { file_attr := ((Sys.host c).fresh s₁).1 }
        ((Sys.host c).fresh s₁).2).slice M i =
          sl.setFile c { file_attr := ((Sys.host c).fresh s₁).1 } := by
      rw [Sys.slice_setFile, if_pos rfl, ← hs₁]
      rfl
    refine ⟨fun j hj => ?_, ⟨d, ?_⟩, ?_, h _ _ hsl (.inr ⟨hc, rfl, rfl⟩)⟩
    · rw [Sys.slice_setFile, if_neg hj]
      rfl
    · rw [hsl, Slice.setFile_disk, hd]
    · exact hsl.symm ▸ hok.setFile fun h => nomatch h

/-- The server looks up the owner, and enters one if there is none. -/
theorem seg_owner {k : String → Prog Fault ExtentId (Sys τ) α} (hi : i ∈ H)
    (hs : s.slice M i = sl) (hd : sl.disk = some d) (hok : sl.Ok)
    (h : ∀ s' o, s'.slice M i = sl.setOwner o →
      (sl.owner = some o ∨ sl.owner = none ∧ o = c) → Seg (objects M N obj) E (k o) Q H s') :
    Seg (objects M N obj) E (Server.owner c i >>= k) Q H s := by
  refine seg_slice_step hi hs fun s₁ hs₁ => ?_
  have hf : s₁.fileManger i = sl.owner := by
    rw [← hs₁]
    rfl
  cases ho : sl.owner with
  | some o =>
    simp only [hf, ho]
    have hsl : s₁.slice M i = sl.setOwner o := hs₁.trans (Slice.setOwner_self ho).symm
    exact ⟨fun _ _ => trivial, ⟨d, hs₁.symm ▸ hd⟩, hs₁.symm ▸ hok, h s₁ o hsl (.inl ho)⟩
  | none =>
    simp only [hf, ho]
    have hsl : ({ s₁ with fileManger := Function.update s₁.fileManger i (some c) } : Sys τ).slice
        M i = sl.setOwner c := by
      rw [Sys.slice_setOwner, if_pos rfl, hs₁]
    refine ⟨fun j hj => ?_, ⟨d, ?_⟩, ?_, h _ c hsl (.inr ⟨ho, rfl⟩)⟩
    · rw [Sys.slice_setOwner, if_neg hj]
    · rw [hsl, Slice.setOwner_disk, hd]
    · rw [hsl]
      intro x f' hx hdx
      exact absurd ((hok x f' hx hdx).symm.trans ho) (by simp)

theorem seg_setOwner {k : Unit → Prog Fault ExtentId (Sys τ) α} (hi : i ∈ H)
    (hs : s.slice M i = sl) (hd : sl.disk = some d) (hok : (sl.setOwner c).Ok)
    (h : ∀ s', s'.slice M i = sl.setOwner c → Seg (objects M N obj) E (k ()) Q H s') :
    Seg (objects M N obj) E (Server.setOwner c i >>= k) Q H s := by
  refine seg_slice_step hi hs fun s₁ hs₁ => ?_
  have hsl : ({ s₁ with fileManger := Function.update s₁.fileManger i (some c) } : Sys τ).slice M i
      = sl.setOwner c := by
    rw [Sys.slice_setOwner, if_pos rfl, hs₁]
  refine ⟨fun j hj => ?_, ⟨d, ?_⟩, hsl.symm ▸ hok, h _ hsl⟩
  · rw [Sys.slice_setOwner, if_neg hj]
  · rw [hsl, Slice.setOwner_disk, hd]

/-- The file of an extent, in the inode layer. -/
theorem Sys.files_of_disk (hi : i.toNat < 2 ^ 31) (hd : (s.slice M i).disk = some d) :
    M.files s.im i.toUInt32 = some d := by
  simpa only [Sys.slice, if_pos hi] using hd

/-- An operation of the inode layer that writes no file but that of `i`. -/
theorem seg_im {δ : Type} {g : τ → Option (δ × τ)} {k : δ → Prog Fault ExtentId (Sys τ) α}
    {R : δ → File → Prop} (hi : i ∈ H) (hlt : i.toNat < 2 ^ 31) (hs : s.slice M i = sl)
    (hd : sl.disk = some d) (hok : sl.Ok)
    (hnone : ∀ t, M.files t i.toUInt32 = some d → g t = none → M.Refuses N t)
    (hg : ∀ t b t', M.files t i.toUInt32 = some d → g t = some (b, t') → ∃ d', R b d' ∧
      ∀ n, M.files t' n = if n = i.toUInt32 then some d' else M.files t n)
    (h : ∀ b d' s', R b d' → s'.slice M i = sl.setDisk d' → Seg (objects M N obj) E (k b) Q H s') :
    Seg (objects M N obj) E (Server.im g >>= k) Q H s := by
  refine seg_slice hi hs (fun s₁ hs₁ hn => ?_) fun s₁ hs₁ _ s₂ hb => ?_
  · exact hnone s₁.im (Sys.files_of_disk hlt (hs₁.symm ▸ hd)) (Option.map_eq_none_iff.mp hn)
  obtain ⟨⟨b, t'⟩, ht', he⟩ := Option.map_eq_some_iff.mp hb
  cases he
  obtain ⟨d', hR, hfiles⟩ := hg s₁.im b t' (Sys.files_of_disk hlt (hs₁.symm ▸ hd)) ht'
  have hsl : ({ s₁ with im := t' } : Sys τ).slice M i = sl.setDisk d' := by
    rw [Sys.slice_im hlt hfiles, if_pos rfl, hs₁]
  refine ⟨fun j hj => ?_, ⟨d', ?_⟩, ?_, h b d' _ hR hsl⟩
  · rw [Sys.slice_im hlt hfiles, if_neg hj]
  · rw [hsl, Slice.setDisk_disk]
  · exact hsl.symm ▸ hok

/-- An operation that leaves all files as they are writes the file of `i` as it is. -/
theorem files_unchanged {t t' : τ} {n : UInt32} (h : M.files t n = some d)
    (ht : M.files t' = M.files t) (m : UInt32) :
    M.files t' m = if m = n then some d else M.files t m := by
  rw [ht]
  split
  case isTrue hm => rw [hm, h]
  case isFalse => rfl

theorem seg_read_file {k : Bytes → Prog Fault ExtentId (Sys τ) α} (hi : i ∈ H)
    (hlt : i.toNat < 2 ^ 31) (hs : s.slice M i = sl) (hd : sl.disk = some d) (hok : sl.Ok)
    (h : ∀ s', s'.slice M i = sl → Seg (objects M N obj) E (k d.data) Q H s') :
    Seg (objects M N obj) E (Server.im (L.read_file i.toUInt32) >>= k) Q H s := by
  refine seg_im (R := fun b d' => b = d.data ∧ d' = d) hi hlt hs hd hok
    (fun t ht hn => .inr ⟨_, d, ht, .inl hn⟩) ?_ ?_
  · intro t b t' ht hr
    obtain ⟨hb, hfiles⟩ := M.read_ok ht hr
    exact ⟨d, ⟨hb, rfl⟩, files_unchanged ht hfiles⟩
  · rintro b d' s' ⟨rfl, rfl⟩ hs'
    exact h s' (hs'.trans (Slice.setDisk_self hd))

theorem seg_getattr_im {k : Attr → Prog Fault ExtentId (Sys τ) α} (hi : i ∈ H)
    (hlt : i.toNat < 2 ^ 31) (hs : s.slice M i = sl) (hd : sl.disk = some d) (hok : sl.Ok)
    (h : ∀ a s', a.type = d.type.toInt32.toUInt32 → a.size = .ofNat d.data.length →
      s'.slice M i = sl → Seg (objects M N obj) E (k a) Q H s') :
    Seg (objects M N obj) E (Server.im (L.getattr i.toUInt32) >>= k) Q H s := by
  refine seg_im (R := fun a d' => (a.type = d.type.toInt32.toUInt32 ∧
    a.size = .ofNat d.data.length) ∧
    d' = d) hi hlt hs hd hok (fun t ht hn => .inr ⟨_, d, ht, .inr (.inl hn)⟩) ?_ ?_
  · intro t a t' ht hr
    obtain ⟨hty, ha, hfiles⟩ := M.getattr_ok ht hr
    exact ⟨d, ⟨⟨hty, ha⟩, rfl⟩, files_unchanged ht hfiles⟩
  · rintro a d' s' ⟨⟨hty, ha⟩, rfl⟩ hs'
    exact h a s' hty ha (hs'.trans (Slice.setDisk_self hd))

/-- `extent_server::put` writes the file. -/
theorem seg_server_put {k : Status → Prog Fault ExtentId (Sys τ) α} {buf : Bytes}
    (hN : N) (hi : i ∈ H)
    (hlt : i.toNat < 2 ^ 31) (hs : s.slice M i = sl) (hd : sl.disk = some d) (hok : sl.Ok)
    (h : ∀ s', s'.slice M i = sl.setDisk { d with data := buf } →
      Seg (objects M N obj) E (k OK) Q H s') :
    Seg (objects M N obj) E (Server.put L c i buf >>= k) Q H s := by
  rw [Server.put, Server.mask_eq hlt, bind_assoc]
  refine seg_im (R := fun _ d' => d' = { d with data := buf }) hi hlt hs hd hok
    (fun t ht hn => ?_) ?_ ?_
  · exact .inr ⟨_, d, ht, .inr (.inr ⟨hN, buf, Option.map_eq_none_iff.mp hn⟩)⟩
  · intro t b t' ht hr
    obtain ⟨t'', hw, he⟩ := Option.map_eq_some_iff.mp hr
    cases he
    exact ⟨_, rfl, M.write_ok ht hw⟩
  · rintro b d' s' rfl hs'
    exact h s' hs'

/-- `extent_server::create` makes an extent that nobody has heard of. -/
theorem seg_server_create {k : Status × ExtentId → Prog Fault ExtentId (Sys τ) α} {ty : UInt32}
    (h : ∀ s' i, i ≠ 0 → i.toNat < 2 ^ 31 →
      s'.slice M i = ⟨none, fun _ => none, some ⟨ty.toUInt16.toInt16, []⟩⟩ →
      Seg (objects M N obj) E (k (OK, i)) Q (insert i H) s') :
    Seg (objects M N obj) E (Server.create L c ty >>= k) Q H s := by
  rw [Server.create, bind_assoc]
  refine Seg.make (fun s₁ hn => .inl ⟨ty, Option.map_eq_none_iff.mp hn⟩) fun s₁ ha _ s₂ hb => ?_
  obtain ⟨⟨b, t'⟩, ht', he⟩ := Option.map_eq_some_iff.mp hb
  cases he
  obtain ⟨hlt, hne, hnone, hfiles⟩ := M.alloc_ok ht'
  have hto : b.toUInt64.toNat = b.toNat := UInt32.toNat_toUInt64 b
  have h32 : b.toUInt64.toUInt32 = b := by
    apply UInt32.toNat_inj.mp
    rw [UInt64.toNat_toUInt32, hto]
    exact Nat.mod_eq_of_lt b.toNat_lt
  have hlt' : b.toUInt64.toNat < 2 ^ 31 := hto ▸ hlt
  have hne' : b.toUInt64 ≠ 0 := fun h0 => hne (by rw [← h32, h0]; rfl)
  have hfree : (s₁.slice M b.toUInt64).disk = none := by
    simp [Sys.slice, h32, hnone]
  obtain ⟨hown, hcache⟩ := (ha b.toUInt64).2 hfree
  have hsl : ({ s₁ with im := t' } : Sys τ).slice M b.toUInt64 =
      ⟨none, fun _ => none, some ⟨ty.toUInt16.toInt16, []⟩⟩ := by
    rw [Sys.slice_im hlt' (by rw [h32]; exact hfiles), if_pos rfl]
    exact Slice.ext hown (funext hcache) rfl
  refine ⟨b.toUInt64, fun j hj => ?_, ⟨hne', hfree⟩, fun hf => ?_, ⟨?_, ?_⟩, ?_⟩
  · show Sys.slice M _ j = _
    rw [Sys.slice_im hlt' (by rw [h32]; exact hfiles), if_neg hj]
  · have := hf.2
    rw [hsl] at this
    cases this
  · rw [hsl]
    intro x f hx
    cases hx
  · rw [hsl]
    intro hn
    cases hn
  · exact h _ b.toUInt64 hne' hlt' hsl

end Rules

end Yfs.Extent
