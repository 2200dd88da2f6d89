import Yfs.Extent.Times

/-!
# Reading and the times of an extent

The `mtime` and `ctime` of an extent should be those of its last `put`, or of its creation,
and no `get` should change them. But what goes back from the owner's cache to the inode is
data only, and `write_file` stamps the inode with the time of its own. So a `get` that makes
another client write its copy back, whether that was modified or not, changes them
(`Storage.Times`), unless the client that reads has the attributes already. On runs where
that does not happen they stay (`reading_keeps_times`).
-/

namespace Yfs.Extent.Times

open Removal (face)

variable {τ : Type} {L : InodeLayer τ}

/-! ## Whole operations -/

section Operations

variable {α : Type} {M : TimedInodes L} {running : String → Bool} {W V : Prop} {E : Fault → Prop}
  {H : Set ExtentId} {s : Sys τ} {id : ExtentId} {sl : Slice} {m : UInt32 × UInt32} {c : String}
  {f : FileData} {T : UInt32} {Q : α → Set ExtentId → Sys τ → Prop}

/-- `flush_handler`, called back at a client with an entry: data is written to the disk, with
new times, and forgotten. -/
theorem seg_flush {k : Status → Prog Fault ExtentId (Sys τ) α} (hid : id ∈ H)
    (hlt : id.toNat < 2 ^ 31) (hs : At M id sl m s) (hc : sl.cache c = some f)
    (h₀ : f.data_stat = .none → ∀ s', At M id sl m s' → Seg (extents M running W) E (k OK) Q H s')
    (h₁ : f.data_stat = .ok → ∀ m' s', At M id (sl.setFile c
      { f with data_stat := .none, attr_stat := .none }) m' s' →
        Seg (extents M running W) E (k OK) Q H s') :
    Seg (extents M running W) E
      (Client.flush_handler (Sys.host c) (Server.put L) id >>= k) Q H s := by
  rw [Client.flush_handler, bind_assoc]
  refine seg_step hid hs fun s₁ hs₁ => ⟨rfl, .inl rfl, fun _ _ => rfl, fun hat => ?_⟩
  have hf : (Sys.host c).fileManager s₁ id = some f := by
    rw [← hc, ← hs₁]
    rfl
  simp only [hf, bind_assoc]
  refine seg_file hid (hat sl hs₁) hc fun s₂ hs₂ => ?_
  cases hst : f.data_stat with
  | none =>
    rw [if_pos rfl, pure_bind]
    exact h₀ hst s₂ hs₂
  | ok =>
    rw [if_neg (by simp), bind_assoc]
    refine seg_file hid hs₂ hc fun s₃ hs₃ => ?_
    rw [bind_assoc]
    refine seg_server_put hid hlt hs₃ fun m' s₄ hs₄ => ?_
    rw [bind_assoc]
    refine seg_update hid hs₄ hc fun s₅ hs₅ => ?_
    rw [bind_assoc]
    refine seg_update hid hs₅ Slice.setFile_cache_self fun s₆ hs₆ => ?_
    rw [Slice.setFile_setFile] at hs₆
    rw [pure_bind]
    exact h₁ hst m' s₆ hs₆

/-- The `getattr` handler: the attributes are the owner's, or the inode's for the owner itself. -/
theorem seg_server_getattr {k : Status × Attr → Prog Fault ExtentId (Sys τ) α} {A : Attr → Prop}
    (hid : id ∈ H) (hlt : id.toNat < 2 ^ 31) (hs : At M id sl m s)
    (hown : ∀ o, sl.owner = some o → o ≠ c → running o = true ∧
      ∃ fo, sl.cache o = some fo ∧ A fo.file_attr)
    (hself : (∀ o, sl.owner = some o → o = c) → ∀ a : Attr, a.times = m → A a)
    (h : ∀ s' o a, At M id (sl.setOwner o) m s' →
      (sl.owner = some o ∨ sl.owner = none ∧ o = c) → A a →
      Seg (extents M running W) E (k (OK, a)) Q H s') :
    Seg (extents M running W) E (Server.getattr L running c id >>= k) Q H s := by
  rw [Server.getattr, Server.mask_eq hlt]
  simp only [bind_assoc, pure_bind]
  refine seg_owner hid hs fun s₁ o hs₁ ho => ?_
  by_cases hoc : o = c
  · rw [if_neg (not_not.mpr hoc)]
    refine seg_getattr_im hid hlt hs₁ fun a s₂ ha hs₂ =>
      h s₂ o a hs₂ ho (hself (fun o' ho' => ?_) a ha)
    rcases ho with ho | ⟨ho, -⟩
    · rw [ho] at ho'
      exact (Option.some.inj ho').symm.trans hoc
    · simp [ho] at ho'
  · have howner : sl.owner = some o := ho.resolve_right fun h' => hoc h'.2
    obtain ⟨hrun, fo, hfo, hA⟩ := hown o howner hoc
    rw [if_pos hoc, Server.callback, if_pos hrun, Client.get_attr_handler]
    simp only [bind_assoc, pure_bind]
    exact seg_file hid hs₁ hfo fun s₂ hs₂ => h s₂ o _ hs₂ ho hA

/-- `getattr` of a client, from its cache or from the server. -/
theorem seg_getattr {k : Status × Attr → Prog Fault ExtentId (Sys τ) α} {attr : Attr}
    {A : Attr → Prop} (hid : id ∈ H) (hlt : id.toNat < 2 ^ 31) (hs : At M id sl m s)
    (hown : ∀ o, sl.owner = some o → o ≠ c → running o = true ∧
      ∃ fo, sl.cache o = some fo ∧ A fo.file_attr)
    (hself : (∀ o, sl.owner = some o → o = c) → (∀ f, sl.cache c = some f → f.attr_stat = .none) →
      ∀ a : Attr, a.times = m → A a)
    (h : ∀ s' f a,
      (sl.cache c = some f ∨ sl.cache c = none ∧ f.data_stat = .none ∧ f.attr_stat = .none) →
      (f.attr_stat = .ok ∧ At M id (sl.setFile c f) m s' ∨
        f.attr_stat = .none ∧ A a ∧ ∃ o, (sl.owner = some o ∨ sl.owner = none ∧ o = c) ∧
          At M id ((sl.setOwner o).setFile c { f with file_attr := a, attr_stat := .ok }) m s') →
      Seg (extents M running W) E (k (OK, a)) Q H s') :
    Seg (extents M running W) E
      (Client.getattr (Sys.host c) (Sys.calls L running) id attr >>= k) Q H s := by
  rw [Client.getattr, bind_assoc]
  refine seg_enter hid hs fun s₁ f hs₁ hf => ?_
  simp only [bind_assoc]
  refine seg_file hid hs₁ Slice.setFile_cache_self fun s₂ hs₂ => ?_
  cases hst : f.attr_stat with
  | none =>
    simp only [bind_assoc, pure_bind]
    refine seg_server_getattr (A := A) hid hlt hs₂ (fun o ho hoc => ?_) (fun hall => ?_)
      fun s₃ o a hs₃ ho ha => ?_
    · obtain ⟨hr, fo, hfo, hA⟩ := hown o ho hoc
      exact ⟨hr, fo, Slice.setFile_cache.trans ((if_neg hoc).trans hfo), hA⟩
    · refine hself hall fun f' hf' => ?_
      rcases hf with hf | ⟨hf, -⟩
      · rw [hf] at hf'
        cases hf'
        exact hst
      · simp [hf] at hf'
    · refine seg_update hid hs₃ Slice.setFile_cache_self fun s₄ hs₄ => ?_
      refine seg_update hid hs₄ Slice.setFile_cache_self fun s₅ hs₅ => ?_
      refine h s₅ f a hf (.inr ⟨hst, ha, o, ho, ?_⟩)
      have hsl : ((((sl.setFile c f).setOwner o).setFile c { f with file_attr := a }).setFile c
          { f with file_attr := a, attr_stat := .ok }) =
          (sl.setOwner o).setFile c { f with file_attr := a, attr_stat := .ok } := by
        rw [Slice.setFile_setFile]
        show ((sl.setOwner o).setFile c f).setFile c _ = _
        rw [Slice.setFile_setFile]
      exact hsl ▸ hs₅
  | ok =>
    simp only [bind_assoc, pure_bind]
    exact seg_file hid hs₂ Slice.setFile_cache_self fun s₃ hs₃ =>
      h s₃ f f.file_attr hf (.inl ⟨hst, hs₃⟩)

/-- The state in which the server answers a `get` of `c`: it is the owner, and nobody has data. -/
structure Taken (c : String) (sl : Slice) : Prop where
  owner : sl.owner = some c
  none : ∀ x f, sl.cache x = some f → f.data_stat = .none

/-- The times that `c` has after its `get`: those in its cache, or else those in the inode. -/
def Fetched (T : UInt32) (f : FileData) (m : UInt32 × UInt32) : Prop :=
  (f.attr_stat = .none → m = (T, T)) ∧ (f.attr_stat = .ok → f.file_attr.times = (T, T))

/-- Without the times. -/
theorem Current.forget (h : Current running V T sl m) : Current running False T sl m := by
  refine ⟨h.ok, fun o ho => ?_, fun ho => ⟨nofun, (h.nobody ho).2⟩⟩
  obtain ⟨hr, f, hf, ha, -⟩ := h.owner o ho
  exact ⟨hr, f, hf, ha, nofun⟩

/-- Nobody has data if the owner has none. -/
theorem none_of_owner (h : sl.Ok)
    (ho : ∀ o f, sl.owner = some o → sl.cache o = some f → f.data_stat = .none) :
    ∀ x f, sl.cache x = some f → f.data_stat = .none := by
  intro x f hx
  cases hst : f.data_stat with
  | none => rfl
  | ok => exact hst ▸ ho x f (h x f hx hst) hx

/-- The `get` handler for a client without data. -/
theorem seg_server_get {k : Status × Bytes → Prog Fault ExtentId (Sys τ) α} (hid : id ∈ H)
    (hlt : id.toNat < 2 ^ 31) (hs : At M id sl m s) (hcur : Current running V T sl m)
    (hcond : V → Readable c sl) (hc : sl.cache c = some f) (hf : f.data_stat = .none)
    (h : ∀ b s' sl' m', At M id sl' m' s' → Taken c sl' → sl'.cache c = some f →
      (V → Fetched T f m') →
      Seg (extents M running W) E (k (OK, b)) Q H s') :
    Seg (extents M running W) E (Server.get L running c id >>= k) Q H s := by
  rw [Server.get, Server.mask_eq hlt]
  simp only [bind_assoc, pure_bind]
  refine seg_owner hid hs fun s₁ o hs₁ ho => ?_
  -- the end of the handler
  have hend : ∀ s₂ sl₂ m₂, At M id sl₂ m₂ s₂ → (∀ x f, sl₂.cache x = some f → f.data_stat = .none) →
      sl₂.cache c = some f → (V → Fetched T f m₂) → Seg (extents M running W) E
        (do
          Server.setOwner c id
          let cbuf ← Server.im (L.read_file id.toUInt32)
          k (OK, cbuf)) Q H s₂ := by
    intro s₂ sl₂ m₂ hs₂ hn hc₂ hW
    refine seg_setOwner hid hs₂ fun s₃ hs₃ => ?_
    exact seg_read_file hid hlt hs₃ fun b s₄ hs₄ => h b s₄ _ m₂ hs₄ ⟨rfl, hn⟩ hc₂ hW
  by_cases hoc : o = c
  · rw [if_neg (not_not.mpr hoc), pure_bind]
    subst hoc
    have hn : ∀ x f, sl.cache x = some f → f.data_stat = .none := by
      refine none_of_owner hcur.ok fun x f' hx hf' => ?_
      rcases ho with ho | ⟨ho, -⟩
      · obtain rfl := Option.some.inj (ho.symm.trans hx)
        rw [hc] at hf'
        cases hf'
        exact hf
      · simp [ho] at hx
    refine hend s₁ _ m hs₁ hn hc fun hw => ?_
    rcases ho with ho | ⟨ho, -⟩
    · obtain ⟨-, f', hf', hst, htimes⟩ := hcur.owner o ho
      rw [hc] at hf'
      cases hf'
      exact ⟨fun hn => by simp [hst] at hn, fun _ => (htimes hw).1⟩
    · obtain ⟨hm, hattr⟩ := hcur.nobody ho
      exact ⟨fun _ => hm hw, fun hok => by simp [hattr o f hc] at hok⟩
  · have howner : sl.owner = some o := ho.resolve_right fun h' => hoc h'.2
    obtain ⟨hrun, fo, hfo, -, htimes⟩ := hcur.owner o howner
    rw [if_pos hoc, Server.callback, if_pos hrun, bind_assoc]
    simp only [pure_bind]
    rw [Slice.setOwner_self howner] at hs₁
    -- what the client has in its cache is right; what is in the inode, if nothing is written back
    have hfetched : ∀ m', (V → fo.data_stat = .none → m' = m) → V → Fetched T f m' := by
      intro m' hm' hw
      obtain ⟨hfo', hm⟩ := htimes hw
      rcases hcond hw o fo howner hoc hfo with ⟨f', hf', hst, heq⟩ | ⟨hnone, hdata⟩
      · rw [hc] at hf'
        cases hf'
        exact ⟨fun hn => by simp [hst] at hn, fun _ => heq.trans hfo'⟩
      · exact ⟨fun _ => (hm' hw hdata).trans (hm hdata), fun hok => by simp [hnone f hc] at hok⟩
    refine seg_flush hid hlt hs₁ hfo (fun hst s₂ hs₂ => ?_) (fun hst m₂ s₂ hs₂ => ?_)
    · refine hend s₂ sl m hs₂ (none_of_owner hcur.ok fun x f' hx hf' => ?_) hc
        (hfetched m fun _ _ => rfl)
      obtain rfl := Option.some.inj (howner.symm.trans hx)
      rw [hfo] at hf'
      cases hf'
      exact hst
    · refine hend s₂ _ m₂ hs₂ (fun x f' hx => ?_) ?_ (hfetched m₂ fun _ hn => by simp [hst] at hn)
      · rw [Slice.setFile_cache] at hx
        split at hx
        case isTrue =>
          cases hx
          rfl
        case isFalse hxo => exact hcur.ok.others howner hxo hx
      · rw [Slice.setFile_cache, if_neg (Ne.symm hoc)]
        exact hc

/-- Client `c` is the owner, with data and attributes, and nobody else has data: the state after
a `get` and after a `put`. -/
structure Has (running : String → Bool) (V : Prop) (T : UInt32) (c : String)
    (f : FileData) (sl : Slice) :
    Prop where
  running : running c = true
  owner : sl.owner = some c
  entry : sl.cache c = some f
  others : ∀ x f, x ≠ c → sl.cache x = some f → f.data_stat = .none
  data : f.data_stat = .ok
  attr : f.attr_stat = .ok
  times : V → f.file_attr.times = (T, T)

/-- The owner writes its entry. -/
theorem Has.setFile {f' : FileData} {V' : Prop} {T' : UInt32} (h : Has running V T c f sl)
    (hd : f'.data_stat = .ok) (ha : f'.attr_stat = .ok) (ht : V' → f'.file_attr.times = (T', T')) :
    Has running V' T' c f' (sl.setFile c f') := by
  refine ⟨h.running, h.owner, Slice.setFile_cache_self, fun x fx hxc hx => ?_, hd, ha, ht⟩
  rw [Slice.setFile_cache, if_neg hxc] at hx
  exact h.others x fx hxc hx

/-- Then the inode does not count. -/
theorem Has.current (h : Has running V T c f sl) : Current running V T sl m := by
  refine ⟨fun x fx hx hst => ?_, fun o ho => ?_, fun ho => ?_⟩
  · by_cases hxc : x = c
    · rw [hxc]
      exact h.owner
    · simp [h.others x fx hxc hx] at hst
  · obtain rfl := Option.some.inj (h.owner.symm.trans ho)
    exact ⟨h.running, f, h.entry, h.attr, fun hw => ⟨h.times hw, fun hn => by simp [h.data] at hn⟩⟩
  · simp [h.owner] at ho

theorem Taken.has {f' : FileData} (h : Taken c sl) (hr : running c = true) (hd : f'.data_stat = .ok)
    (ha : f'.attr_stat = .ok) (ht : V → f'.file_attr.times = (T, T)) :
    Has running V T c f' (sl.setFile c f') := by
  refine ⟨hr, h.owner, Slice.setFile_cache_self, fun x fx hxc hx => ?_, hd, ha, ht⟩
  rw [Slice.setFile_cache, if_neg hxc] at hx
  exact h.none x fx hx

/-- The uncached branch of `get`. -/
theorem seg_fetch {k : Status × Bytes → Prog Fault ExtentId (Sys τ) α} {buf : Bytes} (hid : id ∈ H)
    (hlt : id.toNat < 2 ^ 31) (hs : At M id sl m s) (hcur : Current running V T sl m)
    (hr : running c = true) (hcond : V → Readable c sl) (hc : sl.cache c = some f)
    (hf : f.data_stat = .none)
    (h : ∀ b s' sl' m' f', At M id sl' m' s' → Has running V T c f' sl' →
      Seg (extents M running W) E (k (OK, b)) Q H s') :
    Seg (extents M running W) E
      (Client.fetch (Sys.host c) (Sys.calls L running) id buf >>= k) Q H s := by
  rw [Client.fetch, bind_assoc]
  refine seg_server_get hid hlt hs hcur hcond hc hf fun b s₁ sl₁ m₁ hs₁ htaken hc₁ hW => ?_
  simp only [bind_assoc, pure_bind]
  refine seg_update hid hs₁ hc₁ fun s₂ hs₂ => ?_
  refine seg_update hid hs₂ Slice.setFile_cache_self fun s₃ hs₃ => ?_
  rw [Slice.setFile_setFile] at hs₃
  refine seg_file hid hs₃ Slice.setFile_cache_self fun s₄ hs₄ => ?_
  cases hst : f.attr_stat with
  | none =>
    rw [if_pos rfl]
    simp only [bind_assoc]
    refine seg_getattr (A := fun a => a.times = m₁) hid hlt hs₄ (fun o ho hoc => ?_)
      (fun _ _ a ha => ha)
      fun s₅ f' a hf' hor => ?_
    · exact absurd (Option.some.inj (htaken.owner.symm.trans ho)).symm hoc
    · -- the entry is the one just written, and the client is the owner
      obtain rfl : f' = { f with file_data := b, data_stat := .ok } := by
        rcases hf' with hf' | ⟨hf', -⟩
        · rw [Slice.setFile_cache_self] at hf'
          exact (Option.some.inj hf').symm
        · simp at hf'
      rcases hor with ⟨hok', -⟩ | ⟨-, ha, o, ho, hs₅⟩
      · simp [hst] at hok'
      · obtain rfl : o = c := by
          rcases ho with ho | ⟨ho, -⟩
          · exact (Option.some.inj (htaken.owner.symm.trans ho)).symm
          · exact absurd (htaken.owner.symm.trans ho) (by simp)
        have ho₃ : (sl₁.setFile o { f with file_data := b, data_stat := .ok }).owner = some o :=
          htaken.owner
        rw [Slice.setOwner_self ho₃, Slice.setFile_setFile] at hs₅
        refine seg_update hid hs₅ Slice.setFile_cache_self fun s₆ hs₆ => ?_
        rw [Slice.setFile_setFile] at hs₆
        exact h b s₆ _ m₁ _ hs₆ (htaken.has hr rfl rfl fun hw => ha.trans ((hW hw).1 hst))
  | ok =>
    rw [if_neg (by simp), pure_bind]
    exact h b s₄ _ m₁ _ hs₄ (htaken.has hr rfl hst fun hw => (hW hw).2 hst)

/-- An entry that was just made changes nothing. -/
theorem Current.enter (h : Current running V T sl m)
    (hf : sl.cache c = some f ∨ sl.cache c = none ∧ f.data_stat = .none ∧ f.attr_stat = .none) :
    Current running V T (sl.setFile c f) m := by
  rcases hf with hf | ⟨hc, hd, ha⟩
  · rwa [Slice.setFile_self hf]
  · refine ⟨h.ok.setFile fun hok => by simp [hd] at hok, fun o ho => ?_, fun ho => ?_⟩
    · obtain ⟨hr, f', hf', hst⟩ := h.owner o ho
      refine ⟨hr, f', ?_, hst⟩
      rw [Slice.setFile_cache, if_neg]
      · exact hf'
      · rintro rfl
        simp [hc] at hf'
    · obtain ⟨hm, hn⟩ := h.nobody ho
      refine ⟨hm, fun x f' hx => ?_⟩
      rw [Slice.setFile_cache] at hx
      split at hx
      case isTrue =>
        cases hx
        exact ha
      case isFalse => exact hn x f' hx

theorem Readable.enter (h : Readable c sl)
    (hf : sl.cache c = some f ∨ sl.cache c = none ∧ f.data_stat = .none ∧ f.attr_stat = .none) :
    Readable c (sl.setFile c f) := by
  rcases hf with hf | ⟨hc, -, ha⟩
  · rwa [Slice.setFile_self hf]
  · intro o fo ho hoc hfo
    rw [Slice.setFile_cache, if_neg hoc] at hfo
    rcases h o fo ho hoc hfo with ⟨f', hf', -⟩ | ⟨-, hd⟩
    · simp [hc] at hf'
    · refine .inr ⟨fun f' hf' => ?_, hd⟩
      rw [Slice.setFile_cache_self] at hf'
      cases hf'
      exact ha

/-- The owner with data. -/
theorem Current.has (h : Current running V T sl m) (hc : sl.cache c = some f)
    (hd : f.data_stat = .ok) :
    Has running V T c f sl := by
  have ho := h.ok c f hc hd
  obtain ⟨hr, f', hf', ha, ht⟩ := h.owner c ho
  rw [hc] at hf'
  cases hf'
  exact ⟨hr, ho, hc, fun x fx hxc hx => h.ok.others ho hxc hx, hd, ha, fun hw => (ht hw).1⟩

/-- **`get` keeps the times**, if the extent is readable. -/
theorem seg_get {k : Status × Bytes → Prog Fault ExtentId (Sys τ) α} {buf : Bytes} (hid : id ∈ H)
    (hlt : id.toNat < 2 ^ 31) (hs : At M id sl m s) (hcur : Current running V T sl m)
    (hr : running c = true) (hcond : V → Readable c sl)
    (h : ∀ b s' sl' m' f', At M id sl' m' s' → Has running V T c f' sl' →
      Seg (extents M running W) E (k (OK, b)) Q H s') :
    Seg (extents M running W) E
      (Client.get (Sys.host c) (Sys.calls L running) id buf >>= k) Q H s := by
  rw [Client.get, bind_assoc]
  refine seg_enter hid hs fun s₁ f hs₁ hf => ?_
  have hcur₁ := hcur.enter hf
  simp only [bind_assoc]
  refine seg_file hid hs₁ Slice.setFile_cache_self fun s₂ hs₂ => ?_
  -- both branches end with the access time
  have hend : ∀ b s₃ sl₃ m₃ f₃, At M id sl₃ m₃ s₃ → Has running V T c f₃ sl₃ →
      Seg (extents M running W) E
        (do
          let now_time ← Client.time (Sys.host c)
          Client.update (Sys.host c) id fun f =>
            { f with file_attr := { f.file_attr with atime := now_time } }
          k (OK, b)) Q H s₃ := by
    intro b s₃ sl₃ m₃ f₃ hs₃ hhas
    refine seg_time hid hs₃ fun now s₄ hs₄ => ?_
    refine seg_update hid hs₄ hhas.entry fun s₅ hs₅ => ?_
    exact h b s₅ _ m₃ _ hs₅ (hhas.setFile hhas.data hhas.attr hhas.times)
  cases hst : f.data_stat with
  | none =>
    refine seg_fetch hid hlt hs₂ hcur₁ hr
      (fun hw => (hcond hw).enter hf) Slice.setFile_cache_self hst
      fun b s₃ sl₃ m₃ f₃ hs₃ hhas => ?_
    rw [pure_bind]
    exact hend b s₃ sl₃ m₃ f₃ hs₃ hhas
  | ok =>
    simp only [bind_assoc, pure_bind]
    refine seg_file hid hs₂ Slice.setFile_cache_self fun s₃ hs₃ => ?_
    exact hend _ s₃ _ m _ hs₃ (hcur₁.has Slice.setFile_cache_self hst)

/-- The owner stamps its attributes. -/
theorem seg_stamp {k : Status × UInt32 → Prog Fault ExtentId (Sys τ) α} {buf : Bytes}
    {V' : Prop} (hid : id ∈ H) (hs : At M id sl m s) (hhas : Has running V' T c f sl)
    (h : ∀ now s' sl' m', At M id sl' m' s' → Current running V now sl' m' →
      Seg (extents M running W) E (k (OK, now)) Q H s') :
    Seg (extents M running W) E
      (do
        let now_time ← Client.time (Sys.host c)
        Client.update (Sys.host c) id ({ · with file_data := buf })
        Client.update (Sys.host c) id fun f => { f with file_attr :=
          { f.file_attr with size := .ofNat buf.length, ctime := now_time, mtime := now_time } }
        Client.update (Sys.host c) id ({ · with data_stat := .ok })
        Client.update (Sys.host c) id ({ · with attr_stat := .ok })
        k (OK, now_time)) Q H s := by
  refine seg_time hid hs fun now s₁ hs₁ => ?_
  refine seg_update hid hs₁ hhas.entry fun s₂ hs₂ => ?_
  refine seg_update hid hs₂ Slice.setFile_cache_self fun s₃ hs₃ => ?_
  rw [Slice.setFile_setFile] at hs₃
  refine seg_update hid hs₃ Slice.setFile_cache_self fun s₄ hs₄ => ?_
  rw [Slice.setFile_setFile] at hs₄
  refine seg_update hid hs₄ Slice.setFile_cache_self fun s₅ hs₅ => ?_
  rw [Slice.setFile_setFile] at hs₅
  exact h now s₅ _ m hs₅ (hhas.setFile rfl rfl fun _ => rfl).current

/-- **`put` makes its time the time of the extent**, whatever the times were before. -/
theorem seg_put {k : Status × UInt32 → Prog Fault ExtentId (Sys τ) α} {buf : Bytes} (hid : id ∈ H)
    (hlt : id.toNat < 2 ^ 31) (hs : At M id sl m s) (hcur : Current running V T sl m)
    (hr : running c = true)
    (h : ∀ now s' sl' m', At M id sl' m' s' → Current running V now sl' m' →
      Seg (extents M running W) E (k (OK, now)) Q H s') :
    Seg (extents M running W) E (put (Sys.host c) (Sys.calls L running) id buf >>= k) Q H s := by
  rw [put, bind_assoc]
  refine seg_enter hid hs fun s₁ f hs₁ hf => ?_
  have hcur₁ := hcur.enter hf
  simp only [bind_assoc, pure_bind]
  refine seg_file hid hs₁ Slice.setFile_cache_self fun s₂ hs₂ => ?_
  split
  case isTrue =>
    simp only [bind_assoc]
    refine seg_get (V := False) hid hlt hs₂ hcur₁.forget hr False.elim
      fun b s₃ sl₃ m₃ f₃ hs₃ hhas => ?_
    refine seg_update hid hs₃ hhas.entry fun s₄ hs₄ => ?_
    exact seg_stamp hid hs₄ (hhas.setFile hhas.data hhas.attr hhas.times) h
  case isFalse hne =>
    rw [pure_bind]
    have hd : f.data_stat = .ok := by
      cases hst : f.data_stat with
      | none => exact absurd (.inl hst) hne
      | ok => rfl
    exact seg_stamp hid hs₂ (hcur₁.has Slice.setFile_cache_self hd) h

/-- The client's entry gets attributes; without an owner the client becomes it. -/
theorem Current.setAttr {o : String} {a : Attr} (h : Current running V T (sl.setFile c f) m)
    (hr : running c = true) (hst : f.attr_stat = .none)
    (ho : sl.owner = some o ∨ sl.owner = none ∧ o = c) (ha : V → a.times = (T, T)) :
    Current running V T
      ((sl.setOwner o).setFile c { f with file_attr := a, attr_stat := .ok }) m := by
  rcases ho with ho | ⟨ho, rfl⟩
  · -- the owner has attributes, so it is another client
    obtain ⟨hro, fo, hfo, hok, ht⟩ := h.owner o ho
    have hoc : o ≠ c := by
      rintro rfl
      rw [Slice.setFile_cache_self] at hfo
      cases hfo
      simp [hst] at hok
    rw [Slice.setFile_cache, if_neg hoc] at hfo
    refine ⟨fun x fx hx hd => ?_, fun o' ho' => ?_, nofun⟩
    · rw [Slice.setFile_cache] at hx
      split at hx
      case isTrue hxc =>
        cases hx
        subst hxc
        exact ho.symm.trans (h.ok x f Slice.setFile_cache_self hd)
      case isFalse hxc =>
        refine ho.symm.trans (h.ok x fx ?_ hd)
        rwa [Slice.setFile_cache, if_neg hxc]
    · cases ho'
      exact ⟨hro, fo, Slice.setFile_cache.trans ((if_neg hoc).trans hfo), hok, ht⟩
  · obtain ⟨hm, -⟩ := h.nobody ho
    -- without an owner nobody has data
    have hn : ∀ x fx, (sl.setFile o f).cache x = some fx → fx.data_stat = .none :=
      none_of_owner h.ok fun x fx hx => absurd (ho.symm.trans hx) nofun
    refine ⟨fun x fx hx hd => ?_, fun o' ho' => ?_, nofun⟩
    · rw [Slice.setFile_cache] at hx
      split at hx
      case isTrue =>
        cases hx
        simp [hn o f Slice.setFile_cache_self] at hd
      case isFalse hxo =>
        have hx' : (sl.setFile o f).cache x = some fx := by rwa [Slice.setFile_cache, if_neg hxo]
        simp [hn x fx hx'] at hd
    · cases ho'
      exact ⟨hr, _, Slice.setFile_cache_self, rfl, fun hv => ⟨ha hv, fun _ => hm hv⟩⟩

/-- **`getattr` keeps the times.** -/
theorem seg_getattr_current {k : Status × Attr → Prog Fault ExtentId (Sys τ) α}
    {attr : Attr} (hid : id ∈ H)
    (hlt : id.toNat < 2 ^ 31) (hs : At M id sl m s) (hcur : Current running V T sl m)
    (hr : running c = true)
    (h : ∀ a s' sl', At M id sl' m s' → Current running V T sl' m →
      Seg (extents M running W) E (k (OK, a)) Q H s') :
    Seg (extents M running W) E
      (Client.getattr (Sys.host c) (Sys.calls L running) id attr >>= k) Q H s := by
  refine seg_getattr (A := fun a => V → a.times = (T, T)) hid hlt hs (fun o ho _ => ?_)
    (fun hall hnone a ha hv => ?_)
    fun s' f a hf hor => ?_
  · obtain ⟨hro, fo, hfo, -, ht⟩ := hcur.owner o ho
    exact ⟨hro, fo, hfo, fun hv => (ht hv).1⟩
  · -- an owner has attributes, so there is none
    cases ho : sl.owner with
    | none => exact ha.trans ((hcur.nobody ho).1 hv)
    | some o =>
      obtain rfl := hall o ho
      obtain ⟨-, fo, hfo, hok, -⟩ := hcur.owner o ho
      simp [hnone fo hfo] at hok
  · rcases hor with ⟨-, hs'⟩ | ⟨hst, ha, o, ho, hs'⟩
    · exact h a s' _ hs' (hcur.enter hf)
    · exact h a s' _ hs' ((hcur.enter hf).setAttr hr hst ho ha)

end Operations

/-! ## Every call keeps to its extent -/

section Calls

variable {M : TimedInodes L} {running : String → Bool} {W : Prop} {s : Sys τ}
  {g : ExtentId → Option UInt32}
  {call : Call} {c : String} {id : ExtentId} {sl : Slice} {m : UInt32 × UInt32} {T : UInt32}

/-- A call takes its lock. -/
theorem holds_acquire {k : Prog Fault ExtentId (Sys τ) Stamped} (hg : g id ≠ none)
    (h : ∀ s₁ g₁ sl m T, g₁ id = some T → id.toNat < 2 ^ 31 → At M id sl m s₁ →
      Current running W T sl m →
      (W → call.Cond sl) →
      Holds (extents M running W) (service M running W) (fun _ => ()) call k {id} s₁ g₁) :
    Holds (extents M running W) (service M running W) (fun _ => ()) call (.acquire id k) ∅ s g := by
  intro s₁ g₁ hr
  obtain ⟨T₀, hT₀⟩ := Option.ne_none_iff_exists'.mp hg
  obtain ⟨T, hT, -⟩ := hr.grows id T₀ hT₀
  refine ⟨Set.notMem_empty id, T, hT, fun ⟨hlt, hst, m, hm, hcur⟩ hcond => ?_⟩
  rw [insert_empty_eq]
  exact h s₁ g₁ _ m T hT hlt ⟨rfl, hm, hst⟩ hcur hcond

/-- A call gives up its lock, and `T` is the time of the extent. -/
theorem holds_release {r : Stamped} (hg : g id ≠ none) (hlt : id.toNat < 2 ^ 31)
    (hs : At M id sl m s) (hcur : Current running W T sl m)
    (hcommit : ∀ g₁, g₁ id = g id → call.commit r g₁ (Function.update g₁ id (some T))) :
    Holds (extents M running W) (service M running W) (fun _ => ()) call
      (.release id (.ret r)) {id} s g := by
  intro s₁ g₁ hr
  have hself := hr.value id (Set.mem_singleton id)
  refine ⟨Set.mem_singleton id, Function.update g₁ id (some T), hcommit g₁ hself, ?_, ?_, ?_⟩
  · intro j w hj
    by_cases hji : j = id
    · exact ⟨T, by rw [hji, Function.update_self], rfl⟩
    · exact ⟨w, by rwa [Function.update_of_ne hji], rfl⟩
  · exact fun j hj => Function.update_of_ne hj _ _
  · rintro j rfl
    have hs₁ := hs.same (hr.same j (Set.mem_singleton j))
    refine ⟨T, Function.update_self .., hlt, hs₁.steady, m, hs₁.dates, ?_⟩
    rw [hs₁.face]
    exact hcur

/-- The clock moves on. -/
theorem holds_tick {now : UInt32} :
    Holds (extents M running W) (service M running W) (fun _ => ()) (.tick now)
      (Call.prog M running (.tick now)) ∅ s g := by
  intro s₁ g₁ _ _
  refine ⟨nofun, fun b s₂ hb => ?_⟩
  obtain ⟨-, rfl⟩ := Prod.mk.inj (Option.some.inj hb)
  refine ⟨∅, ⟨subset_rfl, fun _ h => h.elim, fun _ h => h.elim, fun j _ => ?_⟩, fun _ => ?_⟩
  · dsimp only
    split
    case isTrue =>
      refine ⟨rfl, ?_, fun _ => ⟨now, rfl, M.shows_setClock now s₁.im⟩⟩
      simp only [dates, M.times_setClock]
    case isFalse => exact (extents M running W).same_refl j s₁
  · exact ⟨g₁, rfl, .refl _ g₁, fun _ _ => rfl, fun _ h => h.elim⟩

theorem holds_create {ty : UInt32} :
    Holds (extents M running W) (service M running W) (fun _ => ()) (.create c ty)
      (Call.prog M running (.create c ty)) ∅ s g := by
  intro s₁ g₁ _ ha
  refine ⟨fun _ => trivial, fun b s₂ hb => ?_⟩
  obtain ⟨⟨i, t'⟩, halloc, he⟩ := Option.map_eq_some_iff.mp hb
  cases he
  obtain ⟨n, hclock, hshows⟩ := (ha 0).1
  obtain ⟨hshows', hlt, hnone, htimes⟩ := M.alloc_ok hshows halloc
  have h32 : i.toUInt64.toUInt32 = i := UInt32.toUInt32_toUInt64 i
  have hlt' : i.toUInt64.toNat < 2 ^ 31 := (UInt32.toNat_toUInt64 i).symm ▸ hlt
  have hst : Steady M { s₁ with im := t' } := ⟨n, hclock, hshows'⟩
  have hfree : dates M s₁ i.toUInt64 = none := by rw [dates, if_pos hlt', h32, hnone]
  have hdates : dates M { s₁ with im := t' } i.toUInt64 = some (n, n) := by
    rw [dates, if_pos hlt', h32]
    exact (htimes i).trans (if_pos rfl)
  obtain ⟨hown, hcache⟩ := (ha i.toUInt64).2 hfree
  refine ⟨{i.toUInt64},
    ⟨Set.empty_subset _, ?_, ?_, fun j hj => ⟨rfl, ?_, fun _ => hst⟩⟩, fun hnew => ?_⟩
  · rintro j rfl -
    exact hfree
  · rintro j rfl
    refine .inr ⟨fun hf => absurd (hdates.symm.trans hf) (by simp), hst, fun hn => ?_⟩
    exact absurd (hdates.symm.trans hn) (by simp)
  · show dates M { s₁ with im := t' } j = dates M s₁ j
    simp only [dates]
    split
    case isTrue hjlt =>
      rw [htimes, if_neg fun he => hj (toUInt32_inj hjlt hlt' (he.trans h32.symm))]
    case isFalse => rfl
  · have hi : g₁ i.toUInt64 = none := hnew _ rfl (Set.notMem_empty _)
    have hhead : s₁.clock.head = n := by
      rw [hclock]
      rfl
    refine ⟨Function.update g₁ i.toUInt64 (some n), ⟨rfl, hi, by rw [hhead]⟩, fun j w hj => ?_,
      fun j hj => ?_, ?_⟩
    · have hji : j ≠ i.toUInt64 := by
        rintro rfl
        simp [hi] at hj
      exact ⟨w, by rwa [Function.update_of_ne hji], rfl⟩
    · exact Function.update_of_ne hj _ _
    · rintro j rfl
      exact ⟨n, Function.update_self .., hlt', hst, _, hdates, .new hown hcache⟩

/-- Code of a call between its lock and its unlock. -/
theorem holds_bind {β : Type} {q : Prog Fault ExtentId (Sys τ) β}
    {k : β → Prog Fault ExtentId (Sys τ) Stamped} {P : β → Sys τ → Prop}
    (h : ∀ {α : Type} {E : Fault → Prop} {Q : α → Set ExtentId → Sys τ → Prop}
      {l : β → Prog Fault ExtentId (Sys τ) α},
      (∀ r s', P r s' → Seg (extents M running W) E (l r) Q {id} s') →
        Seg (extents M running W) E (q >>= l) Q {id} s)
    (hk : ∀ r s' g', P r s' → g' id = g id →
      Holds (extents M running W) (service M running W) (fun _ => ()) call (k r) {id} s' g') :
    Holds (extents M running W) (service M running W) (fun _ => ()) call (q >>= k) {id} s g := by
  refine Holds.bind ?_
  rw [← bind_pure q]
  exact h fun r s' hs' g' _ hg' _ => hk r s' g' hs' (hg' id (Set.mem_singleton id))

/-- **Every call keeps to its extent.** -/
theorem holds_call (h : ∀ c id, call.on? = some (c, id) → running c = true ∧ g id ≠ none) :
    Holds (extents M running W) (service M running W) (fun _ => ()) call
      (call.prog M running) ∅ s g := by
  cases call with
  | tick now => exact holds_tick
  | create c ty => exact holds_create
  | get c id =>
    obtain ⟨hr, hg⟩ := h c id rfl
    rw [Call.prog, Prog.lock_bind]
    refine holds_acquire hg fun s₁ g₁ sl m T hT hlt hs hcur hcond => ?_
    refine holds_bind (P := fun r s' => ∃ sl m, At M id sl m s' ∧ Current running W T sl m)
      (fun hl => seg_get (Set.mem_singleton id) hlt hs hcur hr hcond fun b s₂ sl₂ m₂ f₂ hs₂ hhas =>
        hl _ s₂ ⟨sl₂, m₂, hs₂, hhas.current⟩) ?_
    rintro r s₂ g₂ ⟨sl₂, m₂, hs₂, hcur₂⟩ hg₂
    refine holds_release (by simp [hg₂, hT]) hlt hs₂ hcur₂ fun g₃ hg₃ => ?_
    have hT₃ : g₃ id = some T := by rw [hg₃, hg₂, hT]
    show Function.update g₃ id (some T) = g₃
    rw [← hT₃, Function.update_eq_self]
  | put c id buf =>
    obtain ⟨hr, hg⟩ := h c id rfl
    rw [Call.prog, Prog.lock_bind]
    refine holds_acquire hg fun s₁ g₁ sl m T hT hlt hs hcur _ => ?_
    refine holds_bind (P := fun r s' => r.1 = OK ∧ ∃ sl m, At M id sl m s' ∧
      Current running W r.2 sl m)
      (fun hl => seg_put (Set.mem_singleton id) hlt hs hcur hr fun now s₂ sl₂ m₂ hs₂ hcur₂ =>
        hl _ s₂ ⟨rfl, sl₂, m₂, hs₂, hcur₂⟩) ?_
    rintro r s₂ g₂ ⟨hok, sl₂, m₂, hs₂, hcur₂⟩ hg₂
    exact holds_release (by simp [hg₂, hT]) hlt hs₂ hcur₂ fun g₃ _ => ⟨hok, rfl⟩
  | getattr c id =>
    obtain ⟨hr, hg⟩ := h c id rfl
    rw [Call.prog, Prog.lock_bind]
    refine holds_acquire hg fun s₁ g₁ sl m T hT hlt hs hcur _ => ?_
    refine holds_bind (P := fun r s' => ∃ sl, At M id sl m s' ∧ Current running W T sl m)
      (fun hl => seg_getattr_current (Set.mem_singleton id) hlt hs hcur hr fun a s₂ sl₂ hs₂ hcur₂ =>
        hl _ s₂ ⟨sl₂, hs₂, hcur₂⟩) ?_
    rintro r s₂ g₂ ⟨sl₂, hs₂, hcur₂⟩ hg₂
    refine holds_release (by simp [hg₂, hT]) hlt hs₂ hcur₂ fun g₃ hg₃ => ?_
    have hT₃ : g₃ id = some T := by rw [hg₃, hg₂, hT]
    show Function.update g₃ id (some T) = g₃
    rw [← hT₃, Function.update_eq_self]

end Calls

/-! ## Runs -/

section Main

variable {M : TimedInodes L} {running : String → Bool} {W : Prop} {T₀ : UInt32} {id : ExtentId}
  {log : List (Call × Stamped)} {g : ExtentId → Option UInt32}

/-- The server has just started, at time `T₀`, and so have the clients: there is the root
directory. -/
def Start (M : TimedInodes L) (T₀ : UInt32) (s : Sys τ) : Prop :=
  Extent.Start s ∧ Steady M s ∧ ∀ id, dates M s id = if id = 1 then some (T₀, T₀) else none

/-- The time that a call stamps on an extent, if it does. -/
def stamp (id : ExtentId) : Call × Stamped → Option UInt32
  | (.create _ _, .created _ i, now) => if i = id then now else none
  | (.put _ i _, _, now) => if i = id then now else none
  | _ => none

/-- The time of the last `put`, or else of the creation. -/
def modified (T₀ : UInt32) (id : ExtentId) (log : List (Call × Stamped)) : Option UInt32 :=
  log.foldl (fun T x => (stamp id x).or T) (if id = 1 then some T₀ else none)

theorem modified_snoc (x : Call × Stamped) :
    modified T₀ id (log ++ [x]) = (stamp id x).or (modified T₀ id log) := by
  simp [modified]

/-- The times are what the history says. -/
theorem runs_modified
    (h : (service M running W).Runs (fun i => if i = 1 then some T₀ else none) log g) :
    g id = modified T₀ id log := by
  induction h with
  | nil => rfl
  | @snoc log g g' call r _ hcommit ih =>
    rw [modified_snoc, ← ih]
    have hupdate : ∀ {i : ExtentId} {now : UInt32}, Function.update g i (some now) id =
        (if i = id then some now else none).or (g id) := by
      intro i now
      by_cases hi : i = id
      · simp [hi]
      · simp [hi, Ne.symm hi]
    cases call with
    | tick | get | getattr =>
      cases hcommit
      rfl
    | create c ty =>
      match r, hcommit with
      | (.created _ _, some _), ⟨_, _, hg'⟩ => exact hg' ▸ hupdate
    | put c i buf =>
      match r, hcommit with
      | (.done _, some _), ⟨_, hg'⟩ => exact hg' ▸ hupdate

/-- The root directory and what was stamped have a time. -/
theorem modified_ne_none (h : id = 1 ∨ ∃ x ∈ log, stamp id x ≠ none) :
    modified T₀ id log ≠ none := by
  induction log using List.reverseRecOn with
  | nil =>
    rcases h with rfl | ⟨x, hx, -⟩
    · exact nofun
    · cases hx
  | append_singleton log y ih =>
    rw [modified_snoc, Ne, Option.or_eq_none_iff]
    rintro ⟨hy, hlog⟩
    refine ih ?_ hlog
    rcases h with h | ⟨x, hx, hs⟩
    · exact .inl h
    · rcases List.mem_append.mp hx with hx | hx
      · exact .inr ⟨x, hx, hs⟩
      · rw [List.mem_singleton.mp hx] at hs
        exact absurd hy hs

variable {θ : Type} [DecidableEq θ] {p : Pool Fault ExtentId (Sys τ) Call Stamped θ}

/-- What the threads can get to. -/
def Reached (M : TimedInodes L) (running : String → Bool) (T₀ : UInt32) (W : Prop) :
    Pool Fault ExtentId (Sys τ) Call Stamped θ → Prop :=
  Reachable (Pool.Init (Start M T₀)) (Pool.Step (service M running W) (May running))

/-- Reading does not modify: when no call on an extent is going on, the times that are reported
are those of the last `put`, or of the creation. -/
def Unmodified (M : TimedInodes L) (T₀ : UInt32)
    (p : Pool Fault ExtentId (Sys τ) Call Stamped θ) : Prop :=
  ∀ id T, modified T₀ id p.log = some T → p.owner id = none → reported M p.state id = some (T, T)

theorem Current.reported {s : Sys τ} {m : UInt32 × UInt32} {T : UInt32}
    (h : Current running True T (face s id) m) (hm : dates M s id = some m) :
    reported M s id = some (T, T) := by
  rw [Times.reported]
  cases ho : s.fileManger id with
  | none => exact hm.trans (congrArg some ((h.nobody ho).1 trivial))
  | some o =>
    obtain ⟨-, f, hf, ha, ht⟩ := h.owner o ho
    have hf' : s.cache o id = some f := hf
    simp only [Option.bind_some, hf', if_pos ha, (ht trivial).1]

/-- **Reading does not modify, on runs that meet the condition.** In every state that calls lead to
of which every `get` finds its extent `Readable`, the times that are reported are those of the last
`put`, or of the creation. -/
theorem reading_keeps_times (h : Reached M running T₀ True p) : Unmodified M T₀ p := by
  have hmay : ∀ call log g s,
    (service M running True).Runs (fun i => if i = 1 then some T₀ else none) log g →
      May running call log → Holds (extents M running True) (service M running True) (fun _ => ())
        call (call.prog M running) ∅ s g := by
    intro call log g s hruns hmay
    refine holds_call fun c id hid => ?_
    obtain ⟨hr, hid⟩ := hmay c id hid
    refine ⟨hr, ?_⟩
    rw [runs_modified hruns]
    refine modified_ne_none (hid.imp_right ?_)
    rintro ⟨c', ty, now, hmem⟩
    exact ⟨_, hmem, by simp [stamp]⟩
  have hinit : ∀ s : Sys τ, Start M T₀ s → (∀ i, (extents M running True).always i s) ∧
      ∀ i v, (fun i => if i = 1 then some T₀ else none : ExtentId → Option UInt32) i = some v →
        ¬ (extents M running True).free i s ∧ (extents M running True).obj i v s := by
    rintro s ⟨⟨hown, hcache⟩, hst, hdates⟩
    refine ⟨fun i => ⟨hst, fun _ => ⟨hown i, fun c => hcache c i⟩⟩, fun i v hv => ?_⟩
    have hi : i = 1 := by
      by_contra hne
      simp [hne] at hv
    subst hi
    cases hv
    have h1 : dates M s 1 = some (T₀, T₀) := hdates 1
    refine ⟨fun hf => absurd (h1.symm.trans hf) nofun, by decide, hst, _, h1, ?_⟩
    exact .new (hown 1) fun c => hcache c 1
  obtain ⟨⟨g, hruns, hobj⟩, -, -⟩ := Pool.linearized hmay hinit h
  intro id T hT hfree
  rw [← runs_modified hruns] at hT
  obtain ⟨-, -, m, hm, hcur⟩ := hobj id T hT hfree
  exact hcur.reported hm

end Main

end Yfs.Extent.Times
