import Yfs.Extent.Slice

/-!
# The write-back cache, call by call

Between two calls on an extent its slice is `Idle`: one of the copies is the content, and
the others are marked as not there. This file verifies `get`, `getattr` and `put` of a
client, with the server's handlers and the callbacks they make, from one idle state to
the next.

The sizes in cached attributes are part of it only under a condition `W`: they can be stale
without it.
-/

namespace Yfs.Extent

/-- The content of an extent is `v`: what the client with data has, or else the disk. -/
def Slice.Value (sl : Slice) (v : Bytes) : Prop :=
  ∃ d, sl.disk = some d ∧
    ((∃ c f, sl.cache c = some f ∧ f.data_stat = .ok ∧ v = f.file_data) ∨
      (∀ c f, sl.cache c = some f → f.data_stat = .none) ∧ v = d.data)

/-- Every attributes that count have the right size, if `W` holds. -/
def Slice.Sized (W : Prop) (v : Bytes) (sl : Slice) : Prop :=
  W → v.length < 2 ^ 32 ∧
    ∀ c f, sl.cache c = some f → f.attr_stat = .ok → f.file_attr.size.toNat = v.length

/-- Attributes that count in `sl'` are those of `sl`. -/
def Slice.Keeps (sl sl' : Slice) : Prop :=
  ∀ c f, sl'.cache c = some f → f.attr_stat = .ok → sl.cache c = some f

/-- The file has type `ty`, and so have all attributes that count. -/
def Slice.Typed (ty : Int16) (sl : Slice) : Prop :=
  (∃ d, sl.disk = some d ∧ d.type = ty) ∧
    ∀ c f, sl.cache c = some f → f.attr_stat = .ok → f.file_attr.type = ty.toInt32.toUInt32

/-- Attributes of a file of type `ty` with content `v`. -/
def Right (W : Prop) (ty : Int16) (v : Bytes) (a : Attr) : Prop :=
  a.type = ty.toInt32.toUInt32 ∧ (W → a.size.toNat = v.length)

/-- The extent between two calls, with type `ty` and content `v`. -/
structure Idle (running : String → Bool) (W : Prop) (ty : Int16) (v : Bytes) (sl : Slice) :
    Prop where
  ok : sl.Ok
  value : sl.Value v
  owner : ∀ o, sl.owner = some o →
    running o = true ∧ ∃ f, sl.cache o = some f ∧ f.attr_stat = .ok
  nobody : sl.owner = none → ∀ c f, sl.cache c = some f → f.attr_stat = .none
  sized : sl.Sized W v
  typed : sl.Typed ty

section

variable {running : String → Bool} {W : Prop} {ty : Int16} {v : Bytes} {sl : Slice} {c : String}
  {f : FileData}

/-- Without data anywhere the disk is what counts. -/
theorem Slice.Value.of_none {d : File} (h : sl.Value v) (hd : sl.disk = some d)
    (hn : ∀ c f, sl.cache c = some f → f.data_stat = .none) : v = d.data := by
  obtain ⟨d', hd', hv⟩ := h
  rw [hd] at hd'
  cases hd'
  rcases hv with ⟨c, f, hc, hok, -⟩ | ⟨-, hv⟩
  · simp [hn c f hc] at hok
  · exact hv

/-- The owner's data is what counts. -/
theorem Slice.Value.of_ok (h : sl.Value v) (hok : sl.Ok) (hc : sl.cache c = some f)
    (hf : f.data_stat = .ok) : v = f.file_data := by
  obtain ⟨d, -, hv⟩ := h
  rcases hv with ⟨c', f', hc', hf', hv⟩ | ⟨hn, -⟩
  · have ho := hok c f hc hf
    rw [hok c' f' hc' hf'] at ho
    cases ho
    rw [hc] at hc'
    cases hc'
    exact hv
  · simp [hn c f hc] at hf

/-- Attributes that come from the disk are right, if the content is there. -/
theorem Slice.Typed.right {d : File} {a : Attr} (h : sl.Typed ty) (hd : sl.disk = some d)
    (hty : a.type = d.type.toInt32.toUInt32) (ha : a.size = .ofNat d.data.length) (hv : d.data = v)
    (hlen : W → v.length < 2 ^ 32) : Right W ty v a := by
  obtain ⟨⟨d', hd', rfl⟩, -⟩ := h
  rw [hd] at hd'
  cases hd'
  refine ⟨hty, fun hw => ?_⟩
  rw [ha, hv]
  exact Nat.mod_eq_of_lt (hlen hw)

/-- A new extent. -/
theorem Idle.new : Idle running W ty [] ⟨none, fun _ => none, some ⟨ty, []⟩⟩ :=
  ⟨nofun, ⟨_, rfl, .inr ⟨nofun, rfl⟩⟩, nofun, nofun, fun _ => ⟨by simp, nofun⟩,
    ⟨_, rfl, rfl⟩, nofun⟩

/-- An entry that was just made changes nothing. -/
theorem Idle.enter (h : Idle running W ty v sl)
    (hf : sl.cache c = some f ∨ sl.cache c = none ∧ f.data_stat = .none ∧ f.attr_stat = .none) :
    Idle running W ty v (sl.setFile c f) := by
  rcases hf with hf | ⟨hc, hd, ha⟩
  · rwa [Slice.setFile_self hf]
  · -- what the other entries are, and that the new one has no flag set
    have hx : ∀ x f', (sl.setFile c f).cache x = some f' → sl.cache x = some f' ∨ f' = f := by
      intro x f' hx
      rw [Slice.setFile_cache] at hx
      split at hx
      case isTrue => exact .inr (Option.some.inj hx).symm
      case isFalse => exact .inl hx
    refine ⟨h.ok.setFile fun hok => ?_, ?_, ?_, ?_, ?_, h.typed.1, fun x f' hxf hok => ?_⟩
    · simp [hd] at hok
    · obtain ⟨d, hdisk, hv⟩ := h.value
      refine ⟨d, hdisk, ?_⟩
      rcases hv with ⟨c', f', hc', hf', hv⟩ | ⟨hn, hv⟩
      · refine .inl ⟨c', f', ?_, hf', hv⟩
        rw [Slice.setFile_cache, if_neg]
        · exact hc'
        · rintro rfl
          simp [hc] at hc'
      · refine .inr ⟨fun x f' hxf => ?_, hv⟩
        rcases hx x f' hxf with h' | rfl
        · exact hn x f' h'
        · exact hd
    · intro o ho
      obtain ⟨hr, f', hf', ha'⟩ := h.owner o ho
      refine ⟨hr, f', ?_, ha'⟩
      rw [Slice.setFile_cache, if_neg]
      · exact hf'
      · rintro rfl
        simp [hc] at hf'
    · intro ho x f' hxf
      rcases hx x f' hxf with h' | rfl
      · exact h.nobody ho x f' h'
      · exact ha
    · intro hw
      obtain ⟨hlen, hs⟩ := h.sized hw
      refine ⟨hlen, fun x f' hxf hok => ?_⟩
      rcases hx x f' hxf with h' | rfl
      · exact hs x f' h' hok
      · simp [ha] at hok
    · rcases hx x f' hxf with h' | rfl
      · exact h.typed.2 x f' h' hok
      · simp [ha] at hok

/-- All copies in caches are marked as not there, and client `c` is the owner: the state
in which the server answers a `get` of `c`. -/
structure Clean (W : Prop) (ty : Int16) (c : String) (v : Bytes) (sl : Slice) : Prop where
  owner : sl.owner = some c
  disk : ∃ d, sl.disk = some d ∧ d.data = v
  none : ∀ c f, sl.cache c = some f → f.data_stat = .none
  sized : sl.Sized W v
  typed : sl.Typed ty

theorem Clean.ok (h : Clean W ty c v sl) : sl.Ok := by
  intro x f hx hf
  simp [h.none x f hx] at hf

end

section Server

variable {κ α τ : Type} {L : InodeLayer τ} {M : LawfulInodes L} {N : Prop}
  {obj : ExtentId → κ → Slice → Prop} {E : Fault → Prop} {H : Set ExtentId} {s : Sys τ}
  {i : ExtentId} {sl : Slice} {c : String} {f : FileData} {d : File}
  {Q : α → Set ExtentId → Sys τ → Prop} {running : String → Bool} {W : Prop}
  {ty : Int16} {v : Bytes}

/-- `flush_handler`, called back at a client with an entry: data is written to the disk
and forgotten. -/
theorem seg_flush {k : Status → Prog Fault ExtentId (Sys τ) α} (hN : N) (hi : i ∈ H)
    (hlt : i.toNat < 2 ^ 31) (hs : s.slice M i = sl) (hd : sl.disk = some d) (hok : sl.Ok)
    (hc : sl.cache c = some f)
    (h₀ : f.data_stat = .none → ∀ s', s'.slice M i = sl → Seg (objects M N obj) E (k OK) Q H s')
    (h₁ : f.data_stat = .ok → ∀ s',
      s'.slice M i = (sl.setDisk { d with data := f.file_data }).setFile c
        { f with data_stat := .none, attr_stat := .none } → Seg (objects M N obj) E (k OK) Q H s') :
    Seg (objects M N obj) E (Client.flush_handler (Sys.host c) (Server.put L) i >>= k) Q H s := by
  rw [Client.flush_handler, bind_assoc]
  refine seg_slice_step hi hs fun s₁ hs₁ => ⟨fun _ _ => rfl, ⟨d, hs₁.symm ▸ hd⟩, hs₁.symm ▸ hok, ?_⟩
  have hf : (Sys.host c).fileManager s₁ i = some f := by
    rw [← hc, ← hs₁]
    rfl
  simp only [hf, bind_assoc]
  refine seg_file hi hs₁ hd hok hc fun s₂ hs₂ => ?_
  cases hst : f.data_stat with
  | none =>
    rw [if_pos rfl, pure_bind]
    exact h₀ hst s₂ hs₂
  | ok =>
    rw [if_neg nofun, bind_assoc]
    refine seg_file hi hs₂ hd hok hc fun s₃ hs₃ => ?_
    rw [bind_assoc]
    refine seg_server_put hN hi hlt hs₃ hd hok fun s₄ hs₄ => ?_
    rw [bind_assoc]
    refine seg_update hi hs₄ rfl hok hc nofun fun s₅ hs₅ => ?_
    rw [bind_assoc]
    refine seg_update hi hs₅ rfl (hok.setFile nofun) Slice.setFile_cache_self nofun
      fun s₆ hs₆ => ?_
    rw [Slice.setFile_setFile] at hs₆
    rw [pure_bind]
    exact h₁ hst s₆ hs₆

/-- The end of the `get` handler, once nobody has data. -/
theorem seg_server_get_end {k : Status × Bytes → Prog Fault ExtentId (Sys τ) α} (hi : i ∈ H)
    (hlt : i.toNat < 2 ^ 31) (hs : s.slice M i = sl) (hd : sl.disk = some d) (hv : d.data = v)
    (hn : ∀ x f, sl.cache x = some f → f.data_stat = .none) (hsz : sl.Sized W v) (hty : sl.Typed ty)
    (h : ∀ s', s'.slice M i = sl.setOwner c → Clean W ty c v (sl.setOwner c) →
      Seg (objects M N obj) E (k (OK, v)) Q H s') :
    Seg (objects M N obj) E
      (do
        Server.setOwner c i
        let cbuf ← Server.im (L.read_file i.toUInt32)
        k (OK, cbuf)) Q H s := by
  have hclean : Clean W ty c v (sl.setOwner c) := ⟨rfl, ⟨d, hd, hv⟩, hn, hsz, hty⟩
  refine seg_setOwner hi hs hd hclean.ok fun s₁ hs₁ => ?_
  refine seg_read_file hi hlt hs₁ hd hclean.ok fun s₂ hs₂ => ?_
  rw [hv]
  exact h s₂ hs₂ hclean

/-- The `get` handler for a client without data: the owner's data is flushed, the disk is
read, and the client becomes the owner. -/
theorem seg_server_get {k : Status × Bytes → Prog Fault ExtentId (Sys τ) α} (hi : i ∈ H)
    (hlt : i.toNat < 2 ^ 31) (hs : s.slice M i = sl) (hidle : Idle running W ty v sl)
    (hN : ∀ o, running o = true → o ≠ c → N) (hc : sl.cache c = some f) (hf : f.data_stat = .none)
    (h : ∀ s' sl', s'.slice M i = sl' → Clean W ty c v sl' → sl'.cache c = some f → sl.Keeps sl' →
      Seg (objects M N obj) E (k (OK, v)) Q H s') :
    Seg (objects M N obj) E (Server.get L running c i >>= k) Q H s := by
  obtain ⟨d, hd, -⟩ := hidle.value
  rw [Server.get, Server.mask_eq hlt]
  simp only [bind_assoc, pure_bind]
  refine seg_owner hi hs hd hidle.ok fun s₁ o hs₁ ho => ?_
  -- without a callback nobody has data already
  have hself : o = c → ∀ x f', sl.cache x = some f' → f'.data_stat = .none := by
    rintro rfl x f' hx
    cases hst : f'.data_stat with
    | none => rfl
    | ok =>
      have hox := hidle.ok x f' hx hst
      rcases ho with ho | ⟨ho, -⟩
      · rw [ho] at hox
        cases hox
        rw [hc] at hx
        cases hx
        simp [hf] at hst
      · simp [ho] at hox
  by_cases hoc : o = c
  · rw [if_neg (not_not.mpr hoc), pure_bind]
    have hn := hself hoc
    exact seg_server_get_end hi hlt hs₁ hd (hidle.value.of_none hd hn).symm hn hidle.sized
      hidle.typed
      fun s₂ hs₂ hcl => h s₂ _ hs₂ hcl hc fun _ _ hx _ => hx
  · have howner : sl.owner = some o := ho.resolve_right fun h' => hoc h'.2
    obtain ⟨hrun, fo, hfo, -⟩ := hidle.owner o howner
    rw [if_pos hoc, Server.callback, if_pos hrun, bind_assoc]
    simp only [pure_bind]
    rw [Slice.setOwner_self howner] at hs₁
    -- what nobody but the owner had
    have hothers : ∀ x f', x ≠ o → sl.cache x = some f' → f'.data_stat = .none := by
      intro x f' hxo hx
      cases hst : f'.data_stat with
      | none => rfl
      | ok =>
        have hox := hidle.ok x f' hx hst
        rw [howner] at hox
        exact absurd (Option.some.inj hox).symm hxo
    refine seg_flush (hN o hrun hoc) hi hlt hs₁ hd hidle.ok hfo (fun hst s₂ hs₂ => ?_)
      (fun hst s₂ hs₂ => ?_)
    · have hn : ∀ x f', sl.cache x = some f' → f'.data_stat = .none := by
        intro x f' hx
        by_cases hxo : x = o
        · rw [hxo, hfo] at hx
          cases hx
          exact hst
        · exact hothers x f' hxo hx
      exact seg_server_get_end hi hlt hs₂ hd
        (hidle.value.of_none hd hn).symm hn hidle.sized hidle.typed
        fun s₃ hs₃ hcl => h s₃ _ hs₃ hcl hc fun _ _ hx _ => hx
    · -- an entry that still has attributes is not the one that was flushed
      have hkeep : sl.Keeps ((sl.setDisk { d with data := fo.file_data }).setFile o
          { fo with data_stat := .none, attr_stat := .none }) := by
        intro x f' hx ha
        rw [Slice.setFile_cache] at hx
        split at hx
        case isTrue =>
          cases hx
          cases ha
        case isFalse => exact hx
      refine seg_server_get_end hi hlt hs₂ rfl
        (hidle.value.of_ok hidle.ok hfo hst).symm ?_ ?_ ⟨?_, ?_⟩
        fun s₃ hs₃ hcl => h s₃ _ hs₃ hcl ?_ hkeep
      · intro x f' hx
        rw [Slice.setFile_cache] at hx
        split at hx
        case isTrue =>
          cases hx
          rfl
        case isFalse hxo => exact hothers x f' hxo hx
      · intro hw
        obtain ⟨hlen, hsz⟩ := hidle.sized hw
        exact ⟨hlen, fun x f' hx ha => hsz x f' (hkeep x f' hx ha) ha⟩
      · obtain ⟨⟨d', hd', hty⟩, -⟩ := hidle.typed
        rw [hd] at hd'
        cases hd'
        exact ⟨_, rfl, hty⟩
      · exact fun x f' hx ha => hidle.typed.2 x f' (hkeep x f' hx ha) ha
      · rw [Slice.setOwner_cache, Slice.setFile_cache, if_neg (Ne.symm hoc)]
        exact hc

/-- The `getattr` handler: the attributes are the owner's, or the disk's for the owner
itself. -/
theorem seg_server_getattr {k : Status × Attr → Prog Fault ExtentId (Sys τ) α} {A : Attr → Prop}
    (hi : i ∈ H) (hlt : i.toNat < 2 ^ 31) (hs : s.slice M i = sl)
    (hd : sl.disk = some d) (hok : sl.Ok)
    (hown : ∀ o, sl.owner = some o → o ≠ c → running o = true ∧
      ∃ fo, sl.cache o = some fo ∧ A fo.file_attr)
    (hself : (∀ o, sl.owner = some o → o = c) → ∀ a : Attr, a.type = d.type.toInt32.toUInt32 →
      a.size = .ofNat d.data.length → A a)
    (h : ∀ s' o a, s'.slice M i = sl.setOwner o → (sl.owner = some o ∨ sl.owner = none ∧ o = c) →
      A a → Seg (objects M N obj) E (k (OK, a)) Q H s') :
    Seg (objects M N obj) E (Server.getattr L running c i >>= k) Q H s := by
  rw [Server.getattr, Server.mask_eq hlt]
  simp only [bind_assoc, pure_bind]
  refine seg_owner hi hs hd hok fun s₁ o hs₁ ho => ?_
  have hok' : (sl.setOwner o).Ok := by
    intro x f hx hf
    have hox := hok x f hx hf
    rcases ho with ho | ⟨ho, -⟩
    · rwa [ho] at hox
    · simp [ho] at hox
  by_cases hoc : o = c
  · rw [if_neg (not_not.mpr hoc)]
    refine seg_getattr_im hi hlt hs₁ hd hok' fun a s₂ hty ha hs₂ => h s₂ o a hs₂ ho ?_
    refine hself (fun o' ho' => ?_) a hty ha
    rcases ho with ho | ⟨ho, -⟩
    · rw [ho] at ho'
      exact (Option.some.inj ho').symm.trans hoc
    · simp [ho] at ho'
  · have howner : sl.owner = some o := ho.resolve_right fun h' => hoc h'.2
    obtain ⟨hrun, fo, hfo, hA⟩ := hown o howner hoc
    rw [if_pos hoc, Server.callback, if_pos hrun, Client.get_attr_handler]
    simp only [bind_assoc, pure_bind]
    exact seg_file hi hs₁ hd hok' hfo fun s₂ hs₂ => h s₂ o _ hs₂ ho hA

end Server

/-! ## The clients' operations -/

section Client

variable {κ α τ : Type} {L : InodeLayer τ} {M : LawfulInodes L} {N : Prop}
  {obj : ExtentId → κ → Slice → Prop} {E : Fault → Prop} {H : Set ExtentId} {s : Sys τ}
  {i : ExtentId} {sl : Slice} {c : String} {f : FileData} {d : File}
  {Q : α → Set ExtentId → Sys τ → Prop} {running : String → Bool} {W : Prop}
  {ty : Int16} {v : Bytes}

/-- `getattr` of a client, from its cache or from the server. -/
theorem seg_getattr {k : Status × Attr → Prog Fault ExtentId (Sys τ) α} {attr : Attr}
    {A : Attr → Prop} (hi : i ∈ H)
    (hlt : i.toNat < 2 ^ 31) (hs : s.slice M i = sl) (hd : sl.disk = some d) (hok : sl.Ok)
    (hown : ∀ o, sl.owner = some o → o ≠ c → running o = true ∧
      ∃ fo, sl.cache o = some fo ∧ A fo.file_attr)
    (hself : (∀ o, sl.owner = some o → o = c) →
      (∀ f, sl.cache c = some f → f.attr_stat = .none) → ∀ a : Attr,
        a.type = d.type.toInt32.toUInt32 → a.size = .ofNat d.data.length → A a)
    (hcached : ∀ f, sl.cache c = some f → f.attr_stat = .ok → A f.file_attr)
    (h : ∀ s' f a,
      (sl.cache c = some f ∨ sl.cache c = none ∧ f.data_stat = .none ∧ f.attr_stat = .none) → A a →
      (f.attr_stat = .ok ∧ s'.slice M i = sl.setFile c f ∨
        f.attr_stat = .none ∧ ∃ o, (sl.owner = some o ∨ sl.owner = none ∧ o = c) ∧
          s'.slice M i = (sl.setOwner o).setFile c { f with file_attr := a, attr_stat := .ok }) →
      Seg (objects M N obj) E (k (OK, a)) Q H s') :
    Seg (objects M N obj) E
      (Client.getattr (Sys.host c) (Sys.calls L running) i attr >>= k) Q H s := by
  rw [Client.getattr, bind_assoc]
  refine seg_enter hi hs hd hok fun s₁ f hs₁ hf => ?_
  -- a new entry claims no data
  have hdata : f.data_stat = .ok → sl.owner = some c := by
    rcases hf with hf | ⟨-, hf, -⟩
    · exact hok c f hf
    · simp [hf]
  have hok₁ : (sl.setFile c f).Ok := hok.setFile hdata
  simp only [bind_assoc]
  refine seg_file hi hs₁ hd hok₁ Slice.setFile_cache_self fun s₂ hs₂ => ?_
  cases hst : f.attr_stat with
  | none =>
    simp only [bind_assoc, pure_bind]
    refine seg_server_getattr (A := A) hi hlt hs₂ hd hok₁ ?_ ?_ fun s₃ o a hs₃ ho ha => ?_
    · intro o ho hoc
      obtain ⟨hr, fo, hfo, hsz⟩ := hown o ho hoc
      exact ⟨hr, fo, Slice.setFile_cache.trans ((if_neg hoc).trans hfo), hsz⟩
    · refine fun hall => hself hall fun f' hf' => ?_
      rcases hf with hf | ⟨hf, -⟩
      · rw [hf] at hf'
        cases hf'
        exact hst
      · simp [hf] at hf'
    · have hok₃ : ((sl.setFile c f).setOwner o).Ok := by
        intro x f' hx hf'
        have hox := hok₁ x f' hx hf'
        rcases ho with ho | ⟨ho, -⟩
        · exact ho.symm.trans hox
        · exact absurd (ho.symm.trans hox) (by simp)
      have hdata₃ : f.data_stat = .ok → ((sl.setFile c f).setOwner o).owner = some c :=
        hok₃ c f Slice.setFile_cache_self
      refine seg_update hi hs₃ hd hok₃ Slice.setFile_cache_self hdata₃ fun s₄ hs₄ => ?_
      refine seg_update hi hs₄ hd (hok₃.setFile hdata₃) Slice.setFile_cache_self hdata₃
        fun s₅ hs₅ => ?_
      refine h s₅ f a hf ha (.inr ⟨hst, o, ho, hs₅.trans ?_⟩)
      rw [Slice.setFile_setFile]
      show ((sl.setOwner o).setFile c f).setFile c _ = _
      rw [Slice.setFile_setFile]
  | ok =>
    simp only [bind_assoc, pure_bind]
    refine seg_file hi hs₂ hd hok₁ Slice.setFile_cache_self fun s₃ hs₃ => ?_
    refine h s₃ f f.file_attr hf ?_ (.inl ⟨hst, hs₃⟩)
    rcases hf with hf | ⟨-, -, hf⟩
    · exact hcached f hf hst
    · simp [hst] at hf

/-- Client `c` has the content `v`, and nobody else has it: the state after a `get`. -/
structure Has (running : String → Bool) (W : Prop) (ty : Int16) (c : String) (v : Bytes)
    (sl : Slice) : Prop where
  idle : Idle running W ty v sl
  owner : sl.owner = some c
  entry : ∃ f, sl.cache c = some f ∧ f.data_stat = .ok ∧ f.attr_stat = .ok ∧ f.file_data = v

/-- The owner writes its entry, when nobody else has data. -/
theorem Idle.of_owner {f' : FileData} (hd : sl.disk = some d) (ho : sl.owner = some c)
    (hty : sl.Typed ty) (hty' : f'.file_attr.type = ty.toInt32.toUInt32)
    (hn : ∀ x f, x ≠ c → sl.cache x = some f → f.data_stat = .none) (hr : running c = true)
    (hf : f'.data_stat = .ok) (ha : f'.attr_stat = .ok) (hv : f'.file_data = v)
    (hsz : W → v.length < 2 ^ 32 ∧ f'.file_attr.size.toNat = v.length ∧
      ∀ x f, x ≠ c → sl.cache x = some f → f.attr_stat = .ok →
        f.file_attr.size.toNat = v.length) :
    Idle running W ty v (sl.setFile c f') := by
  have hx : ∀ x f, (sl.setFile c f').cache x = some f →
      x = c ∧ f = f' ∨ x ≠ c ∧ sl.cache x = some f := by
    intro x f hx
    rw [Slice.setFile_cache] at hx
    split at hx
    case isTrue hxc => exact .inl ⟨hxc, (Option.some.inj hx).symm⟩
    case isFalse hxc => exact .inr ⟨hxc, hx⟩
  refine ⟨?_, ⟨d, hd, .inl ⟨c, f', Slice.setFile_cache_self, hf, hv.symm⟩⟩, ?_, ?_, ?_, hty.1, ?_⟩
  · intro x f hxf hfx
    rcases hx x f hxf with ⟨rfl, -⟩ | ⟨hxc, hxf⟩
    · exact ho
    · simp [hn x f hxc hxf] at hfx
  · intro o ho'
    rw [Slice.setFile_owner, ho] at ho'
    cases ho'
    exact ⟨hr, f', Slice.setFile_cache_self, ha⟩
  · intro ho'
    rw [Slice.setFile_owner, ho] at ho'
    cases ho'
  · intro hw
    obtain ⟨hlen, hself, hothers⟩ := hsz hw
    refine ⟨hlen, fun x f hxf hok => ?_⟩
    rcases hx x f hxf with ⟨-, rfl⟩ | ⟨hxc, hxf⟩
    · exact hself
    · exact hothers x f hxc hxf hok
  · intro x f hxf hok
    rcases hx x f hxf with ⟨-, rfl⟩ | ⟨-, hxf⟩
    · exact hty'
    · exact hty.2 x f hxf hok

/-- Nobody but the owner has data. -/
theorem Slice.Ok.others (hok : sl.Ok) (ho : sl.owner = some c) {x : String} (hxc : x ≠ c)
    (hx : sl.cache x = some f) : f.data_stat = .none := by
  cases hst : f.data_stat with
  | none => rfl
  | ok => exact absurd (Option.some.inj (ho.symm.trans (hok x f hx hst))).symm hxc

/-- In a clean state the owner may enter the content it got. -/
theorem Clean.has {f' : FileData} (h : Clean W ty c v sl) (hr : running c = true)
    (hf : f'.data_stat = .ok) (ha : f'.attr_stat = .ok) (hv : f'.file_data = v)
    (hright : Right W ty v f'.file_attr) : Has running W ty c v (sl.setFile c f') := by
  obtain ⟨d, hd, -⟩ := h.disk
  refine ⟨.of_owner hd h.owner h.typed hright.1 (fun x f _ => h.none x f) hr hf ha hv fun hw => ?_,
    h.owner, f', Slice.setFile_cache_self, hf, ha, hv⟩
  obtain ⟨hlen, hs⟩ := h.sized hw
  exact ⟨hlen, hright.2 hw, fun x f _ => hs x f⟩

/-- Changing times only. -/
theorem Has.setFile {f' : FileData} (h : Has running W ty c v sl) (hc : sl.cache c = some f)
    (hd : f'.data_stat = f.data_stat) (ha : f'.attr_stat = f.attr_stat)
    (hv : f'.file_data = f.file_data) (hsz : f'.file_attr.size = f.file_attr.size)
    (hty : f'.file_attr.type = f.file_attr.type) :
    Has running W ty c v (sl.setFile c f') := by
  obtain ⟨f₀, hf₀, hdok, haok, hfd⟩ := h.entry
  rw [hc] at hf₀
  cases hf₀
  obtain ⟨d, hdisk, -⟩ := h.idle.value
  refine ⟨.of_owner hdisk h.owner h.idle.typed (hty.trans (h.idle.typed.2 c f hc haok))
    (fun x fx hxc hx => h.idle.ok.others h.owner hxc hx) (h.idle.owner c h.owner).1 (hd.trans hdok)
      (ha.trans haok) (hv.trans hfd) fun hw => ?_,
    h.owner, f', Slice.setFile_cache_self, hd.trans hdok, ha.trans haok, hv.trans hfd⟩
  obtain ⟨hlen, hs⟩ := h.idle.sized hw
  rw [hsz]
  exact ⟨hlen, hs c f hc haok, fun x fx _ => hs x fx⟩

/-- Attributes of the other clients that count in `sl'` are those of `sl`, and belong to
no data. -/
def Slice.Others (c : String) (sl sl' : Slice) : Prop :=
  ∀ x f, x ≠ c → sl'.cache x = some f → f.attr_stat = .ok →
    sl.cache x = some f ∧ f.data_stat = .none

theorem Slice.Others.setFile {sl' : Slice} (h : sl.Others c sl') (f : FileData) :
    sl.Others c (sl'.setFile c f) := by
  intro x f' hxc hx
  rw [Slice.setFile_cache, if_neg hxc] at hx
  exact h x f' hxc hx

/-- The uncached branch of `get`. -/
theorem seg_fetch {k : Status × Bytes → Prog Fault ExtentId (Sys τ) α} {buf : Bytes} (hi : i ∈ H)
    (hlt : i.toNat < 2 ^ 31) (hs : s.slice M i = sl) (hidle : Idle running W ty v sl)
    (hr : running c = true) (hN : ∀ o, running o = true → o ≠ c → N) (hc : sl.cache c = some f)
    (hf : f.data_stat = .none)
    (h : ∀ s' sl', s'.slice M i = sl' → Has running W ty c v sl' → sl.Others c sl' →
      Seg (objects M N obj) E (k (OK, v)) Q H s') :
    Seg (objects M N obj) E
      (Client.fetch (Sys.host c) (Sys.calls L running) i buf >>= k) Q H s := by
  rw [Client.fetch, bind_assoc]
  refine seg_server_get hi hlt hs hidle hN hc hf fun s₁ sl₁ hs₁ hcl hc₁ hkeep => ?_
  obtain ⟨d, hd, hdv⟩ := hcl.disk
  have hothers : sl.Others c sl₁ := fun x f' _ hx ha => ⟨hkeep x f' hx ha, hcl.none x f' hx⟩
  simp only [bind_assoc, pure_bind]
  refine seg_update hi hs₁ hd hcl.ok hc₁ (fun _ => hcl.owner) fun s₂ hs₂ => ?_
  have hok₂ : (sl₁.setFile c { f with file_data := v }).Ok := hcl.ok.setFile fun _ => hcl.owner
  refine seg_update hi hs₂ hd hok₂ Slice.setFile_cache_self (fun _ => hcl.owner) fun s₃ hs₃ => ?_
  rw [Slice.setFile_setFile] at hs₃
  have hok₃ : (sl₁.setFile c { f with file_data := v, data_stat := .ok }).Ok :=
    hcl.ok.setFile fun _ => hcl.owner
  refine seg_file hi hs₃ hd hok₃ Slice.setFile_cache_self fun s₄ hs₄ => ?_
  cases hst : f.attr_stat with
  | none =>
    rw [if_pos rfl]
    simp only [bind_assoc]
    refine seg_getattr (A := Right W ty v) hi hlt hs₄ hd hok₃ ?_ ?_ ?_ fun s₅ f' a hf' ha hor => ?_
    · intro o ho hoc
      exact absurd (Option.some.inj (hcl.owner.symm.trans ho)).symm hoc
    · intro _ _ a hta hsa
      exact hcl.typed.right hd hta hsa hdv fun hw => (hcl.sized hw).1
    · intro f' hf' ha
      rw [Slice.setFile_cache_self] at hf'
      cases hf'
      simp [hst] at ha
    · -- the entry is the one just written, and the client is the owner
      obtain rfl : f' = { f with file_data := v, data_stat := .ok } := by
        rcases hf' with hf' | ⟨hf', -⟩
        · rw [Slice.setFile_cache_self] at hf'
          exact (Option.some.inj hf').symm
        · simp at hf'
      rcases hor with ⟨hok', -⟩ | ⟨-, o, ho, hs₅⟩
      · simp [hst] at hok'
      · obtain rfl : o = c := by
          rcases ho with ho | ⟨ho, -⟩
          · exact (Option.some.inj (hcl.owner.symm.trans ho)).symm
          · exact absurd (hcl.owner.symm.trans ho) (by simp)
        have hsl :
            ((sl₁.setFile o { f with file_data := v, data_stat := .ok }).setOwner o).setFile o
              { f with file_data := v, data_stat := .ok, file_attr := a, attr_stat := .ok } =
            sl₁.setFile o { f with
              file_data := v, data_stat := .ok, file_attr := a, attr_stat := .ok } := by
          have ho₃ : (sl₁.setFile o { f with file_data := v, data_stat := .ok }).owner = some o :=
            hcl.owner
          rw [Slice.setOwner_self ho₃, Slice.setFile_setFile]
        rw [hsl] at hs₅
        have hok₅ : (sl₁.setFile o { f with
            file_data := v, data_stat := .ok, file_attr := a, attr_stat := .ok }).Ok :=
          hcl.ok.setFile fun _ => hcl.owner
        refine seg_update hi hs₅ hd hok₅ Slice.setFile_cache_self (fun _ => hcl.owner)
          fun s₆ hs₆ => ?_
        rw [Slice.setFile_setFile] at hs₆
        exact h s₆ _ hs₆ (hcl.has hr rfl rfl rfl ha) (hothers.setFile _)
  | ok =>
    rw [if_neg nofun, pure_bind]
    exact h s₄ _ hs₄ (hcl.has hr rfl hst rfl
      ⟨hcl.typed.2 c f hc₁ hst, fun hw => (hcl.sized hw).2 c f hc₁ hst⟩) (hothers.setFile _)

/-- **`get` returns the content**, and leaves its client as the only one with data. -/
theorem seg_get {k : Status × Bytes → Prog Fault ExtentId (Sys τ) α} {buf : Bytes} (hi : i ∈ H)
    (hlt : i.toNat < 2 ^ 31) (hs : s.slice M i = sl) (hidle : Idle running W ty v sl)
    (hr : running c = true) (hN : ∀ o, running o = true → o ≠ c → N)
    (h : ∀ s' sl', s'.slice M i = sl' → Has running W ty c v sl' → sl.Others c sl' →
      Seg (objects M N obj) E (k (OK, v)) Q H s') :
    Seg (objects M N obj) E (Client.get (Sys.host c) (Sys.calls L running) i buf >>= k) Q H s := by
  obtain ⟨d, hd, -⟩ := hidle.value
  rw [Client.get, bind_assoc]
  refine seg_enter hi hs hd hidle.ok fun s₁ f hs₁ hf => ?_
  have hidle₁ := hidle.enter hf
  simp only [bind_assoc]
  refine seg_file hi hs₁ hd hidle₁.ok Slice.setFile_cache_self fun s₂ hs₂ => ?_
  -- both branches end with the content in the cache, and then the access time is set
  have hend : ∀ s₃ sl₃, s₃.slice M i = sl₃ → Has running W ty c v sl₃ → sl.Others c sl₃ →
      Seg (objects M N obj) E
        (do
          let now_time ← Client.time (Sys.host c)
          Client.update (Sys.host c) i fun f =>
            { f with file_attr := { f.file_attr with atime := now_time } }
          k (OK, v)) Q H s₃ := by
    intro s₃ sl₃ hs₃ hhas hoth
    obtain ⟨d₃, hd₃, -⟩ := hhas.idle.value
    obtain ⟨f₃, hf₃, hd, -⟩ := hhas.entry
    refine seg_time hi hs₃ hd₃ hhas.idle.ok fun now s₄ hs₄ => ?_
    refine seg_update hi hs₄ hd₃ hhas.idle.ok hf₃ (fun _ => hhas.owner) fun s₅ hs₅ => ?_
    exact h s₅ _ hs₅ (hhas.setFile hf₃ rfl rfl rfl rfl rfl) (hoth.setFile _)
  cases hst : f.data_stat with
  | none =>
    refine seg_fetch hi hlt hs₂ hidle₁ hr hN Slice.setFile_cache_self hst
      fun s₃ sl₃ hs₃ hhas hoth => ?_
    rw [pure_bind]
    refine hend s₃ sl₃ hs₃ hhas fun x fx hxc hx ha => ?_
    have := hoth x fx hxc hx ha
    rwa [Slice.setFile_cache, if_neg hxc] at this
  | ok =>
    -- a cached copy is not a new entry, so the slice is as it was
    have hc : sl.cache c = some f := hf.resolve_right fun h' => by simp [h'.2.1] at hst
    rw [Slice.setFile_self hc] at hs₂ hidle₁
    have howner : sl.owner = some c := hidle.ok c f hc hst
    simp only [bind_assoc, pure_bind]
    refine seg_file hi hs₂ hd hidle.ok hc fun s₃ hs₃ => ?_
    rw [← hidle.value.of_ok hidle.ok hc hst]
    refine hend s₃ sl hs₃ ⟨hidle, howner, ?_⟩
      fun x fx hxc hx _ => ⟨hx, hidle.ok.others howner hxc hx⟩
    obtain ⟨-, f', hf', ha⟩ := hidle.owner c howner
    rw [hc] at hf'
    cases hf'
    exact ⟨f, hc, hst, ha, (hidle.value.of_ok hidle.ok hc hst).symm⟩

/-- The condition on a `put` under which no cached size becomes stale: the size fits into
32 bits, and whoever else has attributes without data already has this size. -/
def PutCond (c : String) (n : ℕ) (sl : Slice) : Prop :=
  n < 2 ^ 32 ∧ ∀ x f, x ≠ c → sl.cache x = some f → f.data_stat = .none → f.attr_stat = .ok →
    f.file_attr.size.toNat = n

/-- The owner overwrites the content. -/
theorem seg_overwrite {k : Status → Prog Fault ExtentId (Sys τ) α} {buf : Bytes} (sl₀ : Slice)
    (hi : i ∈ H) (hs : s.slice M i = sl) (hhas : Has running W ty c v sl) (hoth : sl₀.Others c sl)
    (hcond : W → PutCond c buf.length sl₀)
    (h : ∀ s' sl', s'.slice M i = sl' → Idle running W ty buf sl' →
      Seg (objects M N obj) E (k OK) Q H s') :
    Seg (objects M N obj) E
      (do
        let now_time ← Client.time (Sys.host c)
        Client.update (Sys.host c) i ({ · with file_data := buf })
        Client.update (Sys.host c) i fun f => { f with file_attr :=
          { f.file_attr with size := .ofNat buf.length, ctime := now_time, mtime := now_time } }
        Client.update (Sys.host c) i ({ · with data_stat := .ok })
        Client.update (Sys.host c) i ({ · with attr_stat := .ok })
        k OK) Q H s := by
  obtain ⟨d, hd, -⟩ := hhas.idle.value
  obtain ⟨f, hf, -, haf, -⟩ := hhas.entry
  have ho : ∀ f' : FileData, (sl.setFile c f').Ok :=
    fun _ => hhas.idle.ok.setFile fun _ => hhas.owner
  refine seg_time hi hs hd hhas.idle.ok fun now s₁ hs₁ => ?_
  refine seg_update hi hs₁ hd hhas.idle.ok hf (fun _ => hhas.owner) fun s₂ hs₂ => ?_
  refine seg_update hi hs₂ hd (ho _) Slice.setFile_cache_self (fun _ => hhas.owner) fun s₃ hs₃ => ?_
  rw [Slice.setFile_setFile] at hs₃
  refine seg_update hi hs₃ hd (ho _) Slice.setFile_cache_self (fun _ => hhas.owner) fun s₄ hs₄ => ?_
  rw [Slice.setFile_setFile] at hs₄
  refine seg_update hi hs₄ hd (ho _) Slice.setFile_cache_self (fun _ => hhas.owner) fun s₅ hs₅ => ?_
  rw [Slice.setFile_setFile] at hs₅
  refine h s₅ _ hs₅ (.of_owner hd hhas.owner hhas.idle.typed (hhas.idle.typed.2 c f hf haf)
    (fun x fx hxc hx => hhas.idle.ok.others hhas.owner hxc hx)
      (hhas.idle.owner c hhas.owner).1 rfl rfl rfl fun hw => ?_)
  obtain ⟨hlen, hcond⟩ := hcond hw
  refine ⟨hlen, Nat.mod_eq_of_lt hlen, fun x fx hxc hx ha => ?_⟩
  obtain ⟨hx₀, hn⟩ := hoth x fx hxc hx ha
  exact hcond x fx hxc hx₀ hn ha

/-- **`put` makes its argument the content.** -/
theorem seg_put {k : Status → Prog Fault ExtentId (Sys τ) α} {buf : Bytes} (hi : i ∈ H)
    (hlt : i.toNat < 2 ^ 31) (hs : s.slice M i = sl) (hidle : Idle running W ty v sl)
    (hr : running c = true) (hN : ∀ o, running o = true → o ≠ c → N)
    (hcond : W → PutCond c buf.length sl)
    (h : ∀ s' sl', s'.slice M i = sl' → Idle running W ty buf sl' →
      Seg (objects M N obj) E (k OK) Q H s') :
    Seg (objects M N obj) E (Client.put (Sys.host c) (Sys.calls L running) i buf >>= k) Q H s := by
  obtain ⟨d, hd, -⟩ := hidle.value
  rw [Client.put, bind_assoc]
  refine seg_enter hi hs hd hidle.ok fun s₁ f hs₁ hf => ?_
  have hidle₁ := hidle.enter hf
  simp only [bind_assoc, pure_bind]
  refine seg_file hi hs₁ hd hidle₁.ok Slice.setFile_cache_self fun s₂ hs₂ => ?_
  split
  case isTrue =>
    simp only [bind_assoc]
    refine seg_get hi hlt hs₂ hidle₁ hr hN fun s₃ sl₃ hs₃ hhas hoth => ?_
    obtain ⟨d₃, hd₃, -⟩ := hhas.idle.value
    obtain ⟨f₃, hf₃, -, -, hv⟩ := hhas.entry
    refine seg_update hi hs₃ hd₃ hhas.idle.ok hf₃ (fun _ => hhas.owner) fun s₄ hs₄ => ?_
    refine seg_overwrite sl hi hs₄ (hhas.setFile hf₃ rfl rfl hv.symm rfl rfl) ?_ hcond h
    refine Slice.Others.setFile (fun x fx hxc hx ha => ?_) _
    have := hoth x fx hxc hx ha
    rwa [Slice.setFile_cache, if_neg hxc] at this
  case isFalse hne =>
    rw [pure_bind]
    -- the client has data, hence is the owner, and its entry is an old one
    obtain ⟨hdok, haok⟩ : f.data_stat = .ok ∧ f.attr_stat = .ok := by
      cases hd' : f.data_stat <;> cases ha' : f.attr_stat <;> simp_all
    have hc : sl.cache c = some f := hf.resolve_right fun h' => by simp [h'.2.1] at hdok
    rw [Slice.setFile_self hc] at hs₂
    have howner := hidle.ok c f hc hdok
    refine seg_overwrite sl hi hs₂
      ⟨hidle, howner, f, hc, hdok, haok, (hidle.value.of_ok hidle.ok hc hdok).symm⟩ ?_ hcond h
    exact fun x fx hxc hx _ => ⟨hx, hidle.ok.others howner hxc hx⟩

/-- The client's entry gets attributes; without an owner the client becomes it. -/
theorem Idle.setAttr {o : String} {a : Attr} (h : Idle running W ty v (sl.setFile c f))
    (hr : running c = true) (ho : sl.owner = some o ∨ sl.owner = none ∧ o = c)
    (hright : Right W ty v a) :
    Idle running W ty v
      ((sl.setOwner o).setFile c { f with file_attr := a, attr_stat := .ok }) := by
  -- the entries of the two slices correspond, and the data in them is the same
  have hx : ∀ x f',
    ((sl.setOwner o).setFile c { f with file_attr := a, attr_stat := .ok }).cache x =
      some f' → x = c ∧ f' = { f with file_attr := a, attr_stat := .ok } ∨
        x ≠ c ∧ (sl.setFile c f).cache x = some f' := by
    intro x f' hx
    rw [Slice.setFile_cache] at hx
    split at hx
    case isTrue hxc => exact .inl ⟨hxc, (Option.some.inj hx).symm⟩
    case isFalse hxc => exact .inr ⟨hxc, by rwa [Slice.setFile_cache, if_neg hxc]⟩
  have howner : ∀ x f', (sl.setFile c f).cache x = some f' → f'.data_stat = .ok →
      some o = some x := by
    intro x f' hx hst
    have hox : sl.owner = some x := h.ok x f' hx hst
    rcases ho with ho | ⟨ho, -⟩
    · exact ho.symm.trans hox
    · exact absurd (ho.symm.trans hox) (by simp)
  refine ⟨?_, ?_, ?_, nofun, ?_, h.typed.1, ?_⟩
  · intro x f' hxf hst
    rcases hx x f' hxf with ⟨rfl, rfl⟩ | ⟨-, hxf⟩
    · exact howner x f Slice.setFile_cache_self hst
    · exact howner x f' hxf hst
  · obtain ⟨d, hd, hv⟩ := h.value
    refine ⟨d, hd, ?_⟩
    rcases hv with ⟨x, f', hxf, hst, hv⟩ | ⟨hn, hv⟩
    · by_cases hxc : x = c
      · subst hxc
        rw [Slice.setFile_cache_self] at hxf
        cases hxf
        exact .inl ⟨x, _, Slice.setFile_cache_self, hst, hv⟩
      · refine .inl ⟨x, f', ?_, hst, hv⟩
        rwa [Slice.setFile_cache, if_neg hxc] at hxf ⊢
    · refine .inr ⟨fun x f' hxf => ?_, hv⟩
      rcases hx x f' hxf with ⟨rfl, rfl⟩ | ⟨-, hxf⟩
      · exact hn x f Slice.setFile_cache_self
      · exact hn x f' hxf
  · intro o' ho'
    cases ho'
    by_cases hoc : o = c
    · subst hoc
      exact ⟨hr, _, Slice.setFile_cache_self, rfl⟩
    · have ho' : (sl.setFile c f).owner = some o := ho.resolve_right fun h' => hoc h'.2
      obtain ⟨hro, fo, hfo, hst⟩ := h.owner o ho'
      refine ⟨hro, fo, ?_, hst⟩
      rwa [Slice.setFile_cache, if_neg hoc] at hfo ⊢
  · intro hw
    obtain ⟨hlen, hs⟩ := h.sized hw
    refine ⟨hlen, fun x f' hxf hst => ?_⟩
    rcases hx x f' hxf with ⟨-, rfl⟩ | ⟨-, hxf⟩
    · exact hright.2 hw
    · exact hs x f' hxf hst
  · intro x f' hxf hst
    rcases hx x f' hxf with ⟨-, rfl⟩ | ⟨-, hxf⟩
    · exact hright.1
    · exact h.typed.2 x f' hxf hst

/-- **`getattr` returns the type**, and the size of the content if sizes are looked after. -/
theorem seg_getattr_idle {k : Status × Attr → Prog Fault ExtentId (Sys τ) α} {attr : Attr}
    (hi : i ∈ H) (hlt : i.toNat < 2 ^ 31) (hs : s.slice M i = sl) (hidle : Idle running W ty v sl)
    (hr : running c = true)
    (h : ∀ s' sl' a, s'.slice M i = sl' → Idle running W ty v sl' → Right W ty v a →
      (∀ x, x ≠ c → sl'.cache x = sl.cache x) → Seg (objects M N obj) E (k (OK, a)) Q H s') :
    Seg (objects M N obj) E
      (Client.getattr (Sys.host c) (Sys.calls L running) i attr >>= k) Q H s := by
  obtain ⟨d, hd, -⟩ := hidle.value
  refine seg_getattr (A := Right W ty v) hi hlt hs hd hidle.ok ?_ ?_ ?_ fun s' f a hf ha hor => ?_
  · intro o ho _
    obtain ⟨hro, fo, hfo, hst⟩ := hidle.owner o ho
    exact ⟨hro, fo, hfo, hidle.typed.2 o fo hfo hst, fun hw => (hidle.sized hw).2 o fo hfo hst⟩
  · intro hall hnone a hta hsa
    -- a client with data is the owner, and has attributes as well
    have hn : ∀ x f, sl.cache x = some f → f.data_stat = .none := by
      intro x f hx
      cases hst : f.data_stat with
      | none => rfl
      | ok =>
        have hox := hidle.ok x f hx hst
        obtain rfl := hall x hox
        obtain ⟨-, f', hf', ha⟩ := hidle.owner x hox
        simp [hnone f' hf'] at ha
    exact hidle.typed.right hd hta hsa (hidle.value.of_none hd hn).symm fun hw => (hidle.sized hw).1
  · exact fun f hf hst => ⟨hidle.typed.2 c f hf hst, fun hw => (hidle.sized hw).2 c f hf hst⟩
  · have hframe : ∀ (sl₁ : Slice) (f : FileData), sl₁.cache = sl.cache → ∀ x, x ≠ c →
        (sl₁.setFile c f).cache x = sl.cache x := by
      intro sl₁ f hsl x hxc
      rw [Slice.setFile_cache, if_neg hxc, hsl]
    rcases hor with ⟨-, hs'⟩ | ⟨-, o, ho, hs'⟩
    · exact h s' _ a hs' (hidle.enter hf) ha (hframe sl f rfl)
    · exact h s' _ a hs' ((hidle.enter hf).setAttr hr ho ha) ha (hframe _ _ rfl)

end Client

end Yfs.Extent
