import Yfs.Fs.Session

/-!
# The contents a single client sees

With one client the server never calls back: every extent is the client's own. What the
client reads is its own copy, or the file of the server (`content`), and what each
function of `extent_client` does to it is one rule (`Alone.get`, `Alone.getattr`, `Alone.put`,
`wlp_create`). The sizes in cached attributes are those of the contents (`Alone`), and every
call of the file system leaves it so (`ecRespects`, `respects_call`).
-/

namespace Yfs.Fs

open Extent (Attr Bytes Fault FileData File OK Sys)
open Storage (Disk layer)

variable {c : String} {s s' : Sys Disk} {i j : Inum} {v buf : Bytes} {f f' : FileData}

/-- The file the server has for an id, which it masks. -/
def onDisk (s : Sys Disk) (i : Inum) : Option File := s.im.file (Extent.Server.mask i).toUInt32

/-- What client `c` would read: its own copy, or the server's file. -/
def content (c : String) (s : Sys Disk) (i : Inum) : Option Bytes :=
  match s.cache c i with
  | some f => if f.data_stat = .ok then some f.file_data else (onDisk s i).map (·.data)
  | none => (onDisk s i).map (·.data)

/-- Client `c` is the only one the server knows, has no entry for what is not there, and
its attributes have the size of the content. -/
structure Alone (c : String) (s : Sys Disk) : Prop where
  owner : ∀ i o, s.fileManger i = some o → o = c
  blank : ∀ i, onDisk s i = none → s.cache c i = none
  both : ∀ i f, s.cache c i = some f → f.data_stat = .ok → f.attr_stat = .ok
  sized : ∀ i f v, s.cache c i = some f → f.attr_stat = .ok → content c s i = some v →
    f.file_attr.size = .ofNat v.length

/-- Nothing has changed for client `c`. -/
structure Kept (c : String) (s s' : Sys Disk) : Prop where
  cache : s'.cache c = s.cache c
  owner : ∀ j o, s'.fileManger j = some o → s.fileManger j = some o ∨ o = c
  disk : s'.im.file = s.im.file

/-- At most the client's entry for `i` has changed, and is `f` now. -/
structure Turn (c : String) (i : Inum) (f : FileData) (s s' : Sys Disk) : Prop where
  cache : s'.cache c = Function.update (s.cache c) i (some f)
  owner : ∀ j o, s'.fileManger j = some o → s.fileManger j = some o ∨ o = c
  disk : s'.im.file = s.im.file

theorem Kept.refl : Kept c s s := ⟨rfl, fun _ _ => .inl, rfl⟩

theorem Kept.trans {s'' : Sys Disk} (h : Kept c s s') (h' : Kept c s' s'') : Kept c s s'' where
  cache := h'.cache.trans h.cache
  owner j o ho := (h'.owner j o ho).elim (h.owner j o) .inr
  disk := h'.disk.trans h.disk

/-- An entry that is written. -/
theorem Kept.setFile (h : Kept c s s') : Turn c i f s ((Sys.host c).setFile i f s') where
  cache := by
    show Function.update s'.cache c (Function.update (s'.cache c) i (some f)) c = _
    rw [Function.update_self, h.cache]
  owner := h.owner
  disk := h.disk

theorem Turn.kept {s'' : Sys Disk} (h : Turn c i f s s') (h' : Kept c s' s'') :
    Turn c i f s s'' where
  cache := h'.cache.trans h.cache
  owner j o ho := (h'.owner j o ho).elim (h.owner j o) .inr
  disk := h'.disk.trans h.disk

/-- The entry is written again. -/
theorem Turn.setFile {k : FileData} (h : Turn c i f s s') :
    Turn c i k s ((Sys.host c).setFile i k s') where
  cache := by
    show Function.update s'.cache c (Function.update (s'.cache c) i (some k)) c = _
    rw [Function.update_self, h.cache, Function.update_idem]
  owner := h.owner
  disk := h.disk

theorem Turn.entry (h : Turn c i f s s') : s'.cache c i = some f := by
  rw [h.cache, Function.update_self]

theorem Kept.turn (h : Kept c s s') (hf : s.cache c i = some f) : Turn c i f s s' where
  cache := by rw [h.cache, ← hf, Function.update_eq_self]
  owner := h.owner
  disk := h.disk

theorem Turn.onDisk_eq (h : Turn c i f s s') (j : Inum) : onDisk s' j = onDisk s j := by
  rw [onDisk, h.disk, onDisk]

/-- An entry as it should be, when the content is `v`. -/
structure Good (v : Bytes) (f : FileData) : Prop where
  both : f.data_stat = .ok → f.attr_stat = .ok
  data : f.data_stat = .ok → f.file_data = v
  sized : f.attr_stat = .ok → f.file_attr.size = .ofNat v.length

theorem Alone.good (h : Alone c s) (hv : content c s i = some v) (hf : s.cache c i = some f) :
    Good v f := by
  refine ⟨h.both i f hf, fun hd => ?_, fun ha => h.sized i f v hf ha hv⟩
  simp only [content, hf, if_pos hd, Option.some.injEq] at hv
  exact hv

theorem Alone.there (h : Alone c s) (hv : content c s i = some v) :
    ∃ d, onDisk s i = some d ∧
      ((∀ f, s.cache c i = some f → f.data_stat = .none) → d.data = v) := by
  have hd : onDisk s i ≠ none := by
    intro hn
    simp [content, h.blank i hn, hn] at hv
  obtain ⟨d, hd⟩ := Option.ne_none_iff_exists'.mp hd
  refine ⟨d, hd, fun hno => ?_⟩
  cases hf : s.cache c i with
  | none => simpa [content, hf, hd] using hv
  | some f => simpa [content, hf, hno f hf, hd] using hv

/-- **The end of a call on `i`**: its content is the new one, and all others are as they
were. -/
theorem Turn.alone (h : Turn c i f s s') (ha : Alone c s) (hd : onDisk s i ≠ none) (hg : Good v f)
    (hv : f.data_stat = .ok ∨ (onDisk s i).map (·.data) = some v) :
    Alone c s' ∧ content c s' = Function.update (content c s) i (some v) := by
  have hcontent : content c s' = Function.update (content c s) i (some v) := by
    funext j
    by_cases hj : j = i
    · subst hj
      rw [Function.update_self, content, h.entry]
      show (if f.data_stat = .ok then _ else _) = _
      split_ifs with hok
      · rw [hg.data hok]
      · rw [h.onDisk_eq]
        exact hv.resolve_left hok
    · rw [Function.update_of_ne hj, content, content, h.onDisk_eq, h.cache,
        Function.update_of_ne hj]
  refine ⟨⟨fun j o ho => ?_, fun j hj => ?_, fun j f' hf' hok => ?_, fun j f' v' hf' hok hv' => ?_⟩,
    hcontent⟩
  · exact (h.owner j o ho).elim (ha.owner j o) id
  · rw [h.onDisk_eq] at hj
    have hne : j ≠ i := fun e => hd (e ▸ hj)
    rw [h.cache, Function.update_of_ne hne]
    exact ha.blank j hj
  · by_cases hj : j = i
    · subst hj
      cases h.entry.symm.trans hf'
      exact hg.both hok
    · rw [h.cache, Function.update_of_ne hj] at hf'
      exact ha.both j f' hf' hok
  · rw [hcontent] at hv'
    by_cases hj : j = i
    · subst hj
      cases h.entry.symm.trans hf'
      rw [Function.update_self] at hv'
      cases hv'
      exact hg.sized hok
    · rw [h.cache, Function.update_of_ne hj] at hf'
      rw [Function.update_of_ne hj] at hv'
      exact ha.sized j f' v' hf' hok hv'

/-! ## What the functions of the client do -/

section Rules

variable {running : String → Bool} {E : Fault → Sys Disk → Prop}

theorem wp_enter {Q : Unit → Sys Disk → Prop}
    (hQ : ∀ s₁ f, Turn c i f s s₁ →
      (s.cache c i = some f ∨ s.cache c i = none ∧ f.data_stat = .none ∧ f.attr_stat = .none) →
      Q () s₁) :
    Prog.wp (Extent.Client.enter (ι := Inum) (Sys.host c) i) Q E s := by
  rw [Extent.Client.enter, Prog.wp_modify]
  show Q () (match s.cache c i with | some _ => s | none => _)
  cases hf : s.cache c i with
  | some f => exact hQ s f (Kept.refl.turn hf) (.inl hf)
  | none => exact hQ _ _ (Kept.setFile ⟨rfl, fun _ _ => .inl, rfl⟩) (.inr ⟨hf, rfl, rfl⟩)

theorem wp_file {Q : FileData → Sys Disk → Prop} (hf : s.cache c i = some f) (hQ : Q f s) :
    Prog.wp (Extent.Client.file (ι := Inum) (Sys.host c) i) Q E s := by
  have hf : (Sys.host c).fileManager s i = some f := hf
  rw [Extent.Client.file, Prog.wp_bind, Prog.wp_read, hf]
  exact hQ

theorem wp_update {Q : Unit → Sys Disk → Prop} {g : FileData → FileData}
    (hf : s.cache c i = some f) (hQ : Q () ((Sys.host c).setFile i (g f) s)) :
    Prog.wp (Extent.Client.update (ι := Inum) (Sys.host c) i g) Q E s := by
  have hf : (Sys.host c).fileManager s i = some f := hf
  rw [Extent.Client.update, Prog.wp_bind, Prog.wp_step, hf]
  exact hQ

theorem wp_im {α : Type} {g : Disk → Option (α × Disk)} {Q : α → Sys Disk → Prop} {b : α} {t : Disk}
    (hg : g s.im = some (b, t)) (hQ : Q b { s with im := t }) :
    Prog.wp (Extent.Server.im (ι := Inum) g) Q E s := by
  rw [Extent.Server.im, Prog.wp, Prog.run, hg]
  exact hQ

/-- The server finds this client, or nobody. -/
theorem wp_owner {Q : String → Sys Disk → Prop} (ho : ∀ o, s.fileManger i = some o → o = c)
    (hQ : ∀ s₁, Kept c s s₁ → Q c s₁) :
    Prog.wp (Extent.Server.owner (ι := Inum) c i) Q E s := by
  rw [Extent.Server.owner, Prog.wp_step]
  cases hm : s.fileManger i with
  | some o =>
    cases ho o hm
    exact hQ s .refl
  | none =>
    refine hQ _ ⟨rfl, fun j o hj => ?_, rfl⟩
    have hj : Function.update s.fileManger i (some c) j = some o := hj
    rw [Function.update_apply] at hj
    split_ifs at hj with hji
    · exact .inr (Option.some.inj hj).symm
    · exact .inl hj

theorem wp_server_get {Q : Extent.Status × Bytes → Sys Disk → Prop} {d : File}
    (ho : ∀ j o, s.fileManger j = some o → o = c) (hd : onDisk s i = some d)
    (hQ : ∀ s₁, Kept c s s₁ → Q (OK, d.data) s₁) :
    Prog.wp (Extent.Server.get (ι := Inum) layer running c i) Q E s := by
  rw [Extent.Server.get, Prog.wp_bind]
  refine wp_owner (ho _) fun s₁ hk => ?_
  simp only [ne_eq, not_true_eq_false, if_false, pure_bind, Prog.wp_bind, Extent.Server.setOwner,
    Prog.wp_modify]
  have hd₁ : s₁.im.file (Extent.Server.mask i).toUInt32 = some d := by rw [hk.disk]; exact hd
  obtain ⟨b, t, hread⟩ := Storage.Disk.read_some hd₁
  obtain ⟨rfl, hfiles⟩ := Storage.read_file_lawful hd₁ hread
  refine wp_im hread (hQ _ (hk.trans ⟨rfl, fun j o hj => ?_, hfiles⟩))
  have hj : Function.update s₁.fileManger (Extent.Server.mask i) (some c) j = some o := hj
  rw [Function.update_apply] at hj
  split_ifs at hj with hji
  · exact .inr (Option.some.inj hj).symm
  · exact .inl hj

theorem wp_server_getattr {Q : Extent.Status × Attr → Sys Disk → Prop} {d : File}
    (ho : ∀ j o, s.fileManger j = some o → o = c) (hd : onDisk s i = some d)
    (hQ : ∀ s₁ a, Kept c s s₁ → a.size = .ofNat d.data.length → Q (OK, a) s₁) :
    Prog.wp (Extent.Server.getattr (ι := Inum) layer running c i) Q E s := by
  rw [Extent.Server.getattr, Prog.wp_bind]
  refine wp_owner (ho _) fun s₁ hk => ?_
  simp only [ne_eq, not_true_eq_false, if_false, Prog.wp_bind, Prog.wp_pure]
  have hd₁ : s₁.im.file (Extent.Server.mask i).toUInt32 = some d := by rw [hk.disk]; exact hd
  obtain ⟨a, ha⟩ := Storage.Disk.getattr_some hd₁
  obtain ⟨-, hsize, -⟩ := Storage.getattr_lawful hd₁ ha
  exact wp_im ha (hQ _ a (hk.trans ⟨rfl, fun _ _ => .inl, rfl⟩) hsize)

/-- **`getattr` gives the size of the content.** -/
theorem wp_getattr {Q : Extent.Status × Attr → Sys Disk → Prop} {attr : Attr} (ha : Alone c s)
    (hv : content c s i = some v)
    (hQ : ∀ s₁ f a, Turn c i f s s₁ → Good v f →
      (f.data_stat = .ok ∨ (onDisk s i).map (·.data) = some v) →
      f.attr_stat = .ok → f.file_attr = a → Q (OK, a) s₁) :
    Prog.wp (Extent.Client.getattr (Sys.host c)
      (Sys.calls (ι := Inum) layer running) i attr) Q E s := by
  obtain ⟨d, hd, hdv⟩ := ha.there hv
  rw [Extent.Client.getattr, Prog.wp_bind]
  refine wp_enter fun s₁ f hturn hf => ?_
  rw [Prog.wp_bind]
  refine wp_file hturn.entry ?_
  have hgood : Good v f := by
    rcases hf with hf | ⟨-, hn, hna⟩
    · exact ha.good hv hf
    · exact ⟨fun h => by simp [hn] at h, fun h => by simp [hn] at h, fun h => by simp [hna] at h⟩
  have hval : f.data_stat = .ok ∨ (onDisk s i).map (·.data) = some v := by
    cases hdf : f.data_stat with
    | ok => exact .inl rfl
    | none =>
      refine .inr ?_
      rw [hd, Option.map_some, hdv fun f' hf' => ?_]
      rcases hf with hf | ⟨hno, -⟩
      · cases hf.symm.trans hf'
        exact hdf
      · cases hno.symm.trans hf'
  split
  case h_1 hst =>
    have hnd : f.data_stat = .none := by
      cases hdf : f.data_stat with
      | none => rfl
      | ok => simp [hgood.both hdf] at hst
    have hd₁ : onDisk s₁ i = some d := by rw [hturn.onDisk_eq, hd]
    have hdv' : d.data = v := by
      have := hval.resolve_left (by simp [hnd])
      simpa [hd] using this
    have ho : ∀ j o, s₁.fileManger j = some o → o = c := fun j o ho =>
      (hturn.owner j o ho).elim (ha.owner j o) id
    rw [Prog.wp_bind]
    refine wp_server_getattr ho hd₁ fun s₂ a hk hsize => ?_
    have h₂ := hturn.kept hk
    simp only [Prog.wp_bind]
    refine wp_update h₂.entry (wp_update h₂.setFile.entry ?_)
    refine hQ _ _ a h₂.setFile.setFile ⟨fun _ => rfl, fun h => ?_, fun _ => ?_⟩ hval rfl rfl
    · simp [hnd] at h
    · rw [← hdv']
      exact hsize
  case h_2 hst =>
    rw [Prog.wp_bind]
    exact wp_file hturn.entry (hQ s₁ f f.file_attr hturn hgood hval hst rfl)

/-- After a `get` the client has its own copy. -/
structure Copied (v : Bytes) (f : FileData) : Prop extends Good v f where
  copy : f.data_stat = .ok

/-- **`get` returns the content**, and makes a copy of it. -/
theorem wp_get {Q : Extent.Status × Bytes → Sys Disk → Prop} (ha : Alone c s)
    (hv : content c s i = some v) (hQ : ∀ s₁ f, Turn c i f s s₁ → Copied v f → Q (OK, v) s₁) :
    Prog.wp (Extent.Client.get (Sys.host c) (Sys.calls (ι := Inum) layer running) i buf) Q E s := by
  obtain ⟨d, hd, hdv⟩ := ha.there hv
  have hthere : onDisk s i ≠ none := by simp [hd]
  rw [Extent.Client.get, Prog.wp_bind]
  refine wp_enter fun s₁ f hturn hf => ?_
  rw [Prog.wp_bind]
  refine wp_file hturn.entry ?_
  -- both branches end with a copy in the cache, and then the access time is set
  have hend : ∀ s₂ f₂, Turn c i f₂ s s₂ → Copied v f₂ →
      Prog.wp (Extent.Client.time (ι := Inum) (Sys.host c)) (fun now s' =>
        Prog.wp (Extent.Client.update (ι := Inum) (Sys.host c) i fun f =>
          { f with file_attr := { f.file_attr with atime := now } })
            (fun _ s' => Q (OK, v) s') E s')
        E s₂ := by
    intro s₂ f₂ h₂ hc
    rw [Extent.Client.time, Prog.wp_step]
    have h₃ : Turn c i f₂ s ((Sys.host c).time s₂).2 := h₂.kept ⟨rfl, fun _ _ => .inl, rfl⟩
    exact wp_update h₃.entry (hQ _ _ h₃.setFile ⟨⟨hc.both, hc.data, hc.sized⟩, hc.copy⟩)
  have ho : ∀ {s₂ : Sys Disk}, (∀ j o, s₂.fileManger j = some o → s.fileManger j = some o ∨ o = c) →
      ∀ j o, s₂.fileManger j = some o → o = c :=
    fun h j o ho => (h j o ho).elim (ha.owner j o) id
  rw [Prog.wp_bind]
  cases hst : f.data_stat with
  | none =>
    have hold : ∀ f', s.cache c i = some f' → f'.data_stat = .none := by
      intro f' hf'
      rcases hf with hf | ⟨hno, -⟩
      · cases hf.symm.trans hf'
        exact hst
      · cases hno.symm.trans hf'
    have hdv := hdv hold
    have hd₁ : onDisk s₁ i = some d := by rw [hturn.onDisk_eq, hd]
    rw [Extent.Client.fetch, Prog.wp_bind]
    refine wp_server_get (ho hturn.owner) hd₁ fun s₂ hk => ?_
    rw [hdv]
    have h₂ := hturn.kept hk
    simp only [Prog.wp_bind]
    refine wp_update h₂.entry (wp_update h₂.setFile.entry ?_)
    have h₃ := h₂.setFile.setFile (k := { f with file_data := v, data_stat := .ok })
      (f := { f with file_data := v })
    refine wp_file h₃.entry ?_
    show Prog.wp (if f.attr_stat = .none then _ else _) _ _ _
    split
    case isTrue hat =>
      -- the attributes are fetched while the copy is already there
      simp only [Prog.wp_bind]
      rw [Extent.Client.getattr, Prog.wp_bind]
      refine wp_enter fun s₄ f₄ h₄ hf₄ => ?_
      rw [h₃.entry] at hf₄
      obtain rfl : f₄ = { f with file_data := v, data_stat := .ok } := by
        rcases hf₄ with hf₄ | ⟨hno, -⟩
        · exact (Option.some.inj hf₄).symm
        · cases hno
      have h₄ : Turn c i { f with file_data := v, data_stat := .ok } s s₄ :=
        ⟨by rw [h₄.cache, h₃.cache, Function.update_idem],
          fun j o ho' => (h₄.owner j o ho').elim (h₃.owner j o) .inr, h₄.disk.trans h₃.disk⟩
      rw [Prog.wp_bind]
      refine wp_file h₄.entry ?_
      simp only [hat]
      rw [Prog.wp_bind]
      have hd₄ : onDisk s₄ i = some d := by rw [h₄.onDisk_eq, hd]
      refine wp_server_getattr (ho h₄.owner) hd₄ fun s₅ a hk₅ hsize => ?_
      have h₅ := h₄.kept hk₅
      simp only [Prog.wp_bind]
      refine wp_update h₅.entry (wp_update h₅.setFile.entry ?_)
      have h₆ := (h₅.setFile
        (k := { f with file_data := v, data_stat := .ok, file_attr := a })).setFile
        (k := { f with file_data := v, data_stat := .ok, file_attr := a, attr_stat := .ok })
      refine wp_update h₆.entry (hend _ _ (h₆.setFile
        (k := { f with file_data := v, data_stat := .ok, file_attr := a, attr_stat := .ok }))
        ⟨⟨fun _ => rfl, fun _ => rfl, fun _ => ?_⟩, rfl⟩)
      rw [← hdv]
      exact hsize
    case isFalse hat =>
      have hok : f.attr_stat = .ok := by
        cases h : f.attr_stat with
        | none => exact absurd h hat
        | ok => rfl
      have hsize : f.file_attr.size = .ofNat v.length := by
        rcases hf with hf | ⟨-, -, hna⟩
        · exact (ha.good hv hf).sized hok
        · simp [hna] at hok
      exact hend _ _ h₃ ⟨⟨fun _ => hok, fun _ => rfl, fun _ => hsize⟩, rfl⟩
  | ok =>
    have hgood : Good v f := by
      rcases hf with hf | ⟨-, hn, -⟩
      · exact ha.good hv hf
      · simp [hn] at hst
    rw [Prog.wp_bind]
    refine wp_file hturn.entry ?_
    rw [Prog.wp_pure, hgood.data hst]
    simp only [Prog.wp_bind]
    exact hend s₁ f hturn ⟨hgood, hst⟩

/-- **`put` makes its argument the content**, in the client's copy. -/
theorem wp_put {Q : Extent.Status → Sys Disk → Prop} (ha : Alone c s)
    (hv : content c s i = some v) (hQ : ∀ s₁ f, Turn c i f s s₁ → Copied buf f → Q OK s₁) :
    Prog.wp (Extent.Client.put (Sys.host c) (Sys.calls (ι := Inum) layer running) i buf) Q E s := by
  rw [Extent.Client.put, Prog.wp_bind]
  refine wp_enter fun s₁ f hturn hf => ?_
  have hthere : onDisk s i ≠ none := by
    obtain ⟨d, hd, -⟩ := ha.there hv
    simp [hd]
  rw [Prog.wp_bind]
  refine wp_file hturn.entry ?_
  -- in the end the entry is overwritten
  have hend : ∀ s₂ f₂, Turn c i f₂ s s₂ → Prog.wp (do
      let now_time ← Extent.Client.time (Sys.host c)
      Extent.Client.update (Sys.host c) i ({ · with file_data := buf })
      Extent.Client.update (Sys.host c) i fun f => { f with file_attr :=
        { f.file_attr with size := .ofNat buf.length, ctime := now_time, mtime := now_time } }
      Extent.Client.update (Sys.host c) i ({ · with data_stat := .ok })
      Extent.Client.update (Sys.host c) i ({ · with attr_stat := .ok })
      (pure OK : Prog Fault Inum (Sys Disk) _)) Q E s₂ := by
    intro s₂ f₂ h₂
    rw [Prog.wp_bind, Extent.Client.time, Prog.wp_step]
    have h₃ : Turn c i f₂ s ((Sys.host c).time s₂).2 := h₂.kept ⟨rfl, fun _ _ => .inl, rfl⟩
    simp only [Prog.wp_bind]
    refine wp_update h₃.entry (wp_update h₃.setFile.entry (wp_update h₃.setFile.setFile.entry
      (wp_update h₃.setFile.setFile.setFile.entry ?_)))
    exact hQ _ _ h₃.setFile.setFile.setFile.setFile
      ⟨⟨fun _ => rfl, fun _ => rfl, fun _ => rfl⟩, rfl⟩
  rw [Prog.wp_bind]
  split
  case isTrue hno =>
    -- the entry is not complete, so `get` comes first
    have hval : Alone c s₁ ∧ content c s₁ = Function.update (content c s) i (some v) := by
      rcases hf with hf | ⟨hno, hn, hna⟩
      · refine hturn.alone ha hthere (ha.good hv hf) ?_
        cases hd : f.data_stat with
        | ok => exact .inl rfl
        | none => exact .inr (by simpa [content, hf, hd] using hv)
      · refine hturn.alone ha hthere ⟨fun h => by simp [hn] at h, fun h => by simp [hn] at h,
          fun h => by simp [hna] at h⟩ (.inr ?_)
        simpa [content, hno] using hv
    have hv₁ : content c s₁ i = some v := by rw [hval.2, Function.update_self]
    rw [Prog.wp_bind]
    refine wp_get hval.1 hv₁ fun s₂ f₂ h₂ hc => ?_
    have h₂ : Turn c i f₂ s s₂ := ⟨by rw [h₂.cache, hturn.cache, Function.update_idem],
      fun j o ho' => (h₂.owner j o ho').elim (hturn.owner j o) .inr, h₂.disk.trans hturn.disk⟩
    exact wp_update h₂.entry (hend _ _ h₂.setFile)
  case isFalse => exact hend s₁ f hturn

/-! ### Files that are not there -/

theorem Alone.blank_of_none (h : Alone c s) (hv : content c s i = none) :
    onDisk s i = none ∧ s.cache c i = none := by
  have hd : onDisk s i = none := by
    cases hd : onDisk s i with
    | none => rfl
    | some d =>
      unfold content at hv
      split at hv
      · split_ifs at hv
        simp [hd] at hv
      · simp [hd] at hv
  exact ⟨hd, h.blank i hd⟩

/-- The server does not answer for a file that is not there. -/
theorem wlp_server_get {Q : Extent.Status × Bytes → Sys Disk → Prop}
    (ho : ∀ j o, s.fileManger j = some o → o = c) (hd : onDisk s i = none) :
    Prog.wlp (Extent.Server.get (ι := Inum) layer running c i) Q s := by
  rw [Extent.Server.get]
  refine Prog.wlp_bind (Prog.wlp_of_wp (wp_owner (ho _) fun s₁ hk => ?_))
  simp only [ne_eq, not_true_eq_false, if_false, pure_bind]
  refine Prog.wlp_bind (Prog.wlp_of_wp ?_)
  rw [Extent.Server.setOwner, Prog.wp_modify]
  refine Prog.wlp_bind (Prog.wlp_blocked ?_)
  have hd₁ : s₁.im.file (Extent.Server.mask i).toUInt32 = none := by rw [hk.disk]; exact hd
  have hlive : (Extent.Server.mask i).toUInt32 ∉ s₁.im.st.live := fun h =>
    Storage.file_ne_none.mpr h hd₁
  simp [layer, hlive]

theorem wlp_server_getattr {Q : Extent.Status × Attr → Sys Disk → Prop}
    (ho : ∀ j o, s.fileManger j = some o → o = c) (hd : onDisk s i = none) :
    Prog.wlp (Extent.Server.getattr (ι := Inum) layer running c i) Q s := by
  rw [Extent.Server.getattr]
  refine Prog.wlp_bind (Prog.wlp_of_wp (wp_owner (ho _) fun s₁ hk => ?_))
  simp only [ne_eq, not_true_eq_false, if_false]
  refine Prog.wlp_bind (Prog.wlp_blocked ?_)
  have hd₁ : s₁.im.file (Extent.Server.mask i).toUInt32 = none := by rw [hk.disk]; exact hd
  have hlive : (Extent.Server.mask i).toUInt32 ∉ s₁.im.st.live := fun h =>
    Storage.file_ne_none.mpr h hd₁
  simp [layer, hlive]

/-- Nor does the client. -/
theorem wlp_get_blank {Q : Extent.Status × Bytes → Sys Disk → Prop}
    (ho : ∀ j o, s.fileManger j = some o → o = c) (hd : onDisk s i = none)
    (hf : ∀ f, s.cache c i = some f → f.data_stat = .none) :
    Prog.wlp (Extent.Client.get (Sys.host c) (Sys.calls (ι := Inum) layer running) i buf) Q s := by
  rw [Extent.Client.get]
  refine Prog.wlp_bind (Prog.wlp_of_wp (wp_enter fun s₁ f hturn hcase => ?_))
  have hn : f.data_stat = .none := hcase.elim (hf f) (·.2.1)
  refine Prog.wlp_bind (Prog.wlp_of_wp (wp_file hturn.entry ?_))
  rw [hn]
  refine Prog.wlp_bind ?_
  rw [Extent.Client.fetch]
  refine Prog.wlp_bind (wlp_server_get (fun j o hj => ?_) (by rw [hturn.onDisk_eq, hd]))
  exact (hturn.owner j o hj).elim (ho j o) id

theorem wlp_getattr_blank {Q : Extent.Status × Attr → Sys Disk → Prop} {attr : Attr}
    (ho : ∀ j o, s.fileManger j = some o → o = c) (hd : onDisk s i = none)
    (hf : s.cache c i = none) :
    Prog.wlp (Extent.Client.getattr (Sys.host c)
      (Sys.calls (ι := Inum) layer running) i attr) Q s := by
  rw [Extent.Client.getattr]
  refine Prog.wlp_bind (Prog.wlp_of_wp (wp_enter fun s₁ f hturn hcase => ?_))
  obtain ⟨-, -, hn⟩ := hcase.resolve_left (by simp [hf])
  refine Prog.wlp_bind (Prog.wlp_of_wp (wp_file hturn.entry ?_))
  rw [hn]
  refine Prog.wlp_bind (wlp_server_getattr (fun j o hj => ?_) (by rw [hturn.onDisk_eq, hd]))
  exact (hturn.owner j o hj).elim (ho j o) id

theorem wlp_put_blank {Q : Extent.Status → Sys Disk → Prop}
    (ho : ∀ j o, s.fileManger j = some o → o = c) (hd : onDisk s i = none)
    (hf : s.cache c i = none) :
    Prog.wlp (Extent.Client.put (Sys.host c) (Sys.calls (ι := Inum) layer running) i buf) Q s := by
  rw [Extent.Client.put]
  refine Prog.wlp_bind (Prog.wlp_of_wp (wp_enter fun s₁ f hturn hcase => ?_))
  obtain ⟨-, hn, -⟩ := hcase.resolve_left (by simp [hf])
  refine Prog.wlp_bind (Prog.wlp_of_wp (wp_file hturn.entry ?_))
  rw [if_pos (.inl hn)]
  refine Prog.wlp_bind
    (Prog.wlp_bind (wlp_get_blank (fun j o hj => ?_) (by rw [hturn.onDisk_eq, hd])
    fun f' hf' => ?_))
  · exact (hturn.owner j o hj).elim (ho j o) id
  · cases hturn.entry.symm.trans hf'
    exact hn

/-- **`create` makes an empty file**, and leaves what is there. -/
theorem wlp_create {Q : Extent.Status × Inum → Sys Disk → Prop} {type : UInt32} (ha : Alone c s)
    (hQ : ∀ s₁ j, Alone c s₁ → content c s j = none → content c s₁ j = some [] →
      (∀ k v, content c s k = some v → content c s₁ k = some v) → Q (OK, j) s₁) :
    Prog.wlp (Extent.Client.create (Sys.host c)
      (Sys.calls (ι := Inum) layer running) type j) Q s := by
  show Prog.wlp (Extent.Server.create (ι := Inum) layer c type) Q s
  rw [Extent.Server.create]
  refine Prog.wlp_bind fun n s₁ hr => Prog.wlp_pure _ ?_
  rw [Extent.Server.im] at hr
  cases halloc : layer.alloc_inode type s.im with
  | none => simp [Prog.run, halloc] at hr
  | some r =>
    obtain ⟨m, t⟩ := r
    simp only [Prog.run, halloc, Option.map_some] at hr
    cases hr
    obtain ⟨hlt, -, hnone, hfiles⟩ := Storage.alloc_inode_lawful halloc
    have hlt : n.toUInt64.toNat < 2 ^ 31 := by rwa [UInt32.toNat_toUInt64]
    -- a file that was there is not the new one
    have hold : ∀ k, onDisk s k ≠ none → onDisk { s with im := t } k = onDisk s k := by
      intro k hk
      refine (hfiles _).trans (if_neg fun he => hk ?_)
      rw [onDisk, he]
      exact hnone
    have hthere : ∀ k, s.cache c k ≠ none → onDisk s k ≠ none := fun k hk hn => hk (ha.blank k hn)
    have hsame : ∀ k, onDisk s k ≠ none → content c { s with im := t } k = content c s k := by
      intro k hk
      rw [content, content, hold k hk]
    have hmask : (Extent.Server.mask n.toUInt64).toUInt32 = n := by
      rw [Extent.Server.mask_eq hlt, UInt32.toUInt32_toUInt64]
    have hfree : onDisk s n.toUInt64 = none := by rw [onDisk, hmask]; exact hnone
    have hblank : s.cache c n.toUInt64 = none := ha.blank _ hfree
    refine hQ _ _ ⟨ha.owner, fun k hk => ?_, ha.both, fun k f v hf hok hv => ?_⟩ ?_ ?_
      fun k v hv => ?_
    · refine ha.blank k (by_contra fun hn => hn ?_)
      rw [← hold k hn, hk]
    · have hf : s.cache c k = some f := hf
      rw [hsame k (hthere k (by simp [hf]))] at hv
      exact ha.sized k f v hf hok hv
    · simp [content, hblank, hfree]
    · have hnew : onDisk { s with im := t } n.toUInt64 = some ⟨type.toUInt16.toInt16, []⟩ := by
        rw [onDisk, hmask]
        exact (hfiles n).trans (if_pos rfl)
      show (match s.cache c n.toUInt64 with | some f => _ | none => _) = _
      rw [hblank]
      exact congrArg (Option.map (·.data)) hnew
    · rw [hsame k fun hn => ?_, hv]
      simp [content, hn, ha.blank k hn] at hv

/-! ### Whole calls -/

theorem Alone.get (ha : Alone c s) (hv : content c s i = some v) :
    Prog.wp (Extent.Client.get (Sys.host c) (Sys.calls (ι := Inum) layer running) i buf)
      (fun r s' => r = (OK, v) ∧ Alone c s' ∧ content c s' = content c s ∧
        onDisk s' = onDisk s) E s := by
  obtain ⟨d, hd, -⟩ := ha.there hv
  refine wp_get ha hv fun s₁ f hturn hc => ?_
  obtain ⟨ha₁, hcontent⟩ := hturn.alone ha (by simp [hd]) hc.toGood (.inl hc.copy)
  exact ⟨rfl, ha₁, by rw [hcontent, ← hv, Function.update_eq_self], funext hturn.onDisk_eq⟩

theorem Alone.getattr {attr : Attr} (ha : Alone c s) (hv : content c s i = some v) :
    Prog.wp (Extent.Client.getattr (Sys.host c) (Sys.calls (ι := Inum) layer running) i attr)
      (fun r s' => (∃ a, r = (OK, a) ∧ a.size = .ofNat v.length) ∧ Alone c s' ∧
        content c s' = content c s) E s := by
  obtain ⟨d, hd, -⟩ := ha.there hv
  refine wp_getattr ha hv fun s₁ f a hturn hgood hval hok hattr => ?_
  obtain ⟨ha₁, hcontent⟩ := hturn.alone ha (by simp [hd]) hgood hval
  exact ⟨⟨a, rfl, hattr ▸ hgood.sized hok⟩, ha₁, by rw [hcontent, ← hv, Function.update_eq_self]⟩

theorem Alone.put (ha : Alone c s) (hv : content c s i = some v) :
    Prog.wp (Extent.Client.put (Sys.host c) (Sys.calls (ι := Inum) layer running) i buf)
      (fun r s' => r = OK ∧ Alone c s' ∧ content c s' = Function.update (content c s) i (some buf) ∧
        onDisk s' = onDisk s) E s := by
  obtain ⟨d, hd, -⟩ := ha.there hv
  refine wp_put ha hv fun s₁ f hturn hc => ?_
  obtain ⟨ha₁, hcontent⟩ := hturn.alone ha (by simp [hd]) hc.toGood (.inl hc.copy)
  exact ⟨rfl, ha₁, hcontent, funext hturn.onDisk_eq⟩

end Rules

/-! ## What the calls of the file system leave -/

section Calls

variable {σ : Type} {P : σ → Prop} {I : Inum → Prop}

/-- The functions of an extent client leave `P` when they are called for ids with `I`, which new
ids have; `remove` is not among them, since no call of the file system gets to it. -/
structure EcRespects (P : σ → Prop) (I : Inum → Prop) (ec : Extent.Ec Fault Inum σ) : Prop where
  create : ∀ type id s, P s → Prog.wlp (ec.create type id) (fun r s' => P s' ∧ I r.2) s
  get : ∀ {eid buf}, I eid → (ec.get eid buf).Respects P
  getattr : ∀ {eid attr}, I eid → (ec.getattr eid attr).Respects P
  put : ∀ {eid buf}, I eid → (ec.put eid buf).Respects P

/-- What is true of the contents, as long as only ids with `I` are written, and new files are
made. -/
theorem ecRespects {K : (Inum → Option Bytes) → Prop} {running : String → Bool}
    (hput : ∀ m i v buf, I i → m i = some v → K m → K (Function.update m i (some buf)))
    (hnew : ∀ m m', (∀ k v, m k = some v → m' k = some v) → K m → K m')
    (hfree : ∀ m i, m i = none → K m → I i) :
    EcRespects (fun s => Alone c s ∧ K (content c s)) I
      (Extent.Client.ec (Sys.host c) (Sys.calls layer running)) where
  create type id s hs := by
    show Prog.wlp (Extent.Client.create (Sys.host c) (Sys.calls layer running) type id) _ s
    exact wlp_create hs.1 fun s₁ j ha hnone _ hold =>
      ⟨⟨ha, hnew _ _ hold hs.2⟩, hfree _ j hnone hs.2⟩
  get {i buf} _ s hs := by
    cases hv : content c s i with
    | none =>
      obtain ⟨hd, hf⟩ := hs.1.blank_of_none hv
      exact wlp_get_blank hs.1.owner hd (by simp [hf])
    | some v =>
      refine Prog.wlp_mono (Prog.wlp_of_wp (hs.1.get hv)) fun _ s' ⟨_, ha, hcontent, _⟩ => ⟨ha, ?_⟩
      rw [hcontent]
      exact hs.2
  getattr {i attr} _ s hs := by
    cases hv : content c s i with
    | none =>
      obtain ⟨hd, hf⟩ := hs.1.blank_of_none hv
      exact wlp_getattr_blank hs.1.owner hd hf
    | some v =>
      refine Prog.wlp_mono (Prog.wlp_of_wp (hs.1.getattr hv)) fun _ s' ⟨_, ha, hcontent⟩ => ⟨ha, ?_⟩
      rw [hcontent]
      exact hs.2
  put {i buf} hi s hs := by
    cases hv : content c s i with
    | none =>
      obtain ⟨hd, hf⟩ := hs.1.blank_of_none hv
      exact wlp_put_blank hs.1.owner hd hf
    | some v =>
      refine Prog.wlp_mono (Prog.wlp_of_wp (hs.1.put hv)) fun _ s' ⟨_, ha, hcontent, _⟩ => ⟨ha, ?_⟩
      rw [hcontent]
      exact hput _ i v buf hi hv hs.2

variable {ec : Extent.Ec Fault Inum σ} (h : EcRespects P I ec)

theorem respects_lift {α : Type} (r : Except Fault α) :
    (lift r : Prog Fault Inum σ α).Respects P := by
  cases r with
  | ok a => exact Prog.respects_pure a
  | error e => exact Prog.respects_fail e

/-- Unlock, and return. -/
theorem respects_leave {α : Type} (a : α) :
    (do .unlock i; pure a : Prog Fault Inum σ α).Respects P :=
  (Prog.respects_unlock i).bind fun _ => Prog.respects_pure a

theorem respects_leave₂ {α : Type} (a : α) :
    (do .unlock i; .unlock j; pure a : Prog Fault Inum σ α).Respects P :=
  (Prog.respects_unlock i).bind fun _ => respects_leave a

include h

theorem respects_isType (type : UInt32) {inum : Inum} (hi : I inum) :
    (isType ec type inum).Respects P := by
  refine (Prog.respects_lock inum).bind fun _ => (h.getattr hi).bind fun r => ?_
  dsimp only
  split_ifs
  all_goals exact respects_leave _

theorem respects_getfile {inum : Inum} (hi : I inum) : (getfile ec inum).Respects P :=
  (Prog.respects_lock inum).bind fun _ => (h.getattr hi).bind fun _ => respects_leave _

theorem respects_getdir {inum : Inum} (hi : I inum) : (getdir ec inum).Respects P :=
  (Prog.respects_lock inum).bind fun _ => (h.getattr hi).bind fun _ => respects_leave _

theorem respects_setattr {ino : Inum} (size : UInt64) (hi : I ino) :
    (setattr ec ino size).Respects P := by
  refine (Prog.respects_lock ino).bind fun _ => (h.getattr hi).bind fun r => ?_
  dsimp only
  split_ifs
  · exact respects_leave _
  · exact respects_leave _
  · refine (h.get hi).bind fun r => ?_
    split_ifs
    · exact respects_leave _
    · refine (respects_lift _).bind fun b => (h.put hi).bind fun ret => ?_
      split_ifs
      all_goals exact respects_leave _

theorem respects_createType (type : UInt32) {parent : Inum} (name : Bytes) (hi : I parent) :
    (createType ec type parent name).Respects P := by
  refine (Prog.respects_lock 0).bind fun _ => (Prog.respects_lock parent).bind fun _ =>
    (h.get hi).bind fun r => ?_
  dsimp only
  split_ifs
  · exact respects_leave₂ _
  · exact (Prog.respects_pure _).bind fun _ => respects_leave₂ _
  · refine Prog.Respects.bind
      (fun s hs => Prog.wlp_bind (Prog.wlp_mono (h.create type 0 s hs) ?_)) fun _ =>
      respects_leave₂ _
    rintro ⟨ret, ino⟩ s' ⟨hs', -⟩
    dsimp only
    split_ifs
    · exact Prog.wlp_pure _ hs'
    · refine ((h.put hi).bind fun ret => ?_) s' hs'
      split_ifs
      all_goals exact Prog.respects_pure _

theorem respects_symlink {parent : Inum} (link name : Bytes) (hi : I parent) :
    (symlink ec parent link name).Respects P := by
  refine (Prog.respects_lock 0).bind fun _ => (Prog.respects_lock parent).bind fun _ =>
    (h.get hi).bind fun r => ?_
  dsimp only
  split_ifs
  · exact respects_leave₂ _
  · exact (Prog.respects_pure _).bind fun _ => respects_leave₂ _
  · refine Prog.Respects.bind
      (fun s hs => Prog.wlp_bind (Prog.wlp_mono (h.create Extent.T_LINK 0 s hs) ?_))
      fun _ => respects_leave₂ _
    rintro ⟨ret, ino⟩ s' ⟨hs', hino⟩
    dsimp only
    split_ifs
    · exact Prog.wlp_pure _ hs'
    · refine ((h.put hino).bind fun _ => (h.put hi).bind fun ret => ?_) s' hs'
      split_ifs
      all_goals exact Prog.respects_pure _

theorem respects_lookup {parent : Inum} (name : Bytes) (hi : I parent) :
    (lookup ec parent name).Respects P := by
  refine (Prog.respects_lock parent).bind fun _ => (h.get hi).bind fun r => ?_
  dsimp only
  split_ifs
  all_goals exact respects_leave _

theorem respects_readdir {dir : Inum} (hi : I dir) : (readdir ec dir).Respects P := by
  refine (Prog.respects_lock dir).bind fun _ => (h.get hi).bind fun r => ?_
  dsimp only
  split_ifs
  all_goals exact respects_leave _

theorem respects_read {ino : Inum} (size : UInt64) (off : Int64) (hi : I ino) :
    (read ec ino size off).Respects P := by
  refine (Prog.respects_lock ino).bind fun _ => (h.get hi).bind fun r => ?_
  dsimp only
  split_ifs
  all_goals exact respects_leave _

theorem respects_write {ino : Inum} (off : Int64) (data : Bytes) (hi : I ino) :
    (write ec ino off data).Respects P := by
  refine (Prog.respects_lock ino).bind fun _ => (h.get hi).bind fun r => ?_
  dsimp only
  split_ifs
  · exact respects_leave _
  · exact (respects_lift _).bind fun b => (h.put hi).bind fun _ => respects_leave _

theorem respects_unlink {parent : Inum} (name : Bytes) (hi : I parent) :
    (unlink ec parent name).Respects P := by
  refine (Prog.respects_lock parent).bind fun _ => (h.get hi).bind fun r => ?_
  dsimp only
  by_cases hret : r.1 ≠ Extent.OK
  · rw [if_pos hret]
    exact respects_leave _
  · rw [if_neg hret]
    by_cases hfind : (Directory.ofString r.2).find name = 0
    · rw [if_pos hfind, if_pos (by decide)]
      exact respects_leave _
    · -- the condition of the removal is that of the branch above
      rw [if_neg hfind, if_neg (by decide), if_neg (by decide)]
      exact (h.put hi).bind fun _ => (Prog.respects_pure ()).bind fun _ => respects_leave _

theorem respects_readlink {ino : Inum} (hi : I ino) : (readlink ec ino).Respects P := by
  refine (Prog.respects_lock ino).bind fun _ => (h.get hi).bind fun r => ?_
  dsimp only
  split_ifs
  · exact Prog.respects_pure _
  · exact respects_leave _

theorem respects_call {call : Call} (hi : I call.inum) : (call.prog ec).Respects P := by
  have hend : ∀ {α : Type} (a : α → Reply) (p : Prog Fault Inum σ α), p.Respects P →
      (do let r ← p; pure (a r) : Prog Fault Inum σ Reply).Respects P :=
    fun a p hp => hp.bind fun r => Prog.respects_pure (a r)
  cases call with
  | mount =>
    refine (Prog.respects_lock 1).bind fun _ =>
      ((h.put hi).bind fun _ => Prog.respects_pure ()).bind
      fun _ => respects_leave _
  | isfile | islink | isdir => exact hend _ _ (respects_isType h _ hi)
  | create | mkdir => exact hend _ _ (respects_createType h _ _ hi)
  | symlink => exact hend _ _ (respects_symlink h _ _ hi)
  | lookup => exact hend _ _ (respects_lookup h _ hi)
  | readdir => exact hend _ _ (respects_readdir h hi)
  | unlink => exact hend _ _ (respects_unlink h _ hi)
  | read => exact hend _ _ (respects_read h _ _ hi)
  | write => exact hend _ _ (respects_write h _ _ hi)
  | readlink => exact hend _ _ (respects_readlink h hi)

end Calls

end Yfs.Fs
