import Yfs.Extent.Calls

/-!
# Removing an extent, and using its id again

Any number of clients that call `create`, `get`, `put`, `getattr` and `remove`, each call on
an extent under the lock of that extent. `remove` tells the owner to forget its copy, and
nobody else: neither the client that removes, nor those that have the attributes only. And
it leaves the empty string as the owner, so that the next call that gets to the server
calls that back.

What was removed is forgotten if `remove` finds marked entries at an owner other than the
caller only, and nobody uses the id again (`removed_forgotten`); without the condition an
old copy survives (`removed_copy_survives`).
-/

namespace Yfs.Extent.Removal

variable {τ : Type} {L : InodeLayer τ} {running : String → Bool} {W : Prop}

/-- The calls, with the client that makes them. -/
inductive Call where
  | create (c : String) (type : UInt32)
  | get (c : String) (id : ExtentId)
  | put (c : String) (id : ExtentId) (buf : Bytes)
  | getattr (c : String) (id : ExtentId)
  | remove (c : String) (id : ExtentId)
  deriving DecidableEq, Repr

/-- The client that makes a call. -/
def Call.client : Call → String
  | create c _ | get c _ | put c _ _ | getattr c _ | remove c _ => c

/-- The extent a call is on. -/
def Call.id? : Call → Option ExtentId
  | create _ _ => none
  | get _ id | put _ id _ | getattr _ id | remove _ id => some id

/-- The code of a call. -/
def Call.prog (L : InodeLayer τ) (running : String → Bool) :
    Call → Prog Fault ExtentId (Sys τ) Result
  | create c type => do
    let (ret, id) ← Client.create (Sys.host c) (Sys.calls L running) type 0
    pure (.created ret id)
  | get c id => do
    .lock id
    let (ret, buf) ← Client.get (Sys.host c) (Sys.calls L running) id []
    .unlock id
    pure (.data ret buf)
  | put c id buf => do
    .lock id
    let ret ← Client.put (Sys.host c) (Sys.calls L running) id buf
    .unlock id
    pure (.done ret)
  | getattr c id => do
    .lock id
    let (ret, a) ← Client.getattr (Sys.host c) (Sys.calls L running) id {}
    .unlock id
    pure (.attr ret a)
  | remove c id => do
    .lock id
    let ret ← Client.remove (Sys.host c) (Sys.calls L running) id
    .unlock id
    pure (.done ret)

/-- What the server and the clients have in their maps about an extent. -/
def face (s : Sys τ) (id : ExtentId) : Slice := ⟨s.fileManger id, (s.cache · id), none⟩

/-- No entry is marked. -/
def Unmarked (sl : Slice) : Prop :=
  ∀ c f, sl.cache c = some f → f.data_stat = .none ∧ f.attr_stat = .none

/-- The condition on a call when it gets its lock: the extent was not removed, and a
`remove` finds marked entries at an owner other than its caller only. -/
def Call.Cond (sl : Slice) : Call → Prop
  | create _ _ => True
  | get _ _ | put _ _ _ | getattr _ _ => sl.owner ≠ some ""
  | remove c _ => sl.owner ≠ some "" ∧ ∀ x f, sl.cache x = some f →
      f.data_stat = .ok ∨ f.attr_stat = .ok → sl.owner = some x ∧ x ≠ c

/-- What a call does; the value of an extent says if it was removed. -/
def Call.commit : Call → (ExtentId → Option Bool) → (ExtentId → Option Bool) → Prop
  | create _ _, g, g' => g' = g
  | get _ id, g, g' | put _ id _, g, g' | getattr _ id, g, g' => g id = some false ∧ g' = g
  | remove _ id, g, g' => g id = some false ∧ g' = Function.update g id (some true)

/-- The calls as a service. -/
def service (L : InodeLayer τ) (running : String → Bool) (W : Prop) :
    Service Fault ExtentId Bool (Sys τ) Call Result where
  prog := Call.prog L running
  commit call _ := call.commit
  cond call id s := W → call.Cond (face s id)

/-- The calls that may be made: by a client that runs, under an address that is not empty,
and on ids of 31 bits, as `create` returns them. -/
def May (running : String → Bool) (call : Call) (_ : List (Call × Result)) : Prop :=
  running call.client = true ∧ call.client ≠ "" ∧ ∀ id, call.id? = some id → id.toNat < 2 ^ 31

/-- An extent in use: its owner runs and has an entry. -/
def InUse (running : String → Bool) (sl : Slice) : Prop :=
  ∀ o, sl.owner = some o → o ≠ "" ∧ running o = true ∧ ∃ f, sl.cache o = some f

/-- The extents; the value says if one was removed. -/
def extents (τ : Type) (running : String → Bool) : Objects ExtentId Bool (Sys τ) where
  same id s s' := face s' id = face s id
  free _ _ := False
  obj id removed s :=
    if removed then (face s id).owner = some "" else InUse running (face s id)
  always id s := (face s id).owner = some "" → Unmarked (face s id)
  same_refl _ _ := rfl
  same_trans h h' := h'.trans h
  free_same _ h := h
  obj_same h ho := h.symm ▸ ho
  always_same h ha := h.symm ▸ ha

section Rules

variable {α : Type} {E : Fault → Prop} {H : Set ExtentId} {s : Sys τ} {id : ExtentId}
  {sl : Slice} {c o : String} {f : FileData} {Q : α → Set ExtentId → Sys τ → Prop}

theorem face_setFile (j : ExtentId) :
    face ((Sys.host c).setFile id f s) j =
      if j = id then (face s id).setFile c f else face s j := by
  by_cases hji : j = id
  · subst hji
    rw [if_pos rfl]
    refine Slice.ext rfl (funext fun x => ?_) rfl
    by_cases hx : x = c <;> simp [face, Sys.host, Slice.setFile, Function.update_apply, hx]
  · rw [if_neg hji]
    refine Slice.ext rfl (funext fun x => ?_) rfl
    by_cases hx : x = c <;> simp [face, Sys.host, Function.update_apply, hx, hji]

theorem face_setOwner (j : ExtentId) :
    face { s with fileManger := Function.update s.fileManger id (some c) } j =
      if j = id then (face s id).setOwner c else face s j := by
  by_cases hji : j = id
  · subst hji
    simp [face, Slice.setOwner]
  · simp [face, hji]

/-- A step on an extent. -/
theorem seg_step {δ : Type} {g : Sys τ → δ × Sys τ} {k : δ → Prog Fault ExtentId (Sys τ) α}
    (hid : id ∈ H) (hs : face s id = sl)
    (h : ∀ s₁, face s₁ id = sl → (∀ j, j ≠ id → face (g s₁).2 j = face s₁ j) ∧
      ((face (g s₁).2 id).owner = some "" → Unmarked (face (g s₁).2 id)) ∧
        Seg (extents τ running) E (k (g s₁).1) Q H (g s₁).2) :
    Seg (extents τ running) E (.step g >>= k) Q H s := by
  refine Seg.atom hid (fun _ _ _ => trivial) fun s₁ hs₁ b s₂ hb => ?_
  obtain ⟨rfl, rfl⟩ := Prod.mk.inj (Option.some.inj hb)
  obtain ⟨hother, halways, hk⟩ := h s₁ (hs₁.trans hs)
  exact ⟨hother, nofun, halways, hk⟩

theorem seg_im {δ : Type} {g : τ → Option (δ × τ)} {k : δ → Prog Fault ExtentId (Sys τ) α}
    (hid : id ∈ H) (hs : face s id = sl) (hne : sl.owner = some "" → Unmarked sl)
    (h : ∀ b s', face s' id = sl → Seg (extents τ running) E (k b) Q H s') :
    Seg (extents τ running) E (Server.im g >>= k) Q H s := by
  refine Seg.atom hid (fun _ _ _ => trivial) fun s₁ hs₁ b s₂ hb => ?_
  obtain ⟨r, -, he⟩ := Option.map_eq_some_iff.mp hb
  cases he
  have hsl : face s₁ id = sl := hs₁.trans hs
  exact ⟨fun _ _ => rfl, nofun, fun ho => hsl.symm ▸ hne (hsl ▸ ho), h r.1 _ hsl⟩

theorem seg_file {k : FileData → Prog Fault ExtentId (Sys τ) α} (hid : id ∈ H)
    (hs : face s id = sl) (hne : sl.owner ≠ some "") (hc : sl.cache c = some f)
    (h : ∀ s', face s' id = sl → Seg (extents τ running) E (k f) Q H s') :
    Seg (extents τ running) E (Client.file (Sys.host c) id >>= k) Q H s := by
  rw [Client.file, bind_assoc]
  refine seg_step hid hs fun s₁ hs₁ => ⟨fun _ _ => rfl, fun ho => absurd (hs₁ ▸ ho) hne, ?_⟩
  have hf : (Sys.host c).fileManager s₁ id = some f := by
    rw [← hc, ← hs₁]
    rfl
  simp only [hf, pure_bind]
  exact h s₁ hs₁

theorem seg_update {g : FileData → FileData} {k : Unit → Prog Fault ExtentId (Sys τ) α}
    (hid : id ∈ H) (hs : face s id = sl) (hne : sl.owner ≠ some "") (hc : sl.cache c = some f)
    (h : ∀ s', face s' id = sl.setFile c (g f) → Seg (extents τ running) E (k ()) Q H s') :
    Seg (extents τ running) E (Client.update (Sys.host c) id g >>= k) Q H s := by
  rw [Client.update, bind_assoc]
  refine seg_step hid hs fun s₁ hs₁ => ?_
  have hf : (Sys.host c).fileManager s₁ id = some f := by
    rw [← hc, ← hs₁]
    rfl
  have hsl : face ((Sys.host c).setFile id (g f) s₁) id = sl.setFile c (g f) := by
    rw [face_setFile, if_pos rfl, hs₁]
  simp only [hf, if_true, pure_bind]
  refine ⟨fun j hj => ?_, fun ho => ?_, h _ hsl⟩
  · rw [face_setFile, if_neg hj]
  · rw [hsl] at ho
    exact absurd ho hne

/-! ## Calls on an extent in use -/

/-- The extent is in use, and both the client and the owner have entries. -/
structure Working (running : String → Bool) (c : String) (sl : Slice) : Prop where
  inUse : InUse running sl
  entry : ∃ f, sl.cache c = some f

theorem InUse.ne (h : InUse running sl) : sl.owner ≠ some "" := fun ho => (h "" ho).1 rfl

theorem InUse.setFile (h : InUse running sl) (c : String) (f : FileData) :
    InUse running (sl.setFile c f) := by
  intro o ho
  obtain ⟨hne, hr, f', hf'⟩ := h o ho
  refine ⟨hne, hr, ?_⟩
  rw [Slice.setFile_cache]
  split
  case isTrue => exact ⟨f, rfl⟩
  case isFalse => exact ⟨f', hf'⟩

theorem Working.setFile (h : Working running c sl) (x : String) (f : FileData) :
    Working running c (sl.setFile x f) := by
  refine ⟨h.inUse.setFile x f, ?_⟩
  rw [Slice.setFile_cache]
  split
  case isTrue => exact ⟨f, rfl⟩
  case isFalse => exact h.entry

theorem Working.setOwner (h : Working running c sl) (hr : running c = true) (hc : c ≠ "") :
    Working running c (sl.setOwner c) := by
  refine ⟨fun o ho => ?_, h.entry⟩
  cases ho
  exact ⟨hc, hr, h.entry⟩

theorem working_im {δ : Type} {g : τ → Option (δ × τ)} {k : δ → Prog Fault ExtentId (Sys τ) α}
    (hid : id ∈ H) (hw : Working running c (face s id))
    (h : ∀ b s', Working running c (face s' id) → Seg (extents τ running) E (k b) Q H s') :
    Seg (extents τ running) E (Server.im g >>= k) Q H s :=
  seg_im hid rfl (fun ho => absurd ho hw.inUse.ne) fun b s' hs' => h b s' (hs' ▸ hw)

theorem working_time {k : UInt32 → Prog Fault ExtentId (Sys τ) α} (hid : id ∈ H)
    (hw : Working running c (face s id))
    (h : ∀ now s', Working running c (face s' id) → Seg (extents τ running) E (k now) Q H s') :
    Seg (extents τ running) E (Client.time (Sys.host o) >>= k) Q H s :=
  seg_step hid rfl fun _ hs₁ => ⟨fun _ _ => rfl, fun ho => absurd (hs₁ ▸ ho) hw.inUse.ne,
    h _ _ (hs₁.symm ▸ hw)⟩

theorem working_file {k : FileData → Prog Fault ExtentId (Sys τ) α} (hid : id ∈ H)
    (hw : Working running c (face s id)) (ho : ∃ f, (face s id).cache o = some f)
    (h : ∀ f s', face s' id = face s id → Seg (extents τ running) E (k f) Q H s') :
    Seg (extents τ running) E (Client.file (Sys.host o) id >>= k) Q H s := by
  obtain ⟨f, hf⟩ := ho
  exact seg_file hid rfl hw.inUse.ne hf fun s' hs' => h f s' hs'

theorem working_update {g : FileData → FileData} {k : Unit → Prog Fault ExtentId (Sys τ) α}
    (hid : id ∈ H) (hw : Working running c (face s id)) (ho : ∃ f, (face s id).cache o = some f)
    (h : ∀ s', Working running c (face s' id) → (∃ f, (face s' id).cache o = some f) →
      Seg (extents τ running) E (k ()) Q H s') :
    Seg (extents τ running) E (Client.update (Sys.host o) id g >>= k) Q H s := by
  obtain ⟨f, hf⟩ := ho
  refine seg_update hid rfl hw.inUse.ne hf fun s' hs' => ?_
  refine h s' (hs' ▸ hw.setFile o (g f)) ?_
  rw [hs']
  exact ⟨g f, Slice.setFile_cache_self⟩

/-- The client has an entry from here on. -/
theorem working_enter {k : Unit → Prog Fault ExtentId (Sys τ) α} (hid : id ∈ H)
    (hu : InUse running (face s id))
    (h : ∀ s', Working running c (face s' id) → Seg (extents τ running) E (k ()) Q H s') :
    Seg (extents τ running) E (Client.enter (Sys.host c) id >>= k) Q H s := by
  refine seg_step hid rfl fun s₁ hs₁ => ?_
  have hu₁ : InUse running (face s₁ id) := hs₁.symm ▸ hu
  cases hc : (Sys.host c).fileManager s₁ id with
  | some f =>
    simp only [hc]
    exact ⟨fun _ _ => trivial, fun ho => absurd ho hu₁.ne, h s₁ ⟨hu₁, f, hc⟩⟩
  | none =>
    simp only [hc]
    have hsl : face ((Sys.host c).setFile id { file_attr := ((Sys.host c).fresh s₁).1 }
        ((Sys.host c).fresh s₁).2) id =
          (face s₁ id).setFile c { file_attr := ((Sys.host c).fresh s₁).1 } := by
      rw [face_setFile, if_pos rfl]
      rfl
    refine ⟨fun j hj => ?_, fun ho => ?_, h _ ?_⟩
    · rw [face_setFile, if_neg hj]
      rfl
    · rw [hsl] at ho
      exact absurd ho hu₁.ne
    · rw [hsl]
      exact ⟨hu₁.setFile c _, _, Slice.setFile_cache_self⟩

theorem working_setOwner {k : Unit → Prog Fault ExtentId (Sys τ) α} (hid : id ∈ H)
    (hr : running c = true) (hne : c ≠ "") (hw : Working running c (face s id))
    (h : ∀ s', Working running c (face s' id) → Seg (extents τ running) E (k ()) Q H s') :
    Seg (extents τ running) E (Server.setOwner c id >>= k) Q H s := by
  refine seg_step hid rfl fun s₁ hs₁ => ?_
  have hsl : face { s₁ with fileManger := Function.update s₁.fileManger id (some c) } id =
      (face s id).setOwner c := by
    rw [face_setOwner, if_pos rfl, hs₁]
  have hw' : Working running c ((face s id).setOwner c) := hw.setOwner hr hne
  refine ⟨fun j hj => ?_, fun ho => absurd (hsl ▸ ho) hw'.inUse.ne, h _ (hsl.symm ▸ hw')⟩
  rw [face_setOwner, if_neg hj]

/-- The server looks up the owner, and enters one if there is none. -/
theorem seg_owner {k : String → Prog Fault ExtentId (Sys τ) α} (hid : id ∈ H)
    (hne : (face s id).owner ≠ some "") (hc : c ≠ "")
    (h : ∀ o s', face s' id = (face s id).setOwner o →
      ((face s id).owner = some o ∨ (face s id).owner = none ∧ o = c) →
      Seg (extents τ running) E (k o) Q H s') :
    Seg (extents τ running) E (Server.owner c id >>= k) Q H s := by
  refine seg_step hid rfl fun s₁ hs₁ => ?_
  have hf : s₁.fileManger id = (face s id).owner := by
    rw [← hs₁]
    rfl
  cases ho : (face s id).owner with
  | some o =>
    simp only [hf, ho]
    have hsl : face s₁ id = (face s id).setOwner o := hs₁.trans (Slice.setOwner_self ho).symm
    exact ⟨fun _ _ => trivial, fun hn => absurd (hs₁ ▸ hn) hne, h o s₁ hsl (.inl ho)⟩
  | none =>
    simp only [hf, ho]
    have hsl : face { s₁ with fileManger := Function.update s₁.fileManger id (some c) } id
        = (face s id).setOwner c := by
      rw [face_setOwner, if_pos rfl, hs₁]
    refine ⟨fun j hj => ?_, fun hn => ?_, h c _ hsl (.inr ⟨ho, rfl⟩)⟩
    · rw [face_setOwner, if_neg hj]
    · rw [hsl] at hn
      exact absurd (Option.some.inj hn) hc

/-- What the server found: the client itself, or an owner that can be called back. -/
theorem Working.found {o : String} (hw : Working running c sl)
    (hr : running c = true) (hne : c ≠ "") (ho : sl.owner = some o ∨ sl.owner = none ∧ o = c) :
    Working running c (sl.setOwner o) ∧ running o = true ∧ ∃ f, sl.cache o = some f := by
  rcases ho with ho | ⟨-, rfl⟩
  · rw [Slice.setOwner_self ho]
    exact ⟨hw, (hw.inUse o ho).2⟩
  · exact ⟨hw.setOwner hr hne, hr, hw.entry⟩

/-- `flush_handler` at a client with an entry. -/
theorem working_flush {k : Status → Prog Fault ExtentId (Sys τ) α} (hid : id ∈ H)
    (hw : Working running c (face s id)) (ho : ∃ f, (face s id).cache o = some f)
    (h : ∀ r s', Working running c (face s' id) → Seg (extents τ running) E (k r) Q H s') :
    Seg (extents τ running) E
      (Client.flush_handler (Sys.host o) (Server.put L) id >>= k) Q H s := by
  obtain ⟨f, hf⟩ := ho
  rw [Client.flush_handler, bind_assoc]
  refine seg_step hid rfl fun s₁ hs₁ =>
    ⟨fun _ _ => rfl, fun hn => absurd (hs₁ ▸ hn) hw.inUse.ne, ?_⟩
  have hf₁ : (Sys.host o).fileManager s₁ id = some f := by
    rw [← hf, ← hs₁]
    rfl
  simp only [hf₁, bind_assoc]
  rw [← hs₁] at hw hf
  refine working_file hid hw ⟨f, hf⟩ fun f₂ s₂ hs₂ => ?_
  rw [← hs₂] at hw hf
  split
  case isTrue =>
    rw [pure_bind]
    exact h OK s₂ hw
  case isFalse =>
    rw [bind_assoc]
    refine working_file hid hw ⟨f, hf⟩ fun f₃ s₃ hs₃ => ?_
    rw [← hs₃] at hw hf
    rw [Server.put, bind_assoc, bind_assoc]
    refine seg_im hid rfl (fun hn => absurd hn hw.inUse.ne) fun _ s₄ hs₄ => ?_
    rw [← hs₄] at hw hf
    rw [pure_bind, bind_assoc]
    refine working_update hid hw ⟨f, hf⟩ fun s₅ hw₅ ho₅ => ?_
    rw [bind_assoc]
    refine working_update hid hw₅ ho₅ fun s₆ hw₆ _ => ?_
    rw [pure_bind]
    exact h OK s₆ hw₆

/-- The `get` handler, asked by a client with an entry. -/
theorem working_server_get {k : Status × Bytes → Prog Fault ExtentId (Sys τ) α} (hid : id ∈ H)
    (hlt : id.toNat < 2 ^ 31) (hr : running c = true) (hne : c ≠ "")
    (hw : Working running c (face s id))
    (h : ∀ r s', Working running c (face s' id) → Seg (extents τ running) E (k r) Q H s') :
    Seg (extents τ running) E (Server.get L running c id >>= k) Q H s := by
  -- both branches end with the client as the owner
  have hend : ∀ s₁, Working running c (face s₁ id) → Seg (extents τ running) E
      (do
        Server.setOwner c id
        let cbuf ← Server.im (L.read_file id.toUInt32)
        k (OK, cbuf)) Q H s₁ := fun s₁ hw₁ =>
    working_setOwner hid hr hne hw₁ fun s₂ hw₂ => working_im hid hw₂ fun b s₃ hw₃ => h _ s₃ hw₃
  rw [Server.get, Server.mask_eq hlt]
  simp only [bind_assoc, pure_bind]
  refine seg_owner hid hw.inUse.ne hne fun o s₁ hs₁ ho => ?_
  obtain ⟨hw₁, hro, hfo⟩ := hw.found hr hne ho
  rw [← hs₁] at hw₁
  split
  case isTrue =>
    rw [Server.callback, if_pos hro, bind_assoc]
    simp only [pure_bind]
    refine working_flush hid hw₁ ?_ fun _ s₂ hw₂ => hend s₂ hw₂
    rwa [hs₁]
  case isFalse =>
    rw [pure_bind]
    exact hend s₁ hw₁

/-- The `getattr` handler, asked by a client with an entry. -/
theorem working_server_getattr {k : Status × Attr → Prog Fault ExtentId (Sys τ) α} (hid : id ∈ H)
    (hlt : id.toNat < 2 ^ 31) (hr : running c = true) (hne : c ≠ "")
    (hw : Working running c (face s id))
    (h : ∀ r s', Working running c (face s' id) → Seg (extents τ running) E (k r) Q H s') :
    Seg (extents τ running) E (Server.getattr L running c id >>= k) Q H s := by
  rw [Server.getattr, Server.mask_eq hlt]
  simp only [bind_assoc, pure_bind]
  refine seg_owner hid hw.inUse.ne hne fun o s₁ hs₁ ho => ?_
  obtain ⟨hw₁, hro, hfo⟩ := hw.found hr hne ho
  rw [← hs₁] at hw₁
  split
  case isTrue =>
    rw [Server.callback, if_pos hro, Client.get_attr_handler]
    simp only [bind_assoc, pure_bind]
    refine working_file hid hw₁ ?_ fun f s₂ hs₂ => h _ s₂ (hs₂ ▸ hw₁)
    rwa [hs₁]
  case isFalse => exact working_im hid hw₁ fun a s₂ hw₂ => h _ s₂ hw₂

/-- `getattr` of a client. -/
theorem working_getattr {k : Status × Attr → Prog Fault ExtentId (Sys τ) α} {attr : Attr}
    (hid : id ∈ H) (hlt : id.toNat < 2 ^ 31) (hr : running c = true) (hne : c ≠ "")
    (hu : InUse running (face s id))
    (h : ∀ r s', Working running c (face s' id) → Seg (extents τ running) E (k r) Q H s') :
    Seg (extents τ running) E
      (Client.getattr (Sys.host c) (Sys.calls L running) id attr >>= k) Q H s := by
  rw [Client.getattr, bind_assoc]
  refine working_enter hid hu fun s₁ hw₁ => ?_
  rw [bind_assoc]
  refine working_file hid hw₁ hw₁.entry fun f s₂ hs₂ => ?_
  rw [← hs₂] at hw₁
  cases f.attr_stat with
  | none =>
    simp only [bind_assoc, pure_bind]
    refine working_server_getattr hid hlt hr hne hw₁ fun r s₃ hw₃ => ?_
    refine working_update hid hw₃ hw₃.entry fun s₄ hw₄ hf₄ => ?_
    exact working_update hid hw₄ hf₄ fun s₅ hw₅ _ => h _ s₅ hw₅
  | ok =>
    simp only [bind_assoc, pure_bind]
    exact working_file hid hw₁ hw₁.entry fun f s₃ hs₃ => h _ s₃ (hs₃ ▸ hw₁)

/-- The uncached branch of `get`. -/
theorem working_fetch {k : Status × Bytes → Prog Fault ExtentId (Sys τ) α} {buf : Bytes}
    (hid : id ∈ H) (hlt : id.toNat < 2 ^ 31) (hr : running c = true) (hne : c ≠ "")
    (hw : Working running c (face s id))
    (h : ∀ r s', Working running c (face s' id) → Seg (extents τ running) E (k r) Q H s') :
    Seg (extents τ running) E
      (Client.fetch (Sys.host c) (Sys.calls L running) id buf >>= k) Q H s := by
  rw [Client.fetch, bind_assoc]
  refine working_server_get hid hlt hr hne hw fun r s₁ hw₁ => ?_
  simp only [bind_assoc, pure_bind]
  refine working_update hid hw₁ hw₁.entry fun s₂ hw₂ _ => ?_
  refine working_update hid hw₂ hw₂.entry fun s₃ hw₃ _ => ?_
  refine working_file hid hw₃ hw₃.entry fun f s₄ hs₄ => ?_
  rw [← hs₄] at hw₃
  split
  case isTrue =>
    simp only [bind_assoc]
    refine working_getattr hid hlt hr hne hw₃.inUse fun r' s₅ hw₅ => ?_
    exact working_update hid hw₅ hw₅.entry fun s₆ hw₆ _ => h _ s₆ hw₆
  case isFalse =>
    rw [pure_bind]
    exact h _ s₄ hw₃

/-- `get` of a client. -/
theorem working_get {k : Status × Bytes → Prog Fault ExtentId (Sys τ) α} {buf : Bytes}
    (hid : id ∈ H) (hlt : id.toNat < 2 ^ 31) (hr : running c = true) (hne : c ≠ "")
    (hu : InUse running (face s id))
    (h : ∀ r s', Working running c (face s' id) → Seg (extents τ running) E (k r) Q H s') :
    Seg (extents τ running) E
      (Client.get (Sys.host c) (Sys.calls L running) id buf >>= k) Q H s := by
  rw [Client.get, bind_assoc]
  refine working_enter hid hu fun s₁ hw₁ => ?_
  simp only [bind_assoc]
  refine working_file hid hw₁ hw₁.entry fun f s₂ hs₂ => ?_
  rw [← hs₂] at hw₁
  -- both branches end with setting the access time
  have hend : ∀ r s₃, Working running c (face s₃ id) → Seg (extents τ running) E
      (do
        let now_time ← Client.time (Sys.host c)
        Client.update (Sys.host c) id fun f =>
          { f with file_attr := { f.file_attr with atime := now_time } }
        k r) Q H s₃ := fun r s₃ hw₃ =>
    working_time hid hw₃ fun now s₄ hw₄ =>
      working_update hid hw₄ hw₄.entry fun s₅ hw₅ _ => h r s₅ hw₅
  cases f.data_stat with
  | none => exact working_fetch hid hlt hr hne hw₁ fun r s₃ hw₃ => hend r s₃ hw₃
  | ok =>
    simp only [bind_assoc, pure_bind]
    exact working_file hid hw₁ hw₁.entry fun f s₃ hs₃ => hend (OK, f.file_data) s₃ (hs₃ ▸ hw₁)

/-- `put` of a client. -/
theorem working_put {k : Status → Prog Fault ExtentId (Sys τ) α} {buf : Bytes}
    (hid : id ∈ H) (hlt : id.toNat < 2 ^ 31) (hr : running c = true) (hne : c ≠ "")
    (hu : InUse running (face s id))
    (h : ∀ r s', Working running c (face s' id) → Seg (extents τ running) E (k r) Q H s') :
    Seg (extents τ running) E
      (Client.put (Sys.host c) (Sys.calls L running) id buf >>= k) Q H s := by
  rw [Client.put, bind_assoc]
  refine working_enter hid hu fun s₁ hw₁ => ?_
  simp only [bind_assoc, pure_bind]
  refine working_file hid hw₁ hw₁.entry fun f s₂ hs₂ => ?_
  rw [← hs₂] at hw₁
  have hend : ∀ s₃, Working running c (face s₃ id) → Seg (extents τ running) E
      (do
        let now_time ← Client.time (Sys.host c)
        Client.update (Sys.host c) id ({ · with file_data := buf })
        Client.update (Sys.host c) id fun f => { f with file_attr :=
          { f.file_attr with size := .ofNat buf.length, ctime := now_time, mtime := now_time } }
        Client.update (Sys.host c) id ({ · with data_stat := .ok })
        Client.update (Sys.host c) id ({ · with attr_stat := .ok })
        k OK) Q H s₃ := by
    intro s₃ hw₃
    refine working_time hid hw₃ fun now s₄ hw₄ => ?_
    refine working_update hid hw₄ hw₄.entry fun s₅ hw₅ _ => ?_
    refine working_update hid hw₅ hw₅.entry fun s₆ hw₆ _ => ?_
    refine working_update hid hw₆ hw₆.entry fun s₇ hw₇ _ => ?_
    exact working_update hid hw₇ hw₇.entry fun s₈ hw₈ _ => h OK s₈ hw₈
  split
  case isTrue =>
    simp only [bind_assoc]
    refine working_get hid hlt hr hne hw₁.inUse fun r s₃ hw₃ => ?_
    exact working_update hid hw₃ hw₃.entry fun s₄ hw₄ _ => hend s₄ hw₄
  case isFalse =>
    rw [pure_bind]
    exact hend s₂ hw₁

/-- The end of the `remove` handler, once no entry is marked. -/
theorem seg_server_remove_end {k : Status → Prog Fault ExtentId (Sys τ) α} (hid : id ∈ H)
    (hu : Unmarked (face s id))
    (h : ∀ s', (face s' id).owner = some "" → Seg (extents τ running) E (k OK) Q H s') :
    Seg (extents τ running) E
      (do
        Server.setOwner "" id
        Server.im fun t => (L.remove_file id.toUInt32 t).map ((), ·)
        k OK) Q H s := by
  refine seg_step hid rfl fun s₁ hs₁ => ?_
  have hsl : face { s₁ with fileManger := Function.update s₁.fileManger id (some "") } id =
      (face s id).setOwner "" := by
    rw [face_setOwner, if_pos rfl, hs₁]
  refine ⟨fun j hj => ?_, fun _ => hsl.symm ▸ hu, ?_⟩
  · rw [face_setOwner, if_neg hj]
  · refine seg_im hid hsl (fun _ => hu) fun _ s₂ hs₂ => h s₂ ?_
    rw [hs₂, Slice.setOwner_owner]

/-- **`remove`**: if only an owner other than the caller has marked entries, none is left. -/
theorem seg_server_remove {k : Status → Prog Fault ExtentId (Sys τ) α} (hid : id ∈ H)
    (hlt : id.toNat < 2 ^ 31) (hne : c ≠ "") (hu : InUse running (face s id))
    (hmarked : ∀ x f, (face s id).cache x = some f → f.data_stat = .ok ∨ f.attr_stat = .ok →
      (face s id).owner = some x ∧ x ≠ c)
    (h : ∀ s', (face s' id).owner = some "" → Seg (extents τ running) E (k OK) Q H s') :
    Seg (extents τ running) E (Server.remove L running c id >>= k) Q H s := by
  -- an entry that is not the owner's, or is the caller's, is not marked
  have hunmarked : ∀ x f, (face s id).cache x = some f →
      ((face s id).owner = some x → x = c) → f.data_stat = .none ∧ f.attr_stat = .none := by
    intro x f hx hxo
    by_contra hm
    have hor : f.data_stat = .ok ∨ f.attr_stat = .ok := by
      cases hd : f.data_stat <;> cases ha : f.attr_stat <;> simp [hd, ha] at hm ⊢
    obtain ⟨ho, hxc⟩ := hmarked x f hx hor
    exact hxc (hxo ho)
  rw [Server.remove, Server.mask_eq hlt]
  simp only [bind_assoc, pure_bind]
  refine seg_owner hid hu.ne hne fun o s₁ hs₁ ho => ?_
  by_cases hoc : o = c
  · rw [if_neg (not_not.mpr hoc), pure_bind]
    refine seg_server_remove_end hid (fun x f hx => ?_) h
    rw [hs₁, Slice.setOwner_cache] at hx
    refine hunmarked x f hx fun hox => ?_
    rcases ho with ho | ⟨ho, -⟩
    · exact (Option.some.inj (hox.symm.trans ho)).trans hoc
    · exact absurd (ho.symm.trans hox) nofun
  · have howner : (face s id).owner = some o := ho.resolve_right fun h' => hoc h'.2
    obtain ⟨-, hro, fo, hfo⟩ := hu o howner
    rw [Slice.setOwner_self howner] at hs₁
    rw [if_pos hoc, Server.callback, if_pos hro, Client.flush_rm_handler]
    simp only [bind_assoc, pure_bind]
    refine seg_update hid hs₁ hu.ne hfo fun s₂ hs₂ => ?_
    refine seg_update hid hs₂ hu.ne Slice.setFile_cache_self fun s₃ hs₃ => ?_
    rw [Slice.setFile_setFile] at hs₃
    refine seg_server_remove_end hid (fun x f hx => ?_) h
    rw [hs₃, Slice.setFile_cache] at hx
    split at hx
    case isTrue =>
      cases hx
      exact ⟨rfl, rfl⟩
    case isFalse hxo =>
      exact hunmarked x f hx fun hox => absurd (Option.some.inj (hox.symm.trans howner)) hxo

end Rules

/-! ## Every call keeps to its extent -/

section Calls

variable {s : Sys τ} {g : ExtentId → Option Bool} {call : Call} {c : String} {id : ExtentId}

/-- No extent is unknown. -/
def Known (g : ExtentId → Option Bool) : Prop := ∀ id, g id ≠ none

theorem holds_acquire {k : Prog Fault ExtentId (Sys τ) Result} (hg : Known g)
    (hcond : ∀ sl, call.Cond sl → sl.owner ≠ some "")
    (h : ∀ s₁ g₁, g₁ id = some false → InUse running (face s₁ id) → call.Cond (face s₁ id) →
      Holds (extents τ running) (service L running True) (fun _ => ()) call k {id} s₁ g₁) :
    Holds (extents τ running) (service L running True) (fun _ => ()) call
      (.acquire id k) ∅ s g := by
  intro s₁ g₁ hr
  obtain ⟨v₀, hv₀⟩ := Option.ne_none_iff_exists'.mp (hg id)
  obtain ⟨v, hv, -⟩ := hr.grows id v₀ hv₀
  refine ⟨Set.notMem_empty id, v, hv, fun hobj hc => ?_⟩
  have hc' : call.Cond (face s₁ id) := hc trivial
  rw [insert_empty_eq]
  cases v with
  | true => exact absurd hobj (hcond _ hc')
  | false => exact h s₁ g₁ hv hobj hc'

/-- Code of a call that leaves the extent with the property `P`. -/
theorem holds_bind {β : Type} {q : Prog Fault ExtentId (Sys τ) β}
    {k : β → Prog Fault ExtentId (Sys τ) Result} {P : β → Sys τ → Prop}
    (h : ∀ {α : Type} {E : Fault → Prop} {Q : α → Set ExtentId → Sys τ → Prop}
      {l : β → Prog Fault ExtentId (Sys τ) α},
      (∀ r s', P r s' → Seg (extents τ running) E (l r) Q {id} s') →
        Seg (extents τ running) E (q >>= l) Q {id} s)
    (hk : ∀ r s' g', P r s' → g' id = g id →
      Holds (extents τ running) (service L running True) (fun _ => ()) call (k r) {id} s' g') :
    Holds (extents τ running) (service L running True) (fun _ => ()) call (q >>= k) {id} s g := by
  refine Holds.bind ?_
  rw [← bind_pure q]
  exact h fun r s' hs' g' _ hg' _ => hk r s' g' hs' (hg' id (Set.mem_singleton id))

/-- The end of a call that leaves the extent in use. -/
theorem holds_release {r : Result} (hg : g id = some false) (hw : InUse running (face s id))
    (hcommit : ∀ g₁ : ExtentId → Option Bool, g₁ id = some false → call.commit g₁ g₁) :
    Holds (extents τ running) (service L running True) (fun _ => ()) call
      (.release id (.ret r)) {id}
      s g := by
  intro s₁ g₁ hr
  have hself : g₁ id = some false := (hr.value id rfl).trans hg
  refine ⟨Set.mem_singleton id, g₁, hcommit g₁ hself, .refl _ g₁, fun _ _ => rfl, ?_⟩
  rintro j rfl
  have hsame : face s₁ j = face s j := hr.same j rfl
  refine ⟨false, hself, ?_⟩
  show InUse running (face s₁ j)
  rwa [hsame]

/-- **Every call keeps to its extent.** -/
theorem holds_call (hr : running call.client = true) (hne : call.client ≠ "")
    (hlt : ∀ id, call.id? = some id → id.toNat < 2 ^ 31) (hg : Known g) :
    Holds (extents τ running) (service L running True) (fun _ => ()) call
      (call.prog L running) ∅ s g := by
  cases call with
  | create c ty =>
    intro s₁ g₁ _ _
    refine ⟨fun _ => trivial, fun b s₂ hb => ?_⟩
    obtain ⟨r, -, he⟩ := Option.map_eq_some_iff.mp hb
    cases he
    exact ⟨∅, ⟨subset_rfl, fun _ h => h.elim, fun _ h => h.elim, fun j _ => rfl⟩,
      fun _ => ⟨g₁, rfl, .refl _ g₁, fun _ _ => rfl, fun _ h => h.elim⟩⟩
  | get c id =>
    rw [Call.prog, Prog.lock_bind]
    refine holds_acquire hg (fun _ h => h) fun s₁ g₁ hg₁ hu _ => ?_
    refine holds_bind (fun h => working_get (Set.mem_singleton id) (hlt id rfl) hr hne hu h) ?_
    exact fun r s₂ g₂ hw hg₂ => holds_release (hg₂.trans hg₁) hw.inUse fun g₃ hg₃ => ⟨hg₃, rfl⟩
  | put c id buf =>
    rw [Call.prog, Prog.lock_bind]
    refine holds_acquire hg (fun _ h => h) fun s₁ g₁ hg₁ hu _ => ?_
    refine holds_bind (fun h => working_put (Set.mem_singleton id) (hlt id rfl) hr hne hu h) ?_
    exact fun r s₂ g₂ hw hg₂ => holds_release (hg₂.trans hg₁) hw.inUse fun g₃ hg₃ => ⟨hg₃, rfl⟩
  | getattr c id =>
    rw [Call.prog, Prog.lock_bind]
    refine holds_acquire hg (fun _ h => h) fun s₁ g₁ hg₁ hu _ => ?_
    refine holds_bind (fun h => working_getattr (Set.mem_singleton id) (hlt id rfl) hr hne hu h) ?_
    exact fun r s₂ g₂ hw hg₂ => holds_release (hg₂.trans hg₁) hw.inUse fun g₃ hg₃ => ⟨hg₃, rfl⟩
  | remove c id =>
    rw [Call.prog, Prog.lock_bind]
    refine holds_acquire hg (fun _ h => h.1) fun s₁ g₁ hg₁ hu hcond => ?_
    refine holds_bind (P := fun _ s' => (face s' id).owner = some "") (fun h =>
      seg_server_remove (Set.mem_singleton id) (hlt id rfl) hne hu hcond.2 (h OK)) ?_
    intro r s₂ g₂ hs₂ hg₂ s₃ g₃ hr₃
    have hself : g₃ id = some false := (hr₃.value id rfl).trans (hg₂.trans hg₁)
    refine ⟨Set.mem_singleton id, Function.update g₃ id (some true), ⟨hself, rfl⟩, ?_, ?_, ?_⟩
    · intro j w hj
      by_cases hji : j = id
      · exact ⟨true, by rw [hji, Function.update_self], rfl⟩
      · exact ⟨w, by rwa [Function.update_of_ne hji], rfl⟩
    · exact fun j hj => Function.update_of_ne hj _ _
    · rintro j rfl
      have hsame : face s₃ j = face s₂ j := hr₃.same j rfl
      refine ⟨true, Function.update_self .., ?_⟩
      show (face s₃ j).owner = some ""
      rwa [hsame]

end Calls

section Main

variable {θ : Type} [DecidableEq θ] {p : Pool Fault ExtentId (Sys τ) Call Result θ}
  {log : List (Call × Result)} {g : ExtentId → Option Bool} {id : ExtentId}

/-- What the threads can get to. -/
def Reached (L : InodeLayer τ) (running : String → Bool) (W : Prop) :
    Pool Fault ExtentId (Sys τ) Call Result θ → Prop :=
  Reachable (Pool.Init Start) (Pool.Step (service L running W) (May running))

/-- What was removed is forgotten. -/
structure Forgotten (p : Pool Fault ExtentId (Sys τ) Call Result θ) : Prop where
  /-- after `remove`, and until the next call on the extent, no entry is marked -/
  unmarked : ∀ pre c id r post, p.log = pre ++ (.remove c id, r) :: post →
    (∀ x ∈ post, x.1.id? ≠ some id) → p.owner id = none → Unmarked (face p.state id)
  /-- when the id is handed out again, a `get` returns the empty string -/
  data : ∀ l₁ c id r l₂ c' ty l₃ x r' buf l₄, p.log = l₁ ++ (.remove c id, r) :: l₂ ++
    (.create c' ty, .created OK id) :: l₃ ++ (.get x id, .data r' buf) :: l₄ →
    (∀ y ∈ l₃, y.1 ≠ .remove y.1.client id ∧ ∀ b, y.1 ≠ .put y.1.client id b) →
    r' = OK ∧ buf = []
  /-- and `getattr` the size 0 and the new type -/
  attr : ∀ l₁ c id r l₂ c' ty l₃ x r' a l₄, p.log = l₁ ++ (.remove c id, r) :: l₂ ++
    (.create c' ty, .created OK id) :: l₃ ++ (.getattr x id, .attr r' a) :: l₄ →
    (∀ y ∈ l₃, y.1 ≠ .remove y.1.client id ∧ ∀ b, y.1 ≠ .put y.1.client id b) →
    r' = OK ∧ a.size = 0 ∧ a.type = ty
  /-- and nobody has run into a fault -/
  safe : ∀ t call e, p.thread t ≠ some (call, .fail e)

/-- Extents stay known. -/
theorem runs_known (h : (service L running W).Runs (fun _ => some false) log g) : Known g := by
  induction h with
  | nil => exact fun _ => nofun
  | @snoc log g g' call r _ hc ih =>
    cases call with
    | create c ty =>
      cases hc
      exact ih
    | get c id | put c id buf | getattr c id =>
      cases hc.2
      exact ih
    | remove c id =>
      cases hc.2
      intro j
      rw [Function.update_apply]
      split
      case isTrue => exact nofun
      case isFalse => exact ih j

/-- After a `remove` the extent is known to be removed, and no call on it has ended since. -/
theorem runs_removed (h : (service L running W).Runs (fun _ => some false) log g)
    {pre post : List (Call × Result)} {c : String} {r : Result}
    (hlog : log = pre ++ (.remove c id, r) :: post) :
    g id = some true ∧ ∀ x ∈ post, x.1.id? ≠ some id := by
  induction h generalizing post with
  | nil => simp at hlog
  | @snoc log g g' call a hr hc ih =>
    rcases List.eq_nil_or_concat post with rfl | ⟨post', y, rfl⟩
    · obtain ⟨-, hx⟩ := List.append_inj' hlog rfl
      cases hx
      cases hc.2
      exact ⟨Function.update_self .., fun _ hx => absurd hx List.not_mem_nil⟩
    · have hlog' : log ++ [(call, a)] = (pre ++ (.remove c id, r) :: post') ++ [y] := by
        simpa using hlog
      obtain ⟨hl, hy⟩ := List.append_inj' hlog' rfl
      cases hy
      obtain ⟨hg, hpost⟩ := ih hl
      -- a call on the extent needs it in use
      have hno : call.id? ≠ some id := by
        intro hid
        cases call with
        | create c ty => cases hid
        | get c i | put c i buf | getattr c i | remove c i =>
          cases hid
          exact absurd (hg.symm.trans hc.1) (by decide)
      have hg' : g' id = some true := by
        cases call with
        | create c ty =>
          cases hc
          exact hg
        | get c i | put c i buf | getattr c i =>
          cases hc.2
          exact hg
        | remove c i =>
          cases hc.2
          have hne : id ≠ i := fun he => hno (he ▸ rfl)
          rw [Function.update_of_ne hne]
          exact hg
      refine ⟨hg', fun x hx => ?_⟩
      rw [List.concat_eq_append] at hx
      rcases List.mem_append.mp hx with hx | hx
      · exact hpost x hx
      · cases List.mem_singleton.mp hx
        exact hno

/-- **What was removed is forgotten, on runs that meet the condition.** In every state that
calls lead to which all meet `Call.Cond` when they get their lock, no entry of a removed
extent is marked, and nobody has used a removed id again and got something else. -/
theorem removed_forgotten (h : Reached L running True p) : Forgotten p := by
  have hmay : ∀ call log g s, (service L running True).Runs (fun _ => some false) log g →
      May running call log → Holds (extents τ running) (service L running True) (fun _ => ())
        call (call.prog L running) ∅ s g := by
    rintro call log g s hruns ⟨hr, hne, hlt⟩
    exact holds_call hr hne hlt (runs_known hruns)
  have hinit : ∀ s : Sys τ, Start s → (∀ i, (extents τ running).always i s) ∧
      ∀ i v, (fun _ => some false : ExtentId → Option Bool) i = some v →
        ¬ (extents τ running).free i s ∧ (extents τ running).obj i v s := by
    rintro s ⟨hown, -⟩
    refine ⟨fun i ho => absurd ((hown i).symm.trans ho) nofun, fun i v hv => ⟨not_false, ?_⟩⟩
    cases hv
    exact fun o ho => absurd ((hown i).symm.trans ho) nofun
  obtain ⟨⟨g, hruns, hobj⟩, halways, hfault⟩ := Pool.linearized hmay hinit h
  -- no call on a removed extent has ended
  have hunused : ∀ {l₁ l₂ l₃ l₄ : List (Call × Result)} {c id r x y}, p.log = l₁ ++
      (.remove c id, r) :: l₂ ++ y :: l₃ ++ x :: l₄ → x.1.id? ≠ some id := by
    intro l₁ l₂ l₃ l₄ c id r x y hlog
    have hlog' : p.log = l₁ ++ (.remove c id, r) :: (l₂ ++ y :: l₃ ++ x :: l₄) := by
      simpa using hlog
    exact (runs_removed hruns hlog').2 x (by simp)
  refine ⟨fun pre c id r post hlog _ hfree => ?_, ?_, ?_, fun t call e hth => hfault t call e hth⟩
  · exact halways id (hobj id true (runs_removed hruns hlog).1 hfree)
  · intro l₁ c id r l₂ c' ty l₃ x r' buf l₄ hlog
    exact absurd rfl (hunused hlog)
  · intro l₁ c id r l₂ c' ty l₃ x r' a l₄ hlog
    exact absurd rfl (hunused hlog)

/-- Why the condition leaves no call on a removed extent that gets to the server: its handlers
call back the empty string. -/
theorem server_removed_faults {s : Sys τ} {c : String} {id : ExtentId} (hrun : running "" = false)
    (hlt : id.toNat < 2 ^ 31) (hc : c ≠ "") (ho : s.fileManger id = some "") :
    (Server.get L running c id : Prog Fault ExtentId (Sys τ) _).run s = .failed .nullDeref s ∧
      (Server.getattr L running c id : Prog Fault ExtentId (Sys τ) _).run s =
        .failed .nullDeref s := by
  have hne : "" ≠ c := Ne.symm hc
  constructor
  · simp [Server.get, Server.mask_eq hlt, Server.owner, Server.callback, Prog.step, Prog.run, ho,
      hrun, hne]
  · simp [Server.getattr, Server.mask_eq hlt, Server.owner, Server.callback,
      Prog.step, Prog.run, ho, hrun, hne]
    rfl

end Main

/-! ## Copies that survive -/

/-- The server with the root directory, and no call yet. -/
def fresh : Pool Fault ExtentId (Sys Memory) Call Result Unit where
  state := Extent.fresh.state
  owner _ := none
  thread _ := none
  log := []

theorem fresh_init : Pool.Init Start fresh :=
  ⟨Extent.fresh_init.1, fun _ => rfl, fun _ => rfl, rfl⟩

/-- Clients `A` and `B` run. -/
def onlyAB (c : String) : Bool := c = "A" ∨ c = "B"

theorem may_of_onlyAB (call : Call) (log : List (Call × Result))
    (h : onlyAB call.client ∧ call.id?.all fun id => id.toNat < 2 ^ 31) : May onlyAB call log := by
  refine ⟨h.1, ?_, fun id hid => ?_⟩
  · intro he
    rw [he] at h
    exact absurd h.1 (by decide)
  · have hall := h.2
    rw [hid] at hall
    exact of_decide_eq_true hall

/-- `A` puts two bytes into extent 5 and removes it: its own copy is still marked. -/
theorem removed_copy_survives : ∃ p : Pool Fault ExtentId (Sys Memory) Call Result Unit,
    Reached memory onlyAB False p ∧ ¬ Forgotten p := by
  have hrun : (Pool.script (service memory onlyAB False)
      (fun call _ => onlyAB call.client ∧ call.id?.all fun id => id.toNat < 2 ^ 31)
      (fun _ _ _ => true) 100 () [.create "A" 2, .put "A" 5 [97, 98], .remove "A" 5] fresh).map
        (fun p => (p.log, p.owner 5, (p.state.cache "A" 5).map FileData.data_stat)) =
      some ([(.create "A" 2, .created OK 5), (.put "A" 5 [97, 98], .done OK),
        (.remove "A" 5, .done OK)], none, some .ok) := by decide +kernel
  obtain ⟨p, hp, hobs⟩ := Pool.reachable_script
    (fun call log h => may_of_onlyAB call log (of_decide_eq_true h)) (fun _ _ _ _ h => h.elim)
    (.start fresh_init) hrun
  obtain ⟨hlog, hfree, hstat⟩ : _ ∧ _ ∧ _ := by simpa only [Prod.mk.injEq] using hobs
  refine ⟨p, hp, fun hf => ?_⟩
  have hun := hf.unmarked [_, _] "A" 5 _ [] hlog (fun _ hx => absurd hx List.not_mem_nil) hfree
  obtain ⟨f, hA, hok⟩ := Option.map_eq_some_iff.mp hstat
  have hnone := (hun "A" f hA).1
  rw [hok] at hnone
  cases hnone

/-- `B` removes an extent that nobody has a copy of. -/
theorem removed_forgotten_untouched : ∃ p : Pool Fault ExtentId (Sys Memory) Call Result Unit,
    Reached memory onlyAB True p ∧
      p.log = [(.create "A" 2, .created OK 5), (.remove "B" 5, .done OK)] ∧
      Unmarked (face p.state 5) := by
  have hmay : ∀ (call : Call) (log : List (Call × Result)), (onlyAB call.client ∧
      call.id?.all fun id => id.toNat < 2 ^ 31) → May onlyAB call log := may_of_onlyAB
  have h₁ : Reached memory onlyAB True _ :=
    .next (.start fresh_init) (.start (t := ()) (c := .create "A" 2) rfl (hmay _ _ (by decide)))
  have h₂ := h₁.next (.atom (t := ()) rfl rfl)
  have h₃ := h₂.next (.start (t := ()) (c := .remove "B" 5) rfl (hmay _ _ (by decide)))
  -- nobody has an entry when `B` gets the lock
  have h₄ := h₃.next (.acquire (S := service memory onlyAB True) (t := ()) (c := .remove "B" 5)
    (i := 5) rfl rfl fun _ => And.intro nofun nofun)
  have hrun : ∀ q : Pool Fault ExtentId (Sys Memory) Call Result Unit,
      Reached memory onlyAB True q → (Pool.script (service memory onlyAB True) (fun _ _ => false)
        (fun _ _ _ => false) 100 () [] q).map (fun p => (p.log, p.owner 5)) =
          some ([(.create "A" 2, .created OK 5), (.remove "B" 5, .done OK)], none) →
      ∃ p, Reached memory onlyAB True p ∧ (p.log, p.owner 5) =
        ([(.create "A" 2, .created OK 5), (.remove "B" 5, .done OK)], none) :=
    fun q hq h => Pool.reachable_script (fun _ _ h => absurd h (by decide))
      (fun _ _ _ h => absurd h (by decide)) hq h
  obtain ⟨p, hp, hobs⟩ := hrun _ h₄ rfl
  obtain ⟨hlog, hfree⟩ := Prod.mk.inj hobs
  exact ⟨p, hp, hlog, (removed_forgotten hp).unmarked [_] "B" 5 _ [] hlog
    (fun _ hx => absurd hx List.not_mem_nil) hfree⟩

end Yfs.Extent.Removal
