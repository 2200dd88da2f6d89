import Yfs.Extent.Removal

/-!
# The times of an extent

Any number of clients that call `create`, `get`, `put` and `getattr`, each call on an extent
under the lock of that extent, and a clock that moves forward between any two steps. The
`mtime` and `ctime` of an extent are kept twice: in the attributes of the owner, and in the
inode. This file has what a single access of the server or of a client does to them.
-/

namespace Yfs.Extent

/-- `mtime` and `ctime`. -/
def Attr.times (a : Attr) : UInt32 × UInt32 := (a.mtime, a.ctime)

/-- An inode layer that keeps times: `Shows t n` says that its clock stands at `n`. -/
structure TimedInodes {τ : Type} (L : InodeLayer τ) where
  Shows : τ → UInt32 → Prop
  setClock : UInt32 → τ → τ
  /-- `mtime` and `ctime` of the inodes that are there -/
  times : τ → UInt32 → Option (UInt32 × UInt32)
  shows_setClock : ∀ n t, Shows (setClock n t) n
  times_setClock : ∀ n t, times (setClock n t) = times t
  alloc_ok : ∀ {ty t n i t'}, Shows t n → L.alloc_inode ty t = some (i, t') →
    Shows t' n ∧ i.toNat < 2 ^ 31 ∧ times t i = none ∧
      ∀ j, times t' j = if j = i then some (n, n) else times t j
  write_ok : ∀ {i m buf t n t'}, Shows t n → times t i = some m →
    L.write_file i buf (toInt buf.length) t = some t' →
      Shows t' n ∧ ∀ j, times t' j = if j = i then some (n, n) else times t j
  read_ok : ∀ {i m t n b t'}, Shows t n → times t i = some m → L.read_file i t = some (b, t') →
    Shows t' n ∧ times t' = times t
  getattr_ok : ∀ {i m t n a t'}, Shows t n → times t i = some m → L.getattr i t = some (a, t') →
    a.times = m ∧ Shows t' n ∧ times t' = times t

namespace Times

open Removal (face face_setFile face_setOwner)

variable {τ : Type} {L : InodeLayer τ}

/-! ## The code, with the times it stamps -/

/-- `extent_client::put`, and the time that it enters. -/
def put {ι σ : Type} (C : Host σ) (cl : Calls Fault ι σ) (eid : ExtentId) (buf : Bytes) :
    Prog Fault ι σ (Status × UInt32) := do
  Client.enter C eid
  let f ← Client.file C eid
  let () ← (if f.data_stat = .none ∨ f.attr_stat = .none then do
    let (_, b) ← Client.get C cl eid f.file_data
    Client.update C eid ({ · with file_data := b })
  else pure ())
  let now_time ← Client.time C
  Client.update C eid ({ · with file_data := buf })
  Client.update C eid fun f => { f with file_attr :=
    { f.file_attr with size := .ofNat buf.length, ctime := now_time, mtime := now_time } }
  Client.update C eid ({ · with data_stat := .ok })
  Client.update C eid ({ · with attr_stat := .ok })
  pure (OK, now_time)

/-- It is `extent_client::put` but for its result. -/
theorem put_eq {ι σ : Type} (C : Host σ) (cl : Calls Fault ι σ) (eid : ExtentId) (buf : Bytes) :
    Client.put C cl eid buf = Prod.fst <$> put C cl eid buf := by
  simp only [Client.put, put, map_eq_pure_bind, bind_assoc, pure_bind]

/-- `extent_client::create`, which is one step of the server, and what the clock shows in it. -/
def create {ι : Type} (L : InodeLayer τ) (type : UInt32) :
    Prog Fault ι (Sys τ) ((Status × ExtentId) × UInt32) :=
  .atom (fun s => (L.alloc_inode type s.im).map fun r =>
    (((OK, r.1.toUInt64), s.clock.head), { s with im := r.2 })) .ret

/-- It does and returns what `extent_client::create` does and returns. -/
theorem run_create {ι : Type} {running : String → Bool} {c : String} {type : UInt32} {id : ExtentId}
    {s : Sys τ} :
    (Client.create (Sys.host c) (Sys.calls L running) type id : Prog Fault ι (Sys τ) _).run s =
      (Prod.fst <$> (create L type : Prog Fault ι (Sys τ) _)).run s := by
  simp only [Client.create, Sys.calls, Server.create, Server.im, create,
    map_eq_pure_bind, Prog.atom_bind, Prog.run]
  cases L.alloc_inode type s.im <;> rfl

/-- The calls, with the client that makes them; and the clock, which moves on. -/
inductive Call where
  | tick (now : UInt32)
  | create (c : String) (type : UInt32)
  | get (c : String) (id : ExtentId)
  | put (c : String) (id : ExtentId) (buf : Bytes)
  | getattr (c : String) (id : ExtentId)
  deriving DecidableEq, Repr

/-- The extent a call is on, and the client that makes it. -/
def Call.on? : Call → Option (String × ExtentId)
  | tick _ | create _ _ => none
  | get c id | put c id _ | getattr c id => some (c, id)

/-- What calls return, and the time that they stamp. -/
abbrev Stamped := Result × Option UInt32

/-- The code of a call. There is one clock, for the clients and for the server. -/
def Call.prog (M : TimedInodes L)
    (running : String → Bool) : Call → Prog Fault ExtentId (Sys τ) Stamped
  | tick now => do
    .modify fun s => if s.clock.head ≤ now then
      { s with clock := .const now, im := M.setClock now s.im } else s
    pure (.done OK, none)
  | create _ type => do
    let ((ret, id), now) ← Times.create L type
    pure (.created ret id, some now)
  | get c id => do
    .lock id
    let (ret, buf) ← Client.get (Sys.host c) (Sys.calls L running) id []
    .unlock id
    pure (.data ret buf, none)
  | put c id buf => do
    .lock id
    let (ret, now) ← Times.put (Sys.host c) (Sys.calls L running) id buf
    .unlock id
    pure (.done ret, some now)
  | getattr c id => do
    .lock id
    let (ret, a) ← Client.getattr (Sys.host c) (Sys.calls L running) id {}
    .unlock id
    pure (.attr ret a, none)

/-- If another client owns the extent, then `c` has the owner's times in its own cache, or else it
has no attributes, and the owner has nothing to write back. -/
def Readable (c : String) (sl : Slice) : Prop :=
  ∀ o fo, sl.owner = some o → o ≠ c → sl.cache o = some fo →
    (∃ f, sl.cache c = some f ∧ f.attr_stat = .ok ∧ f.file_attr.times = fo.file_attr.times) ∨
      (∀ f, sl.cache c = some f → f.attr_stat = .none) ∧ fo.data_stat = .none

instance (c : String) (sl : Slice) : Decidable (Readable c sl) :=
  decidable_of_iff (sl.owner.all fun o => o = c ∨ (sl.cache o).all fun fo =>
    ((sl.cache c).any fun f => f.attr_stat = .ok ∧ f.file_attr.times = fo.file_attr.times) ∨
      ((sl.cache c).all fun f => f.attr_stat = .none) ∧ fo.data_stat = .none) <| by
    simp only [Readable, Option.all_eq_true, Option.any_eq_true, decide_eq_true_eq]
    constructor
    · exact fun h o fo ho hoc hfo => (h o ho).resolve_left hoc fo hfo
    · exact fun h o ho => or_iff_not_imp_left.mpr fun hoc fo hfo => h o fo ho hoc hfo

/-- The condition on a call when it gets its lock. -/
def Call.Cond (sl : Slice) : Call → Prop
  | get c _ => Readable c sl
  | tick _ | create _ _ | put _ _ _ | getattr _ _ => True

instance (sl : Slice) : (call : Call) → Decidable (call.Cond sl)
  | .get _ _ => inferInstanceAs (Decidable (Readable _ _))
  | .tick _ | .create _ _ | .put _ _ _ | .getattr _ _ => .isTrue trivial

/-- What a call does to the times of the extents. -/
def Call.commit : Call → Stamped → (ExtentId → Option UInt32) → (ExtentId → Option UInt32) → Prop
  | create _ _, (.created ret id, some now), g, g' =>
    ret = OK ∧ g id = none ∧ g' = Function.update g id (some now)
  | put _ id _, (.done ret, some now), g, g' => ret = OK ∧ g' = Function.update g id (some now)
  | tick _, _, g, g' | get _ _, _, g, g' | getattr _ _, _, g, g' => g' = g
  | _, _, _, _ => False

/-- The calls as a service. -/
def service (M : TimedInodes L) (running : String → Bool) (W : Prop) :
    Service Fault ExtentId UInt32 (Sys τ) Call Stamped where
  prog := Call.prog M running
  commit := Call.commit
  cond call id s := W → call.Cond (face s id)

/-- The calls that may be made: by a client that runs, on the root directory or on an extent
that a `create` has returned. -/
def May (running : String → Bool) (call : Call) (log : List (Call × Stamped)) : Prop :=
  ∀ c id, call.on? = some (c, id) → running c = true ∧
    (id = 1 ∨ ∃ c' ty now, (Call.create c' ty, Result.created OK id, some now) ∈ log)

/-! ## What is kept about an extent -/

/-- `mtime` and `ctime` in the inode. Ids of more than 31 bits have no inode of their own. -/
def dates (M : TimedInodes L) (s : Sys τ) (id : ExtentId) : Option (UInt32 × UInt32) :=
  if id.toNat < 2 ^ 31 then M.times s.im id.toUInt32 else none

/-- Clients and server read one clock, which stands still until it is moved. -/
def Steady (M : TimedInodes L) (s : Sys τ) : Prop := ∃ n, s.clock = .const n ∧ M.Shows s.im n

/-- What is reported: the owner's attributes, if it has some, and else the inode's. -/
def reported (M : TimedInodes L) (s : Sys τ) (id : ExtentId) : Option (UInt32 × UInt32) :=
  match (s.fileManger id).bind fun o => s.cache o id with
  | some f => if f.attr_stat = .ok then some f.file_attr.times else dates M s id
  | none => dates M s id

/-- The extent between two calls, last modified at `T`: the owner has attributes, and if `W`
holds they are right, and so is the inode as long as nobody has data. -/
structure Current (running : String → Bool) (W : Prop) (T : UInt32) (sl : Slice)
    (m : UInt32 × UInt32) :
    Prop where
  ok : sl.Ok
  owner : ∀ o, sl.owner = some o → running o = true ∧ ∃ f, sl.cache o = some f ∧ f.attr_stat = .ok ∧
    (W → f.file_attr.times = (T, T) ∧ (f.data_stat = .none → m = (T, T)))
  nobody : sl.owner = none → (W → m = (T, T)) ∧ ∀ c f, sl.cache c = some f → f.attr_stat = .none

/-- An extent that nobody has heard of. -/
theorem Current.new {running : String → Bool} {W : Prop} {T : UInt32} {sl : Slice}
    (ho : sl.owner = none) (hc : ∀ c, sl.cache c = none) : Current running W T sl (T, T) := by
  refine ⟨fun x f hx => ?_, fun o hx => ?_, fun _ => ⟨fun _ => rfl, fun x f hx => ?_⟩⟩
  · exact absurd ((hc x).symm.trans hx) nofun
  · exact absurd (ho.symm.trans hx) nofun
  · exact absurd ((hc x).symm.trans hx) nofun

/-- The extents, with the times they were last modified at. -/
def extents (M : TimedInodes L) (running : String → Bool) (W : Prop) :
    Objects ExtentId UInt32 (Sys τ) where
  same id s s' := face s' id = face s id ∧ dates M s' id = dates M s id ∧ (Steady M s → Steady M s')
  free id s := dates M s id = none
  obj id T s := id.toNat < 2 ^ 31 ∧ Steady M s ∧
    ∃ m, dates M s id = some m ∧ Current running W T (face s id) m
  always id s := Steady M s ∧
    (dates M s id = none → (face s id).owner = none ∧ ∀ c, (face s id).cache c = none)
  same_refl _ _ := ⟨rfl, rfl, id⟩
  same_trans h h' := ⟨h'.1.trans h.1, h'.2.1.trans h.2.1, h'.2.2 ∘ h.2.2⟩
  free_same h hf := h.2.1 ▸ hf
  obj_same h ho := by
    obtain ⟨hlt, hst, m, hm, hcur⟩ := ho
    exact ⟨hlt, h.2.2 hst, m, h.2.1.trans hm, h.1.symm ▸ hcur⟩
  always_same h ha := ⟨h.2.2 ha.1, fun hn => h.1.symm ▸ ha.2 (h.2.1 ▸ hn)⟩

/-! ## Single accesses -/

section Rules

variable {α : Type} {M : TimedInodes L} {running : String → Bool} {W : Prop} {E : Fault → Prop}
  {H : Set ExtentId} {s s' : Sys τ} {id : ExtentId} {sl : Slice} {m : UInt32 × UInt32} {c : String}
  {f : FileData} {Q : α → Set ExtentId → Sys τ → Prop}

/-- What a call finds out about its extent: the maps, and the times in the inode. -/
structure At (M : TimedInodes L) (id : ExtentId) (sl : Slice) (m : UInt32 × UInt32)
    (s : Sys τ) : Prop where
  face : face s id = sl
  dates : dates M s id = some m
  steady : Steady M s

theorem At.same (h : At M id sl m s) (hs : (extents M running W).same id s s') : At M id sl m s' :=
  ⟨hs.1.trans h.face, hs.2.1.trans h.dates, hs.2.2 h.steady⟩

/-- To read the clock does not move it. -/
theorem Steady.congr (h : Steady M s) (him : s'.im = s.im)
    (hclock : s'.clock = s.clock ∨ s'.clock = s.clock.tail) : Steady M s' := by
  obtain ⟨n, hn, hshows⟩ := h
  refine ⟨n, ?_, him ▸ hshows⟩
  rcases hclock with hclock | hclock
  · exact hclock.trans hn
  · rw [hclock, hn]
    rfl

theorem dates_congr (him : s'.im = s.im) (j : ExtentId) : dates M s' j = dates M s j := by
  rw [dates, dates, him]

/-- A step on the maps. -/
theorem seg_step {δ : Type} {g : Sys τ → δ × Sys τ} {k : δ → Prog Fault ExtentId (Sys τ) α}
    (hid : id ∈ H) (hs : At M id sl m s)
    (h : ∀ s₁, face s₁ id = sl → (g s₁).2.im = s₁.im ∧
      ((g s₁).2.clock = s₁.clock ∨ (g s₁).2.clock = s₁.clock.tail) ∧
      (∀ j, j ≠ id → face (g s₁).2 j = face s₁ j) ∧
      ((∀ sl', face (g s₁).2 id = sl' → At M id sl' m (g s₁).2) →
        Seg (extents M running W) E (k (g s₁).1) Q H (g s₁).2)) :
    Seg (extents M running W) E (.step g >>= k) Q H s := by
  refine Seg.atom hid (fun _ _ _ => trivial) fun s₁ hs₁ b s₂ hb => ?_
  obtain ⟨rfl, rfl⟩ := Prod.mk.inj (Option.some.inj hb)
  have hat := hs.same hs₁
  obtain ⟨him, hclock, hother, hk⟩ := h s₁ hat.face
  have hdates : dates M (g s₁).2 id = some m := (dates_congr him id).trans hat.dates
  have hst : Steady M (g s₁).2 := hat.steady.congr him hclock
  refine ⟨fun j hj => ⟨hother j hj, dates_congr him j, fun _ => hst⟩, ?_, ⟨hst, ?_⟩,
    hk fun sl' hsl => ⟨hsl, hdates, hst⟩⟩
  · exact fun hf => absurd (hdates.symm.trans hf) nofun
  · exact fun hn => absurd (hdates.symm.trans hn) nofun

theorem seg_time {k : UInt32 → Prog Fault ExtentId (Sys τ) α} (hid : id ∈ H) (hs : At M id sl m s)
    (h : ∀ now s', At M id sl m s' → Seg (extents M running W) E (k now) Q H s') :
    Seg (extents M running W) E (Client.time (Sys.host c) >>= k) Q H s :=
  seg_step hid hs fun _ hs₁ => ⟨rfl, .inr rfl, fun _ _ => rfl, fun hat => h _ _ (hat sl hs₁)⟩

theorem seg_file {k : FileData → Prog Fault ExtentId (Sys τ) α} (hid : id ∈ H) (hs : At M id sl m s)
    (hc : sl.cache c = some f)
    (h : ∀ s', At M id sl m s' → Seg (extents M running W) E (k f) Q H s') :
    Seg (extents M running W) E (Client.file (Sys.host c) id >>= k) Q H s := by
  rw [Client.file, bind_assoc]
  refine seg_step hid hs fun s₁ hs₁ => ⟨rfl, .inl rfl, fun _ _ => rfl, fun hat => ?_⟩
  have hf : (Sys.host c).fileManager s₁ id = some f := by
    rw [← hc, ← hs₁]
    rfl
  simp only [hf, pure_bind]
  exact h s₁ (hat sl hs₁)

theorem seg_update {g : FileData → FileData}
    {k : Unit → Prog Fault ExtentId (Sys τ) α} (hid : id ∈ H)
    (hs : At M id sl m s) (hc : sl.cache c = some f)
    (h : ∀ s', At M id (sl.setFile c (g f)) m s' → Seg (extents M running W) E (k ()) Q H s') :
    Seg (extents M running W) E (Client.update (Sys.host c) id g >>= k) Q H s := by
  rw [Client.update, bind_assoc]
  refine seg_step hid hs fun s₁ hs₁ => ?_
  have hf : (Sys.host c).fileManager s₁ id = some f := by
    rw [← hc, ← hs₁]
    rfl
  simp only [hf, if_true, pure_bind]
  refine ⟨rfl, .inl rfl, fun j hj => ?_, fun hat => h _ (hat _ ?_)⟩
  · rw [face_setFile, if_neg hj]
  · rw [face_setFile, if_pos rfl, hs₁]

/-- An entry is there, or is made. -/
theorem seg_enter {k : Unit → Prog Fault ExtentId (Sys τ) α} (hid : id ∈ H) (hs : At M id sl m s)
    (h : ∀ s' f, At M id (sl.setFile c f) m s' →
      (sl.cache c = some f ∨ sl.cache c = none ∧ f.data_stat = .none ∧ f.attr_stat = .none) →
      Seg (extents M running W) E (k ()) Q H s') :
    Seg (extents M running W) E (Client.enter (Sys.host c) id >>= k) Q H s := by
  refine seg_step hid hs fun s₁ hs₁ => ?_
  have hf : (Sys.host c).fileManager s₁ id = sl.cache c := by
    rw [← hs₁]
    rfl
  cases hc : sl.cache c with
  | some f =>
    simp only [hf, hc]
    exact ⟨trivial, .inl trivial, fun _ _ => trivial,
      fun hat => h s₁ f (hat _ (hs₁.trans (Slice.setFile_self hc).symm)) (.inl hc)⟩
  | none =>
    simp only [hf, hc]
    refine ⟨rfl, .inl rfl, fun j hj => ?_, fun hat => h _ { file_attr := s₁.memory.head } (hat _ ?_)
      (.inr ⟨hc, rfl, rfl⟩)⟩
    · rw [face_setFile, if_neg hj]
      rfl
    · rw [face_setFile, if_pos rfl, ← hs₁]
      rfl

/-- The server looks up the owner, and enters one if there is none. -/
theorem seg_owner {k : String → Prog Fault ExtentId (Sys τ) α} (hid : id ∈ H) (hs : At M id sl m s)
    (h : ∀ s' o, At M id (sl.setOwner o) m s' → (sl.owner = some o ∨ sl.owner = none ∧ o = c) →
      Seg (extents M running W) E (k o) Q H s') :
    Seg (extents M running W) E (Server.owner c id >>= k) Q H s := by
  refine seg_step hid hs fun s₁ hs₁ => ?_
  have hf : s₁.fileManger id = sl.owner := by
    rw [← hs₁]
    rfl
  cases ho : sl.owner with
  | some o =>
    simp only [hf, ho]
    exact ⟨trivial, .inl trivial, fun _ _ => trivial,
      fun hat => h s₁ o (hat _ (hs₁.trans (Slice.setOwner_self ho).symm)) (.inl ho)⟩
  | none =>
    simp only [hf, ho]
    refine ⟨trivial, .inl trivial, fun j hj => ?_, fun hat => h _ c (hat _ ?_) (.inr ⟨ho, rfl⟩)⟩
    · rw [face_setOwner, if_neg hj]
    · rw [face_setOwner, if_pos rfl, hs₁]

theorem seg_setOwner {k : Unit → Prog Fault ExtentId (Sys τ) α} (hid : id ∈ H) (hs : At M id sl m s)
    (h : ∀ s', At M id (sl.setOwner c) m s' → Seg (extents M running W) E (k ()) Q H s') :
    Seg (extents M running W) E (Server.setOwner c id >>= k) Q H s := by
  refine seg_step hid hs fun s₁ hs₁ => ⟨rfl, .inl rfl, fun j hj => ?_, fun hat => h _ (hat _ ?_)⟩
  · rw [face_setOwner, if_neg hj]
  · rw [face_setOwner, if_pos rfl, hs₁]

/-- An operation of the inode layer that stamps no inode but that of `id`. -/
theorem seg_im {δ : Type} {g : τ → Option (δ × τ)} {k : δ → Prog Fault ExtentId (Sys τ) α}
    {R : δ → UInt32 × UInt32 → Prop} (hid : id ∈ H) (hlt : id.toNat < 2 ^ 31) (hs : At M id sl m s)
    (hg : ∀ t n b t', M.Shows t n → M.times t id.toUInt32 = some m →
      g t = some (b, t') → M.Shows t' n ∧
      ∃ m', R b m' ∧ ∀ j, M.times t' j = if j = id.toUInt32 then some m' else M.times t j)
    (h : ∀ b m' s', R b m' → At M id sl m' s' → Seg (extents M running W) E (k b) Q H s') :
    Seg (extents M running W) E (Server.im g >>= k) Q H s := by
  refine Seg.atom hid (fun _ _ _ => trivial) fun s₁ hs₁ _ s₂ hb => ?_
  obtain ⟨⟨b, t'⟩, ht', he⟩ := Option.map_eq_some_iff.mp hb
  cases he
  have hat := hs.same hs₁
  obtain ⟨n, hclock, hshows⟩ := hat.steady
  have htimes : M.times s₁.im id.toUInt32 = some m := by
    have := hat.dates
    rwa [dates, if_pos hlt] at this
  obtain ⟨hshows', m', hR, htimes'⟩ := hg s₁.im n b t' hshows htimes ht'
  have hst : Steady M { s₁ with im := t' } := ⟨n, hclock, hshows'⟩
  have hdates : dates M { s₁ with im := t' } id = some m' := by
    rw [dates, if_pos hlt]
    exact (htimes' _).trans (if_pos rfl)
  refine ⟨fun j hj => ⟨rfl, ?_, fun _ => hst⟩, ?_, ⟨hst, ?_⟩, h b m' _ hR ⟨hat.face, hdates, hst⟩⟩
  · show dates M { s₁ with im := t' } j = dates M s₁ j
    simp only [dates]
    split
    case isTrue hjlt => rw [htimes', if_neg fun he => hj (toUInt32_inj hjlt hlt he)]
    case isFalse => rfl
  · exact fun hf => absurd (hdates.symm.trans hf) nofun
  · exact fun hn => absurd (hdates.symm.trans hn) nofun

/-- An operation that stamps nothing. -/
theorem times_unchanged {t t' : τ} {i : UInt32} (h : M.times t i = some m)
    (ht : M.times t' = M.times t)
    (j : UInt32) : M.times t' j = if j = i then some m else M.times t j := by
  rw [ht]
  split
  case isTrue hj => rw [hj, h]
  case isFalse => rfl

theorem seg_read_file {k : Bytes → Prog Fault ExtentId (Sys τ) α} (hid : id ∈ H)
    (hlt : id.toNat < 2 ^ 31) (hs : At M id sl m s)
    (h : ∀ b s', At M id sl m s' → Seg (extents M running W) E (k b) Q H s') :
    Seg (extents M running W) E (Server.im (L.read_file id.toUInt32) >>= k) Q H s := by
  refine seg_im (R := fun _ m' => m' = m) hid hlt hs (fun t n b t' hn ht hr => ?_) ?_
  · obtain ⟨hn', htimes⟩ := M.read_ok hn ht hr
    exact ⟨hn', m, rfl, times_unchanged ht htimes⟩
  · rintro b m' s' rfl hs'
    exact h b s' hs'

theorem seg_getattr_im {k : Attr → Prog Fault ExtentId (Sys τ) α} (hid : id ∈ H)
    (hlt : id.toNat < 2 ^ 31) (hs : At M id sl m s)
    (h : ∀ a s', a.times = m → At M id sl m s' → Seg (extents M running W) E (k a) Q H s') :
    Seg (extents M running W) E (Server.im (L.getattr id.toUInt32) >>= k) Q H s := by
  refine seg_im (R := fun a m' => a.times = m ∧ m' = m) hid hlt hs (fun t n a t' hn ht hr => ?_) ?_
  · obtain ⟨ha, hn', htimes⟩ := M.getattr_ok hn ht hr
    exact ⟨hn', m, ⟨ha, rfl⟩, times_unchanged ht htimes⟩
  · rintro a m' s' ⟨ha, rfl⟩ hs'
    exact h a s' ha hs'

/-- `extent_server::put` stamps the inode, whatever is written. -/
theorem seg_server_put {k : Status → Prog Fault ExtentId (Sys τ) α} {buf : Bytes} (hid : id ∈ H)
    (hlt : id.toNat < 2 ^ 31) (hs : At M id sl m s)
    (h : ∀ m' s', At M id sl m' s' → Seg (extents M running W) E (k OK) Q H s') :
    Seg (extents M running W) E (Server.put L c id buf >>= k) Q H s := by
  rw [Server.put, Server.mask_eq hlt, bind_assoc]
  refine seg_im (R := fun _ _ => True) hid hlt hs
    (fun t n b t' hn ht hr => ?_) fun b m' s' _ hs' => h m' s' hs'
  obtain ⟨t'', hw, he⟩ := Option.map_eq_some_iff.mp hr
  cases he
  obtain ⟨hn', htimes⟩ := M.write_ok hn ht hw
  exact ⟨hn', (n, n), trivial, htimes⟩

end Rules

end Times

end Yfs.Extent
