import Yfs.Extent.Calls

/-!
# Callbacks of the extent server

The handlers of `get`, `getattr` and `remove` call back the client that `fileManger` has
for the extent. Here the server gets any requests from clients that run; those for one
extent do not overlap. What the clients do to their own entries in between is left open
(`Request.store`), as long as they keep them.

Whom the server calls back runs and has an entry for the extent, if no request is made for
an extent that was removed (`callback_live`). After `remove` the entry of `fileManger` is
the empty string, and the next handler calls that back (`removed_target`).
-/

namespace Yfs.Extent.Callbacks

variable {τ : Type} {L : InodeLayer τ} {running : String → Bool} {W : Prop}

/-- The requests, with the client they come from, and what a client does by itself. -/
inductive Request where
  | create (clt : String) (type : UInt32)
  | put (clt : String) (id : ExtentId) (buf : Bytes)
  | get (clt : String) (id : ExtentId)
  | getattr (clt : String) (id : ExtentId)
  | remove (clt : String) (id : ExtentId)
  | store (clt : String) (id : ExtentId) (f : FileData)
  deriving DecidableEq, Repr

/-- The client. -/
def Request.client : Request → String
  | create clt _ | put clt _ _ | get clt _ | getattr clt _ | remove clt _ | store clt _ _ => clt

/-- The code of a request. A client has an entry before it asks for an extent. -/
def Request.prog (L : InodeLayer τ) (running : String → Bool) :
    Request → Prog Fault ExtentId (Sys τ) Unit
  | create clt type => do
    let _ ← Server.create L clt type
    pure ()
  | put clt id buf => do
    .lock (Server.mask id)
    let _ ← Server.put L clt id buf
    .unlock (Server.mask id)
  | get clt id => do
    .lock (Server.mask id)
    Client.enter (Sys.host clt) id
    let _ ← Server.get L running clt id
    .unlock (Server.mask id)
  | getattr clt id => do
    .lock (Server.mask id)
    Client.enter (Sys.host clt) id
    let _ ← Server.getattr L running clt id
    .unlock (Server.mask id)
  | remove clt id => do
    .lock (Server.mask id)
    let _ ← Server.remove L running clt id
    .unlock (Server.mask id)
  | store clt id f => .modify ((Sys.host clt).setFile id f)

/-- Whom the handler of a request that comes now calls back, and about which extent. -/
def Request.target (s : Sys τ) : Request → Option (String × ExtentId)
  | get clt id | getattr clt id | remove clt id =>
    match s.fileManger (Server.mask id) with
    | some o => if o ≠ clt then some (o, Server.mask id) else none
    | none => none
  | _ => none

/-- A client that can be called back about the extent: it runs, and has an entry. -/
def Live (running : String → Bool) (s : Sys τ) (o : String) (id : ExtentId) : Prop :=
  running o = true ∧ ∃ f, s.cache o id = some f

/-- The condition on a request: it is not for an extent that was removed. -/
def Request.Cond (s : Sys τ) : Request → Prop
  | get _ id | getattr _ id | remove _ id => s.fileManger (Server.mask id) ≠ some ""
  | _ => True

instance (s : Sys τ) : (req : Request) → Decidable (req.Cond s)
  | .get _ id | .getattr _ id | .remove _ id =>
    inferInstanceAs (Decidable (s.fileManger (Server.mask id) ≠ some ""))
  | .create _ _ | .put _ _ _ | .store _ _ _ => isTrue trivial

/-- The extent of a request whose client must have an entry. -/
def Request.asks : Request → Option ExtentId
  | get _ id | getattr _ id => some id
  | _ => none

/-- The requests as a service. They have no specification here. -/
def service (L : InodeLayer τ) (running : String → Bool) (W : Prop) :
    Service Fault ExtentId Unit (Sys τ) Request Unit where
  prog := Request.prog L running
  commit _ _ g g' := g' = g
  cond req _ s := W → req.Cond s

/-- The requests that may be made: by a client that runs, and for an id of 31 bits, as all
ids are that `create` returns. -/
def May (running : String → Bool) (W : Prop) (req : Request) (_ : List (Request × Unit)) : Prop :=
  running req.client = true ∧ (W → ∀ id, req.asks = some id → id.toNat < 2 ^ 31)

/-- The owner of an extent is live, unless it was removed. -/
def Owned (running : String → Bool) (s : Sys τ) (id : ExtentId) : Prop :=
  ∀ o, s.fileManger id = some o → o = "" ∨ Live running s o id

/-- The owner is as before, and no entry is lost. -/
structure Kept (id : ExtentId) (s s' : Sys τ) : Prop where
  owner : s'.fileManger id = s.fileManger id
  entries : ∀ c f, s.cache c id = some f → ∃ f', s'.cache c id = some f'

theorem Kept.refl (id : ExtentId) (s : Sys τ) : Kept id s s := ⟨rfl, fun _ f h => ⟨f, h⟩⟩

theorem Kept.trans {id : ExtentId} {s s' s'' : Sys τ} (h : Kept id s s') (h' : Kept id s' s'') :
    Kept id s s'' where
  owner := h'.owner.trans h.owner
  entries c f hf := by
    obtain ⟨f', hf'⟩ := h.entries c f hf
    exact h'.entries c f' hf'

theorem Live.kept {s s' : Sys τ} {o : String} {id : ExtentId} (h : Live running s o id)
    (hk : Kept id s s') : Live running s' o id :=
  ⟨h.1, h.2.elim fun f hf => hk.entries o f hf⟩

theorem Owned.kept {s s' : Sys τ} {id : ExtentId} (h : Owned running s id) (hk : Kept id s s') :
    Owned running s' id :=
  fun o ho => (h o (hk.owner.symm.trans ho)).imp_right fun hl => hl.kept hk

/-- The extents. All are there from the start. -/
def extents (τ : Type) (running : String → Bool) : Objects ExtentId Unit (Sys τ) where
  same id s s' := Kept id s s'
  free _ _ := False
  obj id _ s := Owned running s id
  always _ _ := True
  same_refl := Kept.refl
  same_trans h h' := h.trans h'
  free_same _ h := h
  obj_same hk h := h.kept hk
  always_same _ h := h

section Rules

variable {α : Type} {E : Fault → Prop} {H : Set ExtentId} {s : Sys τ} {id : ExtentId}
  {clt o : String} {Q : α → Set ExtentId → Sys τ → Prop}

/-- A step that leaves every owner and every entry. -/
theorem seg_step {δ : Type} {g : Sys τ → δ × Sys τ} {k : δ → Prog Fault ExtentId (Sys τ) α}
    (hid : id ∈ H) (hg : ∀ s₁ j, Kept j s₁ (g s₁).2)
    (h : ∀ s₁, Kept id s s₁ → Kept id s (g s₁).2 →
      Seg (extents τ running) E (k (g s₁).1) Q H (g s₁).2) :
    Seg (extents τ running) E (.step g >>= k) Q H s := by
  refine Seg.atom hid (fun _ _ _ => trivial) fun s₁ hs₁ b s₂ hb => ?_
  obtain ⟨rfl, rfl⟩ := Prod.mk.inj (Option.some.inj hb)
  exact ⟨fun j _ => hg s₁ j, nofun, trivial, h s₁ hs₁ (hs₁.trans (hg s₁ id))⟩

theorem kept_setFile {c : String} {f : FileData} (i j : ExtentId) :
    Kept j s ((Sys.host c).setFile i f s) where
  owner := rfl
  entries x fx hx := by
    by_cases hxc : x = c
    · by_cases hji : j = i
      · exact ⟨f, by simp [Sys.host, hxc, hji]⟩
      · exact ⟨fx, by rw [← hx]; simp [Sys.host, hxc, hji]⟩
    · exact ⟨fx, by rw [← hx]; simp [Sys.host, hxc]⟩

theorem seg_im {δ : Type} {g : τ → Option (δ × τ)} {k : δ → Prog Fault ExtentId (Sys τ) α}
    (hid : id ∈ H) (h : ∀ b s', Kept id s s' → Seg (extents τ running) E (k b) Q H s') :
    Seg (extents τ running) E (Server.im g >>= k) Q H s := by
  refine Seg.atom hid (fun _ _ _ => trivial) fun s₁ hs₁ b s₂ hb => ?_
  obtain ⟨r, -, he⟩ := Option.map_eq_some_iff.mp hb
  cases he
  have hk : ∀ j, Kept j s₁ { s₁ with im := r.2 } := fun j => ⟨rfl, fun c f hf => ⟨f, hf⟩⟩
  exact ⟨fun j _ => hk j, nofun, trivial, h r.1 _ (hs₁.trans (hk id))⟩

theorem seg_file {k : FileData → Prog Fault ExtentId (Sys τ) α} (hid : id ∈ H)
    (hl : Live running s o id)
    (h : ∀ f s', Kept id s s' → Seg (extents τ running) E (k f) Q H s') :
    Seg (extents τ running) E (Client.file (Sys.host o) id >>= k) Q H s := by
  rw [Client.file, bind_assoc]
  refine seg_step hid (fun s₁ j => .refl j s₁) fun s₁ hk _ => ?_
  obtain ⟨f, hf⟩ := (hl.kept hk).2
  have hf' : (Sys.host o).fileManager s₁ id = some f := hf
  simp only [hf', pure_bind]
  exact h f s₁ hk

theorem seg_update {g : FileData → FileData} {k : Unit → Prog Fault ExtentId (Sys τ) α}
    (hid : id ∈ H) (hl : Live running s o id)
    (h : ∀ s', Kept id s s' → Seg (extents τ running) E (k ()) Q H s') :
    Seg (extents τ running) E (Client.update (Sys.host o) id g >>= k) Q H s := by
  rw [Client.update, bind_assoc]
  refine seg_step hid (fun s₁ j => ?_) fun s₁ hk₁ hk => ?_
  · split
    case h_1 => exact kept_setFile id j
    case h_2 => exact .refl j s₁
  · obtain ⟨f, hf⟩ := (hl.kept hk₁).2
    have hf' : (Sys.host o).fileManager s₁ id = some f := hf
    simp only [hf', if_true, pure_bind] at hk ⊢
    exact h _ hk

/-- The client has an entry from here on. -/
theorem seg_enter {k : Unit → Prog Fault ExtentId (Sys τ) α} (hid : id ∈ H)
    (hr : running clt = true)
    (h : ∀ s', Kept id s s' → Live running s' clt id → Seg (extents τ running) E (k ()) Q H s') :
    Seg (extents τ running) E (Client.enter (Sys.host clt) id >>= k) Q H s := by
  refine seg_step hid (fun s₁ j => ?_) fun s₁ _ hk => h _ hk ⟨hr, ?_⟩
  · dsimp only
    split
    case h_1 => exact .refl j s₁
    case h_2 =>
      have hfresh : Kept j s₁ ((Sys.host clt).fresh s₁).2 := ⟨rfl, fun c f hf => ⟨f, hf⟩⟩
      exact hfresh.trans (kept_setFile id j)
  · dsimp only
    split
    case h_1 f hf => exact ⟨f, hf⟩
    case h_2 => exact ⟨{ file_attr := ((Sys.host clt).fresh s₁).1 }, by simp [Sys.host]⟩

/-- A step that leaves the entries, and makes `o` the owner of `id`. -/
theorem seg_newOwner {δ : Type} {g : Sys τ → δ × Sys τ} {k : δ → Prog Fault ExtentId (Sys τ) α}
    (hid : id ∈ H)
    (hg : ∀ s₁, s₁.fileManger id = s.fileManger id → (g s₁).2 =
      { s₁ with fileManger := Function.update s₁.fileManger id (some o) })
    (h : ∀ s₁ s', s₁.fileManger id = s.fileManger id → s'.fileManger id = some o →
      (∀ x, Live running s x id → Live running s' x id) →
      Seg (extents τ running) E (k (g s₁).1) Q H s') :
    Seg (extents τ running) E (.step g >>= k) Q H s := by
  refine Seg.atom hid (fun _ _ _ => trivial) fun s₁ hs₁ b s₂ hb => ?_
  obtain ⟨rfl, rfl⟩ := Prod.mk.inj (Option.some.inj hb)
  rw [hg s₁ hs₁.owner]
  refine ⟨fun j hj => ⟨Function.update_of_ne hj _ _, fun c f hf => ⟨f, hf⟩⟩, nofun, trivial,
    h s₁ _ hs₁.owner (Function.update_self ..) fun x hx => ?_⟩
  exact ⟨hx.1, hx.2.elim fun f hf => hs₁.entries x f hf⟩

theorem seg_setOwner {k : Unit → Prog Fault ExtentId (Sys τ) α} (hid : id ∈ H)
    (h : ∀ s', s'.fileManger id = some o → (∀ x, Live running s x id → Live running s' x id) →
      Seg (extents τ running) E (k ()) Q H s') :
    Seg (extents τ running) E (Server.setOwner o id >>= k) Q H s :=
  seg_newOwner hid (fun _ _ => rfl) fun _ s' _ ho hl => h s' ho hl

/-- The server looks up the owner, and enters one if there is none. -/
theorem seg_owner {k : String → Prog Fault ExtentId (Sys τ) α} (hid : id ∈ H)
    (h : ∀ o s', s'.fileManger id = some o →
      s.fileManger id = some o ∨ s.fileManger id = none ∧ o = clt →
      (∀ x, Live running s x id → Live running s' x id) → Seg (extents τ running) E (k o) Q H s') :
    Seg (extents τ running) E (Server.owner clt id >>= k) Q H s := by
  cases hs : s.fileManger id with
  | some o =>
    refine seg_newOwner (o := o) hid (fun s₁ h₁ => ?_) fun s₁ s' h₁ ho hl => ?_
    · rw [hs] at h₁
      simp only [h₁]
      rw [← h₁, Function.update_eq_self]
    · rw [hs] at h₁
      simp only [h₁]
      exact h o s' ho (.inl hs) hl
  | none =>
    refine seg_newOwner (o := clt) hid (fun s₁ h₁ => ?_) fun s₁ s' h₁ ho hl => ?_
    · rw [hs] at h₁
      simp only [h₁]
    · rw [hs] at h₁
      simp only [h₁]
      exact h clt s' ho (.inr ⟨hs, rfl⟩) hl

/-! ## The handlers -/

/-- `flush_handler` at a client with an entry. -/
theorem seg_flush {k : Status → Prog Fault ExtentId (Sys τ) α} (hid : id ∈ H)
    (hlt : id.toNat < 2 ^ 31) (hl : Live running s o id)
    (h : ∀ r s', Kept id s s' → Seg (extents τ running) E (k r) Q H s') :
    Seg (extents τ running) E
      (Client.flush_handler (Sys.host o) (Server.put L) id >>= k) Q H s := by
  rw [Client.flush_handler, bind_assoc]
  refine seg_step hid (fun s₁ j => .refl j s₁) fun s₁ hk₁ _ => ?_
  obtain ⟨f, hf⟩ := (hl.kept hk₁).2
  have hf' : (Sys.host o).fileManager s₁ id = some f := hf
  simp only [hf', bind_assoc]
  refine seg_file hid (hl.kept hk₁) fun f s₂ hk₂ => ?_
  have hk := hk₁.trans hk₂
  split
  case isTrue =>
    rw [pure_bind]
    exact h OK s₂ hk
  case isFalse =>
    rw [bind_assoc]
    refine seg_file hid (hl.kept hk) fun f s₃ hk₃ => ?_
    rw [bind_assoc, Server.put, Server.mask_eq hlt, bind_assoc]
    refine seg_im hid fun _ s₄ hk₄ => ?_
    rw [pure_bind, bind_assoc]
    have hk₅ := (hk.trans hk₃).trans hk₄
    refine seg_update hid (hl.kept hk₅) fun s₅ hk₆ => ?_
    rw [bind_assoc]
    refine seg_update hid (hl.kept (hk₅.trans hk₆)) fun s₆ hk₇ => ?_
    rw [pure_bind]
    exact h OK s₆ ((hk₅.trans hk₆).trans hk₇)

/-- The owner found by a handler is the client itself, or live. -/
theorem Owned.found {s' : Sys τ} (h : Owned running s id) (hne : s.fileManger id ≠ some "")
    (ho : s.fileManger id = some o ∨ s.fileManger id = none ∧ o = clt)
    (hl : ∀ x, Live running s x id → Live running s' x id) (hoc : o ≠ clt) :
    Live running s' o id := by
  rcases ho with ho | ⟨-, ho⟩
  · rcases h o ho with rfl | hlo
    · exact absurd ho hne
    · exact hl o hlo
  · exact absurd ho hoc

/-- The `get` handler, asked by a client with an entry. -/
theorem seg_server_get {k : Status × Bytes → Prog Fault ExtentId (Sys τ) α} (hid : id ∈ H)
    (hlt : id.toNat < 2 ^ 31) (hown : Owned running s id) (hne : s.fileManger id ≠ some "")
    (hc : Live running s clt id)
    (h : ∀ r s', Owned running s' id → Seg (extents τ running) E (k r) Q H s') :
    Seg (extents τ running) E (Server.get L running clt id >>= k) Q H s := by
  -- both branches end with the client as the owner
  have hend : ∀ s₁, Live running s₁ clt id → Seg (extents τ running) E
      (do
        Server.setOwner clt id
        let cbuf ← Server.im (L.read_file id.toUInt32)
        k (OK, cbuf)) Q H s₁ := by
    intro s₁ hc₁
    refine seg_setOwner hid fun s₂ ho hl => seg_im hid fun b s₃ hk => h _ s₃ ?_
    have howned : Owned running s₂ id := by
      intro o ho'
      cases ho.symm.trans ho'
      exact .inr (hl _ hc₁)
    exact howned.kept hk
  rw [Server.get, Server.mask_eq hlt]
  simp only [bind_assoc, pure_bind]
  refine seg_owner hid fun o s₁ _ ho hl => ?_
  by_cases hoc : o = clt
  · rw [if_neg (not_not.mpr hoc), pure_bind]
    exact hend s₁ (hl clt hc)
  · have hlo := hown.found hne ho hl hoc
    rw [if_pos hoc, Server.callback, if_pos hlo.1, bind_assoc]
    simp only [pure_bind]
    exact seg_flush hid hlt hlo fun _ s₂ hk => hend s₂ ((hl clt hc).kept hk)

/-- The `getattr` handler, asked by a client with an entry. -/
theorem seg_server_getattr {k : Status × Attr → Prog Fault ExtentId (Sys τ) α} (hid : id ∈ H)
    (hlt : id.toNat < 2 ^ 31) (hown : Owned running s id) (hne : s.fileManger id ≠ some "")
    (hc : Live running s clt id)
    (h : ∀ r s', Owned running s' id → Seg (extents τ running) E (k r) Q H s') :
    Seg (extents τ running) E (Server.getattr L running clt id >>= k) Q H s := by
  rw [Server.getattr, Server.mask_eq hlt]
  simp only [bind_assoc, pure_bind]
  refine seg_owner hid fun o s₁ ho' ho hl => ?_
  have howned : Live running s₁ o id → Owned running s₁ id := by
    intro hlo x hx
    cases ho'.symm.trans hx
    exact .inr hlo
  by_cases hoc : o = clt
  · rw [if_neg (not_not.mpr hoc)]
    exact seg_im hid fun a s₂ hk => h _ s₂ ((howned (hoc ▸ hl clt hc)).kept hk)
  · have hlo := hown.found hne ho hl hoc
    rw [if_pos hoc, Server.callback, if_pos hlo.1, Client.get_attr_handler]
    simp only [bind_assoc, pure_bind]
    exact seg_file hid hlo fun f s₂ hk => h _ s₂ ((howned hlo).kept hk)

/-- The `remove` handler: the owner is forgotten. -/
theorem seg_server_remove {k : Status → Prog Fault ExtentId (Sys τ) α} (hid : id ∈ H)
    (hlt : id.toNat < 2 ^ 31) (hown : Owned running s id) (hne : s.fileManger id ≠ some "")
    (h : ∀ r s', Owned running s' id → Seg (extents τ running) E (k r) Q H s') :
    Seg (extents τ running) E (Server.remove L running clt id >>= k) Q H s := by
  have hend : ∀ s₁, Seg (extents τ running) E
      (do
        Server.setOwner "" id
        Server.im fun t => (L.remove_file id.toUInt32 t).map ((), ·)
        k OK) Q H s₁ := by
    intro s₁
    refine seg_setOwner hid fun s₂ ho _ => seg_im hid fun _ s₃ hk => h _ s₃ ?_
    intro o ho'
    exact .inl (Option.some.inj (ho'.symm.trans (hk.owner.trans ho)))
  rw [Server.remove, Server.mask_eq hlt]
  simp only [bind_assoc, pure_bind]
  refine seg_owner hid fun o s₁ _ ho hl => ?_
  by_cases hoc : o = clt
  · rw [if_neg (not_not.mpr hoc), pure_bind]
    exact hend s₁
  · have hlo := hown.found hne ho hl hoc
    rw [if_pos hoc, Server.callback, if_pos hlo.1, Client.flush_rm_handler]
    simp only [bind_assoc, pure_bind]
    exact seg_update hid hlo fun s₂ hk => seg_update hid (hlo.kept hk) fun s₃ _ => hend s₃

/-- Only the last 31 bits of an id count. -/
theorem mask_lt (id : ExtentId) : (Server.mask id).toNat < 2 ^ 31 := by
  rw [Server.mask, UInt64.toNat_and]
  exact Nat.and_lt_two_pow _ (by decide)

theorem server_put_mask (buf : Bytes) : (Server.put L clt id buf : Prog Fault ExtentId (Sys τ) _) =
    Server.put L clt (Server.mask id) buf := by
  simp only [Server.put, Server.mask_eq (mask_lt id)]

theorem server_remove_mask : (Server.remove L running clt id : Prog Fault ExtentId (Sys τ) _) =
    Server.remove L running clt (Server.mask id) := by
  simp only [Server.remove, Server.mask_eq (mask_lt id)]

end Rules

/-! ## Every request keeps the owners live -/

section Requests

variable {s : Sys τ} {g : ExtentId → Option Unit} {req : Request} {id : ExtentId} {clt : String}

theorem holds_acquire {k : Prog Fault ExtentId (Sys τ) Unit} (hg : g id = some ())
    (h : ∀ s₁ g₁, g₁ id = some () → Owned running s₁ id → req.Cond s₁ →
      Holds (extents τ running) (service L running True) (fun _ => ()) req k {id} s₁ g₁) :
    Holds (extents τ running) (service L running True) (fun _ => ()) req (.acquire id k) ∅ s g := by
  intro s₁ g₁ hr
  obtain ⟨v, hv, -⟩ := hr.grows id () hg
  refine ⟨Set.notMem_empty id, v, hv, fun hobj hcond => ?_⟩
  rw [insert_empty_eq]
  exact h s₁ g₁ hv hobj (hcond trivial)

/-- A handler, and then the lock is given up. -/
theorem holds_release {β : Type} {p : Prog Fault ExtentId (Sys τ) β} (hg : g id = some ())
    (h : ∀ {α : Type} {E : Fault → Prop} {Q : α → Set ExtentId → Sys τ → Prop}
      {k : β → Prog Fault ExtentId (Sys τ) α},
      (∀ r s', Owned running s' id → Seg (extents τ running) E (k r) Q {id} s') →
        Seg (extents τ running) E (p >>= k) Q {id} s) :
    Holds (extents τ running) (service L running True) (fun _ => ()) req
      (p >>= fun _ => .unlock id) {id} s g := by
  refine Holds.bind ?_
  rw [← bind_pure p]
  refine h fun r s' hown g' _ hg' _ s₁ g₁ hr =>
    ⟨Set.mem_singleton id, g₁, rfl, .refl _ g₁, fun _ _ => rfl, ?_⟩
  rintro j rfl
  have hv := (hr.value j rfl).trans ((hg' j rfl).trans hg)
  exact ⟨(), hv, hown.kept (hr.same j rfl)⟩

/-- A step without a lock, that leaves every owner and every entry. -/
theorem holds_step {β : Type} {f : Sys τ → Option (β × Sys τ)}
    (hf : ∀ s₁ b s₂, f s₁ = some (b, s₂) → ∀ j, Kept j s₁ s₂) :
    Holds (extents τ running) (service L running True) (fun _ => ()) req
      (.atom f fun _ => .ret ()) ∅ s g := by
  intro s₁ g₁ _ _
  refine ⟨fun _ => trivial, fun b s₂ hb => ?_⟩
  refine ⟨∅, ⟨subset_rfl, fun _ h => h.elim, fun _ h => h.elim, fun j _ => hf s₁ b s₂ hb j⟩,
    fun _ => ⟨g₁, rfl, .refl _ g₁, fun _ _ => rfl, fun _ h => h.elim⟩⟩

/-- **Every request keeps the owners live.** -/
theorem holds_request (hr : running req.client = true)
    (hlt : ∀ id, req.asks = some id → id.toNat < 2 ^ 31) (hg : ∀ id, g id = some ()) :
    Holds (extents τ running) (service L running True) (fun _ => ()) req
      (req.prog L running) ∅ s g := by
  cases req with
  | create clt ty =>
    refine holds_step fun s₁ b s₂ hb j => ?_
    obtain ⟨r, -, he⟩ := Option.map_eq_some_iff.mp hb
    cases he
    exact ⟨rfl, fun c f hf => ⟨f, hf⟩⟩
  | put clt id buf =>
    rw [Request.prog, server_put_mask]
    refine holds_acquire (hg _) fun s₁ g₁ hg₁ hown _ => holds_release hg₁ fun h => ?_
    rw [Server.put, Server.mask_eq (mask_lt id), bind_assoc]
    exact seg_im (Set.mem_singleton _) fun _ s₂ hk => h _ s₂ (hown.kept hk)
  | get clt id =>
    have hid := hlt id rfl
    rw [Request.prog, Server.mask_eq hid]
    refine holds_acquire (hg id) fun s₁ g₁ hg₁ hown hne => ?_
    rw [Request.Cond, Server.mask_eq hid] at hne
    rw [← bind_assoc]
    refine holds_release hg₁ fun h => ?_
    rw [bind_assoc]
    refine seg_enter (Set.mem_singleton id) hr fun s₂ hk hc => ?_
    exact seg_server_get (Set.mem_singleton id) hid (hown.kept hk) (hk.owner ▸ hne) hc h
  | getattr clt id =>
    have hid := hlt id rfl
    rw [Request.prog, Server.mask_eq hid]
    refine holds_acquire (hg id) fun s₁ g₁ hg₁ hown hne => ?_
    rw [Request.Cond, Server.mask_eq hid] at hne
    rw [← bind_assoc]
    refine holds_release hg₁ fun h => ?_
    rw [bind_assoc]
    refine seg_enter (Set.mem_singleton id) hr fun s₂ hk hc => ?_
    exact seg_server_getattr (Set.mem_singleton id) hid (hown.kept hk) (hk.owner ▸ hne) hc h
  | remove clt id =>
    rw [Request.prog, server_remove_mask]
    refine holds_acquire (hg _) fun s₁ g₁ hg₁ hown hne => holds_release hg₁ fun h => ?_
    exact seg_server_remove (Set.mem_singleton _) (mask_lt id) hown hne h
  | store clt id f =>
    refine holds_step fun s₁ b s₂ hb j => ?_
    cases Option.some.inj hb
    exact kept_setFile id j

end Requests

section Main

variable {θ : Type} [DecidableEq θ] {p : Pool Fault ExtentId (Sys τ) Request Unit θ}

/-- What the server and the clients can get to. -/
def Reached (L : InodeLayer τ) (running : String → Bool) (W : Prop) :
    Pool Fault ExtentId (Sys τ) Request Unit θ → Prop :=
  Reachable (Pool.Init Start) (Pool.Step (service L running W) (May running W))

/-- Whoever the server calls back is live, for every request that may come in this state:
no other request for that extent is under way. -/
def Safe (running : String → Bool) (W : Prop) (p : Pool Fault ExtentId (Sys τ) Request Unit θ) :
    Prop :=
  (∀ req o id, May running W req p.log → (W → req.Cond p.state) →
    req.target p.state = some (o, id) → p.owner id = none → Live running p.state o id) ∧
  ∀ t req e, p.thread t ≠ some (req, .fail e)

/-- The one called back is the owner, and not the empty string if the condition is met. -/
theorem Request.target_eq {s : Sys τ} {req : Request} {o : String} {id : ExtentId}
    (h : req.target s = some (o, id)) :
    s.fileManger id = some o ∧ (req.Cond s → o ≠ "") := by
  have hfound : ∀ {clt : String} {i : ExtentId},
      (match s.fileManger (Server.mask i) with
        | some o => if o ≠ clt then some (o, Server.mask i) else none
        | none => none) = some (o, id) →
      s.fileManger id = some o ∧ (s.fileManger (Server.mask i) ≠ some "" → o ≠ "") := by
    intro clt i h
    split at h
    case h_1 o' ho' =>
      split at h
      case isTrue =>
        cases h
        refine ⟨ho', ?_⟩
        rintro hne rfl
        exact hne ho'
      case isFalse => cases h
    case h_2 => cases h
  cases req with
  | get clt i => exact hfound h
  | getattr clt i => exact hfound h
  | remove clt i => exact hfound h
  | create clt ty => cases h
  | put clt i buf => cases h
  | store clt i f => cases h

/-- Requests change nothing of the (trivial) values. -/
theorem runs_there {log : List (Request × Unit)} {g : ExtentId → Option Unit}
    (h : (service L running W).Runs (fun _ => some ()) log g) (id : ExtentId) : g id = some () := by
  induction h with
  | nil => rfl
  | snoc _ hc ih =>
    cases hc
    exact ih

/-- **Callback targets are live, on runs that meet the condition**: if no request is made for
an extent that was removed, then in every reachable state whoever the server calls back
runs and has an entry for the extent, and no handler has run into a null pointer. -/
theorem callback_live (h : Reached L running True p) : Safe running True p := by
  have hmay : ∀ req log g s, (service L running True).Runs (fun _ => some ()) log g →
      May running True req log → Holds (extents τ running) (service L running True) (fun _ => ())
        req (req.prog L running) ∅ s g := by
    rintro req log g s hruns ⟨hr, hlt⟩
    exact holds_request hr (hlt trivial) (runs_there hruns)
  have hinit : ∀ s : Sys τ, Start s → (∀ i, (extents τ running).always i s) ∧
      ∀ i v, (fun _ => some () : ExtentId → Option Unit) i = some v →
        ¬ (extents τ running).free i s ∧ (extents τ running).obj i v s := by
    rintro s ⟨hown, -⟩
    refine ⟨fun _ => trivial, fun i v _ => ⟨not_false, fun o ho => ?_⟩⟩
    exact absurd ((hown i).symm.trans ho) nofun
  obtain ⟨⟨g, hruns, hobj⟩, -, hfault⟩ := Pool.linearized hmay hinit h
  refine ⟨fun req o id _ hcond ht hfree => ?_, fun t req e hth => hfault t req e hth⟩
  obtain ⟨ho, hne⟩ := req.target_eq ht
  exact (hobj id () (runs_there hruns id) hfree o ho).resolve_left (hne (hcond trivial))

end Main

/-! ## An extent that was removed -/

/-- The server with the root directory, and no request yet. -/
def fresh : Pool Fault ExtentId (Sys Memory) Request Unit Unit where
  state := Extent.fresh.state
  owner _ := none
  thread _ := none
  log := []

theorem fresh_init : Pool.Init Start fresh :=
  ⟨Extent.fresh_init.1, fun _ => rfl, fun _ => rfl, rfl⟩

/-- Only client `A` runs. -/
def onlyA (clt : String) : Bool := clt = "A"

/-- `A` creates extent 5 and removes it: whoever asks for it then makes the server call back
the empty string. -/
theorem removed_target : ∃ p : Pool Fault ExtentId (Sys Memory) Request Unit Unit,
    Reached memory onlyA False p ∧ ¬ Safe onlyA False p := by
  have hrun : (Pool.script (service memory onlyA False) (fun req _ => onlyA req.client)
      (fun _ _ _ => true) 100 () [.create "A" 2, .remove "A" 5] fresh).map
        (fun p => ((Request.get "A" 5).target p.state, p.owner 5)) = some (some ("", 5), none) := by
    decide +kernel
  have hmay : ∀ (req : Request) (log : List (Request × Unit)), onlyA req.client →
      May onlyA False req log := fun _ _ h => ⟨h, False.elim⟩
  obtain ⟨p, hp, hobs⟩ :=
    Pool.reachable_script hmay (fun _ _ _ _ h => h.elim) (.start fresh_init) hrun
  obtain ⟨ht, hfree⟩ := Prod.mk.inj hobs
  refine ⟨p, hp, fun hsafe => ?_⟩
  have hlive := hsafe.1 (.get "A" 5) "" 5 ⟨by decide, False.elim⟩ False.elim ht hfree
  exact absurd hlive.1 (by decide)

/-- Without a removal the owner is called back, and is live: `A` has read extent 5. -/
theorem callback_live_get : ∃ p : Pool Fault ExtentId (Sys Memory) Request Unit Unit,
    Reached memory (fun _ => true) True p ∧ (Request.get "B" 5).target p.state = some ("A", 5) ∧
      Live (fun _ => true) p.state "A" 5 := by
  have hmay : ∀ (req : Request) (log : List (Request × Unit)),
      (req.asks.all fun id => id.toNat < 2 ^ 31) → May (fun _ => true) True req log := by
    intro req log h
    refine ⟨rfl, fun _ id hid => ?_⟩
    rw [hid] at h
    exact of_decide_eq_true h
  have hrun : (Pool.script (service memory (fun _ => true) True)
      (fun req _ => req.asks.all fun id => id.toNat < 2 ^ 31)
        (fun req _ s => decide (req.Cond s)) 100
      () [.create "A" 2, .get "A" 5] fresh).map
        (fun p => ((Request.get "B" 5).target p.state, p.owner 5)) =
          some (some ("A", 5), none) := by
    decide +kernel
  obtain ⟨p, hp, hobs⟩ :=
    Pool.reachable_script hmay (fun _ _ _ h _ => of_decide_eq_true h) (.start fresh_init) hrun
  obtain ⟨ht, hfree⟩ := Prod.mk.inj hobs
  refine ⟨p, hp, ht, (callback_live hp).1 (.get "B" 5) "A" 5 (hmay _ _ rfl) (fun _ => ?_) ht hfree⟩
  show p.state.fileManger 5 ≠ some ""
  rw [(Request.target_eq ht).1]
  decide

end Yfs.Extent.Callbacks
