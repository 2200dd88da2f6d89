import Yfs.Extent.Coherence
import Yfs.Fs.Ops

/-!
# Coherence of the write-back cache

Any number of clients that call `create`, `get`, `put` and `getattr`, each call on an
extent under the lock of that extent, and `setattr` of the file system on top of them. In
every reachable state:

- only the owner of an extent has data of it, and a `get` returns what the last `put`
  wrote (`coherent`);
- if every `put` meets `PutCond`, then the size in the attributes is the length of the
  content, and `setattr` resizes as it should (`attributes_coherent`); without the condition
  a cached size can be stale (`stale_size`).
-/

namespace Yfs.Extent

variable {τ : Type} {L : InodeLayer τ} {M : LawfulInodes L} {running : String → Bool} {W : Prop}

/-- The calls, with the client that makes them. -/
inductive Call where
  | create (c : String) (type : UInt32)
  | get (c : String) (id : ExtentId)
  | put (c : String) (id : ExtentId) (buf : Bytes)
  | getattr (c : String) (id : ExtentId)
  | setattr (c : String) (ino : ExtentId) (size : UInt64)
  deriving DecidableEq, Repr

/-- Their results. -/
inductive Result where
  | created (ret : Status) (id : ExtentId)
  | data (ret : Status) (buf : Bytes)
  | attr (ret : Status) (a : Attr)
  | done (ret : Status)
  | resized (r : Fs.Status)
  deriving DecidableEq, Repr

/-- The client that makes a call. -/
def Call.client : Call → String
  | .create c _ | .get c _ | .put c _ _ | .getattr c _ | .setattr c _ _ => c

/-- The extent a call is on. -/
def Call.id? : Call → Option ExtentId
  | .create _ _ => none
  | .get _ id | .put _ id _ | .getattr _ id | .setattr _ id _ => some id

/-- The code of a call: under the lock of its extent. -/
def Call.prog (L : InodeLayer τ) (running : String → Bool) :
    Call → Prog Fault ExtentId (Sys τ) Result
  | .create c type => do
    let (ret, id) ← Client.create (Sys.host c) (Sys.calls L running) type 0
    pure (.created ret id)
  | .get c id => do
    .lock id
    let (ret, buf) ← Client.get (Sys.host c) (Sys.calls L running) id []
    .unlock id
    pure (.data ret buf)
  | .put c id buf => do
    .lock id
    let ret ← Client.put (Sys.host c) (Sys.calls L running) id buf
    .unlock id
    pure (.done ret)
  | .getattr c id => do
    .lock id
    let (ret, a) ← Client.getattr (Sys.host c) (Sys.calls L running) id {}
    .unlock id
    pure (.attr ret a)
  | .setattr c ino size => do
    let r ← Fs.setattr (Client.ec (Sys.host c) (Sys.calls L running)) ino size
    pure (.resized r)

/-- The first `n` bytes, padded with zeros. -/
def fit (v : Bytes) (n : ℕ) : Bytes := v.take n ++ List.replicate (n - v.length) 0

/-- What a call does to the contents. -/
def Call.commit (W : Prop) : Call → Result → (ExtentId → Option Bytes) →
    (ExtentId → Option Bytes) → Prop
  | .create _ _, .created ret id, g, g' =>
    ret = OK ∧ g id = none ∧ g' = Function.update g id (some [])
  | .get _ id, .data ret buf, g, g' => ret = OK ∧ g id = some buf ∧ g' = g
  | .put _ id buf, .done ret, g, g' => ret = OK ∧ g' = Function.update g id (some buf)
  | .getattr _ id, .attr ret a, g, g' =>
    ret = OK ∧ g' = g ∧ ∃ v, g id = some v ∧ (W → a.size.toNat = v.length)
  | .setattr _ ino size, .resized r, g, g' =>
    W ∧ r = .ok ∧ ∃ v, g ino = some v ∧ g' = Function.update g ino (some (fit v size.toNat))
  | _, _, _, _ => False

/-- The condition under which no cached size becomes stale, when a call gets its lock. A
`setattr` that changes the size writes, and must be able to fill the gap. -/
def Call.Cond (M : LawfulInodes L) : Call → ExtentId → Sys τ → Prop
  | .put c _ buf, id, s => PutCond c buf.length (s.slice M id)
  | .setattr c _ size, id, s => ∀ v, (s.slice M id).Value v → size.toNat = v.length ∨
      PutCond c size.toNat (s.slice M id) ∧ size.toNat < v.length + 2 ^ 31
  | _, _, _ => True

/-- The calls as a service on the contents of extents. -/
def service (M : LawfulInodes L) (running : String → Bool) (W : Prop) :
    Service Fault ExtentId Bytes (Sys τ) Call Result where
  prog := Call.prog L running
  commit := Call.commit W
  cond c id s := W → c.Cond M id s

/-- The calls that may be made: by a client that runs, on an extent that a `create` has
returned. `setattr` only if sizes are looked after. -/
def May (running : String → Bool) (W : Prop) (c : Call) (log : List (Call × Result)) : Prop :=
  running c.client = true ∧
    (∀ id, c.id? = some id → ∃ c' ty, (Call.create c' ty, Result.created OK id) ∈ log) ∧
    ((∃ x ino n, c = .setattr x ino n) → W)

/-- The server has just started, and so have the clients. -/
def Start (s : Sys τ) : Prop :=
  (∀ id, s.fileManger id = none) ∧ (∀ c id, s.cache c id = none)

/-- The extents, with their contents. -/
def extents (M : LawfulInodes L) (running : String → Bool) (W : Prop) :
    Objects ExtentId Bytes (Sys τ) :=
  objects M True fun i v sl => i.toNat < 2 ^ 31 ∧ ∃ ty, Idle running W ty v sl

/-! ## Every call keeps to its extent -/

section Calls

variable {s : Sys τ} {g : ExtentId → Option Bytes} {call : Call} {c : String} {id : ExtentId}
  {ty : Int16} {v : Bytes}

/-- A call takes its lock. -/
theorem holds_acquire {k : Prog Fault ExtentId (Sys τ) Result} (hg : g id ≠ none)
    (h : ∀ s₁ g₁ ty v, g₁ id = some v → id.toNat < 2 ^ 31 → Idle running W ty v (s₁.slice M id) →
      (W → call.Cond M id s₁) →
      Holds (extents M running W) (service M running W) (fun _ => ()) call k {id} s₁ g₁) :
    Holds (extents M running W) (service M running W) (fun _ => ()) call (.acquire id k) ∅ s g := by
  intro s₁ g₁ hr
  obtain ⟨v₀, hv₀⟩ := Option.ne_none_iff_exists'.mp hg
  obtain ⟨v, hv, -⟩ := hr.grows id v₀ hv₀
  refine ⟨Set.notMem_empty id, v, hv, fun ⟨hlt, ty, hidle⟩ hcond => ?_⟩
  rw [insert_empty_eq]
  exact h s₁ g₁ ty v hv hlt hidle hcond

/-- A call gives up its lock, and has made `v` the content. -/
theorem holds_release {r : Result} (hg : g id ≠ none) (hlt : id.toNat < 2 ^ 31)
    (hidle : Idle running W ty v (s.slice M id))
    (hcommit : ∀ g₁, g₁ id = g id → call.commit W r g₁ (Function.update g₁ id (some v))) :
    Holds (extents M running W) (service M running W) (fun _ => ()) call (.release id (.ret r)) {id}
      s g := by
  intro s₁ g₁ hr
  have hself := hr.value id (Set.mem_singleton id)
  refine ⟨Set.mem_singleton id, Function.update g₁ id (some v), hcommit g₁ hself, ?_, ?_, ?_⟩
  · intro j w hj
    by_cases hji : j = id
    · exact ⟨v, by rw [hji, Function.update_self], rfl⟩
    · exact ⟨w, by rwa [Function.update_of_ne hji], rfl⟩
  · exact fun j hj => Function.update_of_ne hj _ _
  · rintro j rfl
    refine ⟨v, Function.update_self .., hlt, ty, ?_⟩
    rwa [hr.same j (Set.mem_singleton j)]

theorem holds_get {k : Status × Bytes → Prog Fault ExtentId (Sys τ) Result} {buf : Bytes}
    (hr : running c = true) (hlt : id.toNat < 2 ^ 31) (hidle : Idle running W ty v (s.slice M id))
    (h : ∀ s' g', Idle running W ty v (s'.slice M id) → (s.slice M id).Others c (s'.slice M id) →
      g' id = g id →
      Holds (extents M running W) (service M running W) (fun _ => ()) call (k (OK, v)) {id} s' g') :
    Holds (extents M running W) (service M running W) (fun _ => ()) call
      (Client.get (Sys.host c) (Sys.calls L running) id buf >>= k) {id} s g := by
  refine Holds.bind ?_
  rw [← bind_pure (Client.get _ _ _ _)]
  refine seg_get (Set.mem_singleton id) hlt rfl hidle hr
    (fun _ _ _ => trivial) fun s' sl' hs' hhas hoth g' _ hg' _ => ?_
  subst hs'
  exact h s' g' hhas.idle hoth (hg' id (Set.mem_singleton id))

theorem holds_put {k : Status → Prog Fault ExtentId (Sys τ) Result} {buf : Bytes}
    (hr : running c = true) (hlt : id.toNat < 2 ^ 31) (hidle : Idle running W ty v (s.slice M id))
    (hcond : W → PutCond c buf.length (s.slice M id))
    (h : ∀ s' g', Idle running W ty buf (s'.slice M id) → g' id = g id →
      Holds (extents M running W) (service M running W) (fun _ => ()) call (k OK) {id} s' g') :
    Holds (extents M running W) (service M running W) (fun _ => ()) call
      (Client.put (Sys.host c) (Sys.calls L running) id buf >>= k) {id} s g := by
  refine Holds.bind ?_
  rw [← bind_pure (Client.put _ _ _ _)]
  refine seg_put (Set.mem_singleton id) hlt rfl hidle hr
    (fun _ _ _ => trivial) hcond fun s' sl' hs' hidle' g' _ hg' _ => ?_
  subst hs'
  exact h s' g' hidle' (hg' id (Set.mem_singleton id))

theorem holds_getattr {k : Status × Attr → Prog Fault ExtentId (Sys τ) Result} {attr : Attr}
    (hr : running c = true) (hlt : id.toNat < 2 ^ 31) (hidle : Idle running W ty v (s.slice M id))
    (h : ∀ s' g' a, Idle running W ty v (s'.slice M id) → Right W ty v a →
      (∀ x, x ≠ c → (s'.slice M id).cache x = (s.slice M id).cache x) → g' id = g id →
      Holds (extents M running W) (service M running W) (fun _ => ()) call (k (OK, a)) {id} s' g') :
    Holds (extents M running W) (service M running W) (fun _ => ()) call
      (Client.getattr (Sys.host c) (Sys.calls L running) id attr >>= k) {id} s g := by
  refine Holds.bind ?_
  rw [← bind_pure (Client.getattr _ _ _ _)]
  refine seg_getattr_idle (Set.mem_singleton id) hlt rfl hidle hr
    fun s' sl' a hs' hidle' ha hfr g' _ hg' _ => ?_
  subst hs'
  exact h s' g' a hidle' ha hfr (hg' id (Set.mem_singleton id))

/-- What the other clients have cached does not get in the way of a `put` later in a call. -/
theorem PutCond.others {n : ℕ} {sl sl' : Slice} (h : PutCond c n sl) (ho : sl.Others c sl') :
    PutCond c n sl' := by
  refine ⟨h.1, fun x f hxc hx _ ha => ?_⟩
  obtain ⟨hx₀, hd⟩ := ho x f hxc hx ha
  exact h.2 x f hxc hx₀ hd ha

/-- With the right size, and a gap that fits into an `int`, `setattr` resizes as it should. -/
theorem resize_fit {a_size : UInt32} {size : UInt64} (ha : a_size.toNat = v.length)
    (hgap : size.toNat < v.length + 2 ^ 31) :
    Fs.resize v a_size size = .ok (fit v size.toNat) := by
  have hlt : size < a_size.toUInt64 ↔ size.toNat < v.length := by
    rw [UInt64.lt_iff_toNat_lt, UInt32.toNat_toUInt64, ha]
  unfold Fs.resize fit
  split
  case isTrue h =>
    have hs := hlt.mp h
    have hdrop : v.drop (size.toNat + v.length) = [] := List.drop_eq_nil_of_le (by omega)
    have hzero : size.toNat - v.length = 0 := by omega
    simp [Fs.erase, ha, hdrop, hzero, Nat.not_lt.mpr hs.le]
  case isFalse h =>
    have hs : v.length ≤ size.toNat := Nat.not_lt.mp fun hl => h (hlt.mpr hl)
    have hsub : (size - a_size.toUInt64).toNat = size.toNat - v.length := by
      rw [UInt64.toNat_sub_of_le _ _ (UInt64.not_lt.mp h), UInt32.toNat_toUInt64, ha]
    have hint : toInt (size - a_size.toUInt64).toNat = ((size.toNat - v.length : ℕ) : Int) := by
      rw [hsub, toInt]
      exact Int32.toInt_ofNat_of_lt (by omega)
    rw [hint, Fs.fill, if_neg (by omega)]
    simp [List.take_of_length_le hs]

theorem holds_create {ty : UInt32} :
    Holds (extents M running W) (service M running W) (fun _ => ()) (.create c ty)
      (Call.prog L running (.create c ty)) ∅ s g := by
  refine Holds.bind (p := Server.create L c ty) ?_
  rw [← bind_pure (Server.create _ _ _)]
  refine seg_server_create fun s' i _ hlt hs' g' _ _ hnew => ?_
  have hi : g' i = none := hnew i (Set.mem_insert i ∅) (Set.notMem_empty i)
  have hidle : Idle running W ty.toUInt16.toInt16 [] (s'.slice M i) := by
    rw [hs']
    exact .new
  refine ⟨Function.update g' i (some []), ⟨rfl, hi, rfl⟩, fun j w hj => ?_, fun j hj => ?_, ?_⟩
  · have hji : j ≠ i := by
      rintro rfl
      simp [hi] at hj
    exact ⟨w, by rwa [Function.update_of_ne hji], rfl⟩
  · exact Function.update_of_ne (fun hji => hj (.inl hji)) _ _
  · rintro j (rfl | hj)
    · exact ⟨[], Function.update_self .., hlt, _, hidle⟩
    · exact hj.elim

theorem holds_setattr {size : UInt64} (hW : W) (hr : running c = true) (hg : g id ≠ none) :
    Holds (extents M running W) (service M running W) (fun _ => ()) (.setattr c id size)
      (Call.prog L running (.setattr c id size)) ∅ s g := by
  simp only [Call.prog, Fs.setattr, Prog.lock_bind, Prog.acquire_bind]
  refine holds_acquire hg fun s₁ g₁ ty v hv hlt hidle hcond => ?_
  rw [bind_assoc]
  refine holds_getattr hr hlt hidle fun s₂ g₂ a hidle₂ ha hframe hg₂ => ?_
  have hsize : a.size.toUInt64 = size ↔ size.toNat = v.length := by
    rw [← UInt64.toNat_inj, UInt32.toNat_toUInt64, ha.2 hW, eq_comm]
  simp only [ne_eq, not_true_eq_false, if_false]
  by_cases hn : size.toNat = v.length
  · -- nothing to do
    rw [if_pos (hsize.mpr hn)]
    simp only [Prog.unlock_bind, Prog.release_bind, pure_bind]
    refine holds_release (by simp [hg₂, hv]) hlt hidle₂ fun g₃ hg₃ => ⟨hW, rfl, v, ?_, ?_⟩
    · rw [hg₃, hg₂, hv]
    · simp [fit, hn]
  · obtain ⟨hput, hgap⟩ := (hcond hW v hidle.value).resolve_left hn
    rw [if_neg (mt hsize.mp hn), bind_assoc]
    refine holds_get hr hlt hidle₂ fun s₃ g₃ hidle₃ hoth hg₃ => ?_
    simp only [not_true_eq_false, if_false, resize_fit (ha.2 hW) hgap, Fs.lift,
      pure_bind, bind_assoc]
    have hlen : (fit v size.toNat).length = size.toNat := by
      simp [fit]
      omega
    have hoth' : (s₁.slice M id).Others c (s₃.slice M id) := by
      intro x f hxc hx hst
      rw [← hframe x hxc]
      exact hoth x f hxc hx hst
    have hput₃ : PutCond c (fit v size.toNat).length (s₃.slice M id) := by
      rw [hlen]
      exact hput.others hoth'
    refine holds_put hr hlt hidle₃ (fun _ => hput₃) fun s₄ g₄ hidle₄ hg₄ => ?_
    simp only [not_true_eq_false, if_false, Prog.unlock_bind, Prog.release_bind, pure_bind]
    refine holds_release (by simp [hg₄, hg₃, hg₂, hv]) hlt hidle₄ fun g₅ hg₅ =>
      ⟨hW, rfl, v, ?_, rfl⟩
    rw [hg₅, hg₄, hg₃, hg₂, hv]

/-- **Every call keeps to its extent and does what it should.** -/
theorem holds_call (hr : running call.client = true) (hid : ∀ id, call.id? = some id → g id ≠ none)
    (hW : (∃ x ino n, call = .setattr x ino n) → W) :
    Holds (extents M running W) (service M running W) (fun _ => ()) call
      (call.prog L running) ∅ s g := by
  cases call with
  | create c ty => exact holds_create
  | get c id =>
    refine holds_acquire (hid id rfl) fun s₁ g₁ ty v hv hlt hidle _ => ?_
    refine holds_get hr hlt hidle fun s₂ g₂ hidle₂ _ hg₂ => ?_
    refine holds_release (by simp [hg₂, hv]) hlt hidle₂ fun g₃ hg₃ => ?_
    have hv₃ : g₃ id = some v := by rw [hg₃, hg₂, hv]
    exact ⟨rfl, hv₃, by rw [← hv₃, Function.update_eq_self]⟩
  | put c id buf =>
    refine holds_acquire (hid id rfl) fun s₁ g₁ ty v hv hlt hidle hcond => ?_
    refine holds_put hr hlt hidle hcond fun s₂ g₂ hidle₂ hg₂ => ?_
    exact holds_release (by simp [hg₂, hv]) hlt hidle₂ fun g₃ hg₃ => ⟨rfl, rfl⟩
  | getattr c id =>
    refine holds_acquire (hid id rfl) fun s₁ g₁ ty v hv hlt hidle _ => ?_
    refine holds_getattr hr hlt hidle fun s₂ g₂ a hidle₂ ha _ hg₂ => ?_
    refine holds_release (by simp [hg₂, hv]) hlt hidle₂ fun g₃ hg₃ => ?_
    have hv₃ : g₃ id = some v := by rw [hg₃, hg₂, hv]
    exact ⟨rfl, by rw [← hv₃, Function.update_eq_self], v, hv₃, ha.2⟩
  | setattr c id size => exact holds_setattr (hW ⟨c, id, size, rfl⟩) hr (hid id rfl)

end Calls

/-! ## What a history says about the contents -/

section History

variable {call : Call} {r : Result} {g g' : ExtentId → Option Bytes} {log : List (Call × Result)}
  {id : ExtentId}

/-- The last bytes put, or none. -/
def lastPut (id : ExtentId) (log : List (Call × Result)) : Bytes :=
  log.foldl (fun b x => match x.1 with
    | .put _ i buf => if i = id then buf else b
    | _ => b) []

/-- The content after a call, if it was `b` before. -/
def Call.effect (id : ExtentId) (b : Bytes) : Call → Bytes
  | .put _ i buf => if i = id then buf else b
  | .setattr _ i size => if i = id then fit b size.toNat else b
  | _ => b

/-- The last bytes put, as the `setattr`s after it have resized them. -/
def content (id : ExtentId) (log : List (Call × Result)) : Bytes :=
  log.foldl (fun b x => x.1.effect id b) []

theorem content_snoc : content id (log ++ [(call, r)]) = call.effect id (content id log) := by
  simp [content]

/-- Extents stay. -/
theorem Call.commit_grows (h : call.commit W r g g') (hg : g id ≠ none) : g' id ≠ none := by
  have hup : ∀ {i v}, Function.update g i (some v) id ≠ none := by
    intro i v
    rw [Function.update_apply]
    split <;> simp [hg]
  cases call <;> cases r <;> simp only [Call.commit] at h
  case create.created => exact h.2.2 ▸ hup
  case get.data => exact h.2.2 ▸ hg
  case put.done => exact h.2 ▸ hup
  case getattr.attr => exact h.2.1 ▸ hg
  case setattr.resized =>
    obtain ⟨-, -, v, -, rfl⟩ := h
    exact hup

/-- What was created is there. -/
theorem runs_created (h : (service M running W).Runs (fun _ => none) log g) {c : String}
    {ty : UInt32} (hc : (Call.create c ty, Result.created OK id) ∈ log) : g id ≠ none := by
  induction h with
  | nil => cases hc
  | snoc _ hcommit ih =>
    rcases List.mem_append.mp hc with hc | hc
    · exact Call.commit_grows hcommit (ih hc)
    · cases List.mem_singleton.mp hc
      obtain ⟨-, -, rfl⟩ := hcommit
      simp

/-- The contents are what the history says. -/
theorem runs_content (h : (service M running W).Runs (fun _ => none) log g) :
    (g id).getD [] = content id log := by
  induction h with
  | nil => rfl
  | @snoc log g g' c a hr hcommit ih =>
    rw [content_snoc, ← ih]
    cases c <;> cases a <;> simp only [service, Call.commit] at hcommit
    case create.created c ty ret i =>
      obtain ⟨-, hnone, rfl⟩ := hcommit
      by_cases hid : id = i
      · simp [Call.effect, hid, hnone]
      · simp [Call.effect, hid]
    case get.data =>
      obtain ⟨-, -, rfl⟩ := hcommit
      rfl
    case put.done c i buf ret =>
      obtain ⟨-, rfl⟩ := hcommit
      by_cases hid : id = i
      · simp [Call.effect, hid]
      · simp [Call.effect, hid, Ne.symm hid]
    case getattr.attr =>
      obtain ⟨-, rfl, -⟩ := hcommit
      rfl
    case setattr.resized c i size r =>
      obtain ⟨-, -, v, hv, rfl⟩ := hcommit
      by_cases hid : id = i
      · simp [Call.effect, hid, hv]
      · simp [Call.effect, hid, Ne.symm hid]

/-- Without `setattr` they are what was put last. -/
theorem runs_lastPut (h : (service M running W).Runs (fun _ => none) log g) (hW : ¬ W) :
    content id log = lastPut id log := by
  induction h with
  | nil => rfl
  | @snoc log g g' c a hr hcommit ih =>
    rw [content_snoc, ih]
    simp only [lastPut, List.foldl_append, List.foldl_cons, List.foldl_nil]
    cases c with
    | setattr c i size =>
      cases a with
      | resized r => exact absurd hcommit.1 hW
      | _ => exact hcommit.elim
    | _ => rfl

end History

section Main

/-- Threads with names in `θ` that make calls. -/
abbrev Threads (τ θ : Type) := Pool Fault ExtentId (Sys τ) Call Result θ

variable {θ : Type} [DecidableEq θ] {p : Threads τ θ}

/-- What threads can get to, step by step and in any interleaving. -/
def Reached (M : LawfulInodes L) (running : String → Bool) (W : Prop) : Threads τ θ → Prop :=
  Reachable (Pool.Init Start) (Pool.Step (service M running W) (May running W))

/-- Every reachable pool is one in which the calls took effect one at a time. -/
theorem linearized (h : Reached M running W p) :
    (∃ g, (service M running W).Runs (fun _ => none) p.log g) ∧
      (∀ id, (p.state.slice M id).Ok) ∧ ∀ t call e, p.thread t ≠ some (call, .fail e) := by
  have hmay : ∀ call log g s, (service M running W).Runs (fun _ => none) log g →
      May running W call log → Holds (extents M running W) (service M running W) (fun _ => ())
        call (call.prog L running) ∅ s g := by
    rintro call log g s hruns ⟨hr, hid, hW⟩
    refine holds_call hr (fun id hi => ?_) hW
    obtain ⟨c', ty, hmem⟩ := hid id hi
    exact runs_created hruns hmem
  have hinit : ∀ s : Sys τ, Start s → (∀ i, (extents M running W).always i s) ∧
      ∀ i v, (fun _ => none : ExtentId → Option Bytes) i = some v →
        ¬ (extents M running W).free i s ∧ (extents M running W).obj i v s := by
    rintro s ⟨hown, hcache⟩
    refine ⟨fun i => ⟨fun c f hc => ?_, fun _ => ⟨hown i, fun c => hcache c i⟩⟩, nofun⟩
    exact absurd ((hcache c i).symm.trans hc) (by simp)
  obtain ⟨⟨g, hg, -⟩, halways, hfault⟩ := Pool.linearized hmay hinit h
  exact ⟨⟨g, hg⟩, fun id => (halways id).1, fun t call e hth => hfault t call e hth⟩

/-- **Coherence of the write-back cache.** In every reachable state of any number of threads
and clients whose calls lock their extents: a client with data is the owner, and the only
one with data; every `get` that has ended returned what was put last before it; and no
handler has run into a null pointer. -/
theorem coherent (h : Reached M running False p) :
    (∀ c id f, p.state.cache c id = some f → f.data_stat = .ok →
      p.state.fileManger id = some c ∧
        ∀ c' f', p.state.cache c' id = some f' → f'.data_stat = .ok → c' = c) ∧
    (∀ pre post c id r buf, p.log = pre ++ (.get c id, .data r buf) :: post →
      r = OK ∧ buf = lastPut id pre) ∧
    (∀ t call e, p.thread t ≠ some (call, .fail e)) := by
  obtain ⟨⟨g, hg⟩, hok, hfault⟩ := linearized h
  refine ⟨fun c id f hc hf => ?_, fun pre post c id r buf hlog => ?_, hfault⟩
  · have hown := hok id c f hc hf
    refine ⟨hown, fun c' f' hc' hf' => ?_⟩
    have hown' := hok id c' f' hc' hf'
    exact Option.some.inj (hown'.symm.trans hown)
  · rw [hlog] at hg
    obtain ⟨g₁, g₂, hpre, hr, hbuf, -⟩ := hg.split
    refine ⟨hr, ?_⟩
    rw [← runs_lastPut hpre not_false, ← runs_content hpre, hbuf]
    rfl

end Main

/-! ## Runs over an inode layer in memory -/

/-- Files in memory, and the next number. -/
structure Memory where
  next : UInt32
  files : UInt32 → Option File

/-- An inode layer that hands out the numbers `inode_manager` hands out. -/
def memory : InodeLayer Memory where
  alloc_inode ty t :=
    if t.next ≠ 0 ∧ t.next.toNat ≤ 4096 ∧ t.files t.next = none then
      some (t.next, {
        next := if t.next = 1 then 5 else t.next + 8
        files := Function.update t.files t.next (some ⟨ty.toUInt16.toInt16, []⟩) })
    else none
  write_file i buf _ t := (t.files i).map fun f =>
    { t with files := Function.update t.files i (some { f with data := buf }) }
  read_file i t := (t.files i).map fun f => (f.data, t)
  getattr i t := (t.files i).map fun f =>
    ({ type := f.type.toInt32.toUInt32, size := .ofNat f.data.length }, t)
  remove_file i t := (t.files i).map fun _ => { t with files := Function.update t.files i none }

/-- It reads back what was last written. -/
def memoryLawful : LawfulInodes memory where
  files t := t.files
  alloc_ok := by
    intro ty t i t' h
    simp only [memory, Option.ite_none_right_eq_some, Option.some.injEq, Prod.mk.injEq] at h
    obtain ⟨⟨hne, hlt, hnone⟩, rfl, rfl⟩ := h
    exact ⟨by omega, hne, hnone, fun j => Function.update_apply ..⟩
  write_ok := by
    intro i f buf t t' hf h
    simp only [memory, hf, Option.map_some, Option.some.injEq] at h
    subst h
    exact fun j => Function.update_apply ..
  read_ok := by
    intro i f t b t' hf h
    simp only [memory, hf, Option.map_some, Option.some.injEq, Prod.mk.injEq] at h
    exact ⟨h.1.symm, h.2 ▸ rfl⟩
  getattr_ok := by
    intro i f t a t' hf h
    simp only [memory, hf, Option.map_some, Option.some.injEq, Prod.mk.injEq] at h
    obtain ⟨rfl, rfl⟩ := h
    exact ⟨rfl, rfl, rfl⟩
  remove_ok := by
    intro i f t t' hf h
    simp only [memory, hf, Option.map_some, Option.some.injEq] at h
    subst h
    exact fun j => Function.update_apply ..

/-- The server has the root directory, and nobody has done anything. -/
def fresh : Pool Fault ExtentId (Sys Memory) Call Result Unit where
  state := {
    im := { next := 5, files := fun i => if i = 1 then some ⟨1, []⟩ else none }
    clock := fun _ => 0
    memory := fun _ => {} }
  owner _ := none
  thread _ := none
  log := []

theorem fresh_init : Pool.Init Start fresh :=
  ⟨⟨fun _ => rfl, fun _ _ => rfl⟩, fun _ => rfl, fun _ => rfl, rfl⟩

/-- The calls on extents that were created, `setattr` apart. -/
def ok (call : Call) (log : List (Call × Result)) : Bool :=
  match call with
  | .create _ _ => true
  | .get _ id | .put _ id _ | .getattr _ id =>
    log.any fun x => match x with
      | (.create _ _, .created r i) => r = OK ∧ i = id
      | _ => false
  | .setattr _ _ _ => false

theorem may_of_ok (call : Call) (log : List (Call × Result)) (h : ok call log) :
    May (fun _ => true) W call log := by
  have hcreated : ∀ id, (log.any fun x => match x with
      | (.create _ _, .created r i) => decide (r = OK ∧ i = id)
      | _ => false) = true → ∃ c' ty, (Call.create c' ty, Result.created OK id) ∈ log := by
    intro id hany
    obtain ⟨x, hx, hm⟩ := List.any_eq_true.mp hany
    split at hm
    case h_1 c ty r i =>
      obtain ⟨rfl, rfl⟩ := of_decide_eq_true hm
      exact ⟨c, ty, hx⟩
    case h_2 => cases hm
  refine ⟨rfl, fun id hid => ?_, ?_⟩
  · cases call with
    | create => cases hid
    | get c i | put c i buf | getattr c i =>
      cases hid
      exact hcreated _ h
    | setattr => cases h
  · rintro ⟨x, ino, n, rfl⟩
    cases h

/-- Without `W` every lock comes without a condition. -/
theorem always (call : Call) (id : ExtentId) (s : Sys Memory) (_ : true) :
    (service memoryLawful (fun _ => true) False).cond call id s :=
  fun h => h.elim

/-- The lock of a `getattr` always does. -/
theorem unconditional (call : Call) (id : ExtentId) (s : Sys Memory)
    (h : call matches .getattr _ _) : (service memoryLawful (fun _ => true) W).cond call id s := by
  intro _
  cases call <;> first | exact trivial | cases h

/-- Calls made one after the other, from `p` on. -/
theorem reached_of_script {p : Threads Memory Unit} (cs : List Call) (log : List (Call × Result))
    {test : Call → ExtentId → Sys Memory → Bool}
    (hc : ∀ c i s, test c i s → (service memoryLawful (fun _ => true) W).cond c i s)
    (hp : Reached memoryLawful (fun _ => true) W p)
    (h : (Pool.script (service memoryLawful (fun _ => true) W) ok test 100 () cs p).map Pool.log =
      some log) :
    ∃ q : Threads Memory Unit, Reached memoryLawful (fun _ => true) W q ∧ q.log = log :=
  Pool.reachable_script may_of_ok hc hp h

/-- Data that was put by one client is written back and read by another. -/
theorem coherent_writeBack :
    ∃ p : Threads Memory Unit, Reached memoryLawful (fun _ => true) False p ∧
    p.log = [(.create "A" 2, .created OK 5), (.put "A" 5 [97, 98], .done OK),
      (.get "B" 5, .data OK [97, 98])] ∧
    [97, 98] = lastPut 5 [(.create "A" 2, .created OK 5), (.put "A" 5 [97, 98], .done OK)] := by
  obtain ⟨p, hp, hlog⟩ := reached_of_script (W := False)
    [.create "A" 2, .put "A" 5 [97, 98], .get "B" 5]
    [(.create "A" 2, .created OK 5), (.put "A" 5 [97, 98], .done OK),
      (.get "B" 5, .data OK [97, 98])]
    always (.start fresh_init) (by decide +kernel)
  exact ⟨p, hp, hlog, ((coherent hp).2.1 _ [] _ _ _ _ hlog).2⟩

end Yfs.Extent
