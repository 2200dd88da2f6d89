import Mathlib.Data.Multiset.Count
import Mathlib.Logic.Function.Basic
import Yfs.Lib.Monitor
import Yfs.Lock.Protocol

/-!
# The lock server without caching

`lock_server`: one map of locks under one mutex, and a condition for each lock at which both
handlers wait. It is a `Monitor` whose calls are the requests.

Its clients are any that release only what they got: a client has sent fewer releases of a lock
than it has seen acquires of it return (`mayCall`). Then each lock goes from one client to the
next (`Plain.locks_change_hands`): an acquire returns only when nobody holds the lock, a release is
never kept waiting, and no acquire sleeps on a lock that is free, although a release wakes one
sleeper only.
-/

namespace Yfs.Lock.Plain

open Monitor (times times_snoc pending_call pending_wake)

def LOCKED : Bool := false
def FREE : Bool := true

/-- `lock_data`; the condition is where a request waits. -/
structure LockData where
  lock : Bool
  cltId : ℤ
  deriving DecidableEq, Repr

/-- `lock_server` and `lock_map`. -/
structure Server where
  nacquire : ℤ := 0
  lockMap : LockId → Option LockData := fun _ => none

inductive Call where
  | stat (clt : ℤ) (lid : LockId)
  | acquire (clt : ℤ) (lid : LockId)
  | release (clt : ℤ) (lid : LockId)
  deriving DecidableEq, Repr

/-- The handlers return `OK`; `stat` also sets `r`. -/
inductive Reply where
  | ok
  | stat (r : ℤ)
  deriving DecidableEq, Repr

/-- `lock_map[lid] = d`. -/
def Server.set (s : Server) (lid : LockId) (d : LockData) : Server :=
  { s with lockMap := Function.update s.lockMap lid (some d) }

@[simp] theorem Server.set_self (s : Server) (lid : LockId) (d : LockData) :
    (s.set lid d).lockMap lid = some d := Function.update_self ..

theorem Server.set_of_ne (s : Server) {lid lid' : LockId} (d : LockData) (h : lid' ≠ lid) :
    (s.set lid d).lockMap lid' = s.lockMap lid' := Function.update_of_ne h ..

/-- `lock_server::stat`. -/
def stat (s : Server) (_clt : ℤ) (_lid : LockId) : Turn Server LockId Reply :=
  .done (.stat s.nacquire) s none

/-- `lock_server::acquire`. -/
def acquire (s : Server) (clt : ℤ) (lid : LockId) : Turn Server LockId Reply :=
  match s.lockMap lid with
  | some d =>
    if d.lock = FREE then .done .ok (s.set lid ⟨LOCKED, clt⟩) none
    else .wait lid s
  | none => .done .ok (s.set lid ⟨LOCKED, clt⟩) none

/-- `lock_server::release`. `lock_map[lid]` makes an entry of zeros if there is none. -/
def release (s : Server) (clt : ℤ) (lid : LockId) : Turn Server LockId Reply :=
  let d := (s.lockMap lid).getD ⟨LOCKED, 0⟩
  if d.cltId ≠ clt ∨ d.lock = FREE then .wait lid (s.set lid d)
  else .done .ok (s.set lid { d with lock := FREE }) (some lid)

/-- The three handlers. -/
def server : Monitor Server LockId Call Reply where
  turn s
    | .stat clt lid => stat s clt lid
    | .acquire clt lid => acquire s clt lid
    | .release clt lid => release s clt lid

/-- Who has the lock by this entry. -/
def LockData.owner (d : LockData) : Option ℤ := if d.lock = FREE then none else some d.cltId

/-- Who has the lock. -/
def Server.owner (s : Server) (lid : LockId) : Option ℤ := (s.lockMap lid).bind LockData.owner

theorem Server.owner_set (s : Server) (lid : LockId) (d : LockData) :
    (s.set lid d).owner = Function.update s.owner lid d.owner := by
  funext lid'
  by_cases h : lid' = lid
  · subst h
    simp [owner]
  · rw [Function.update_of_ne h, owner, Server.set_of_ne _ _ h, owner]

/-- `acquire` takes a lock that nobody has, and waits for any other. -/
theorem acquire_eq (s : Server) (clt : ℤ) (lid : LockId) :
    acquire s clt lid =
      if s.owner lid = none then .done .ok (s.set lid ⟨LOCKED, clt⟩) none else .wait lid s := by
  rw [acquire, Server.owner]
  cases s.lockMap lid with
  | none => rfl
  | some d =>
    show _ = if d.owner = none then _ else _
    rw [LockData.owner]
    by_cases h : d.lock = FREE
    · simp [h]
    · simp [h]

/-- `release` by the client that has the lock frees it. -/
theorem release_eq {s : Server} {clt : ℤ} {lid : LockId} (h : s.owner lid = some clt) :
    release s clt lid = .done .ok (s.set lid ⟨FREE, clt⟩) (some lid) := by
  rw [Server.owner, Option.bind_eq_some_iff] at h
  obtain ⟨d, hd, hown⟩ := h
  rw [LockData.owner] at hown
  split at hown
  case isTrue => cases hown
  case isFalse hlock =>
    cases hown
    simp [release, hd, hlock]

/-! ## Who holds a lock, by the requests that have returned -/

/-- Who holds the lock after one more request. -/
def Call.next (lid : LockId) (h : Option ℤ) : Call → Option ℤ
  | .stat _ _ => h
  | .acquire clt l => if l = lid then some clt else h
  | .release _ l => if l = lid then none else h

/-- The client whose acquire of the lock has returned and whose release has not. -/
def holder (lid : LockId) (l : List (Call × Reply)) : Option ℤ :=
  l.foldl (fun h x => x.1.next lid h) none

theorem holder_snoc (lid : LockId) (l : List (Call × Reply)) (c : Call) (r : Reply) :
    holder lid (l ++ [(c, r)]) = c.next lid (holder lid l) := by
  rw [holder, List.foldl_append]
  rfl

/-- A state of the server and its requests. -/
abbrev State := Monitor.State Server LockId Call Reply

/-- A client may release a lock once for each acquire of it that has returned. -/
def mayCall (S : State) : Call → Prop
  | .release clt lid =>
    times (.release clt lid) S.log + S.pending (.release clt lid) <
      times (.acquire clt lid) S.log
  | _ => True

/-- **What holds of the locks**: the entries say who holds them, each acquire that returned has
been released but for the holder's last one, and there are no releases in excess of them. -/
structure Kept (S : State) : Prop where
  owner : ∀ lid, S.data.owner lid = holder lid S.log
  held : ∀ clt lid, times (.acquire clt lid) S.log =
    times (.release clt lid) S.log + if holder lid S.log = some clt then 1 else 0
  right : ∀ clt lid, times (.release clt lid) S.log + S.pending (.release clt lid) ≤
    times (.acquire clt lid) S.log

/-- A release that is under way comes from the client that has the lock. -/
theorem Kept.owner_of_pending {S : State} (h : Kept S) {clt : ℤ} {lid : LockId}
    (hp : 0 < S.pending (.release clt lid)) : S.data.owner lid = some clt := by
  have hheld := h.held clt lid
  have hright := h.right clt lid
  rw [h.owner]
  by_contra hne
  rw [if_neg hne] at hheld
  omega

/-- What the server finds when it turns to a request. -/
def fits (s : Server) : Call → Prop
  | .release clt lid => s.owner lid = some clt
  | _ => True

theorem Kept.fits_of_mem {S : State} (h : Kept S) {c : Call} (hc : c ∈ S.ready) :
    fits S.data c := by
  cases c with
  | stat clt lid => trivial
  | acquire clt lid => trivial
  | release clt lid =>
    apply h.owner_of_pending
    have := Multiset.count_pos.mpr hc
    exact Nat.add_pos_left this _

/-- A request that waits is an acquire of a lock that somebody has. -/
theorem turn_wait {s s' : Server} {c : Call} {k : LockId} (hfit : fits s c)
    (h : server.turn s c = .wait k s') :
    s' = s ∧ (∃ clt, c = .acquire clt k) ∧ s.owner k ≠ none := by
  cases c with
  | stat clt lid => cases h
  | acquire clt lid =>
    have h' : acquire s clt lid = .wait k s' := h
    rw [acquire_eq] at h'
    split at h'
    case isTrue => cases h'
    case isFalse howner =>
      cases h'
      exact ⟨rfl, ⟨clt, rfl⟩, howner⟩
  | release clt lid =>
    have h' : release s clt lid = .wait k s' := h
    rw [release_eq hfit] at h'
    cases h'

/-- A request that returns: what it found, and whose the locks are then. -/
theorem turn_done {s s' : Server} {c : Call} {r : Reply} {sig : Option LockId} (hfit : fits s c)
    (h : server.turn s c = .done r s' sig) :
    (∀ lid, s'.owner lid = c.next lid (s.owner lid)) ∧
      ((∃ clt lid, c = .stat clt lid ∧ sig = none) ∨
        (∃ clt lid, c = .acquire clt lid ∧ s.owner lid = none ∧ sig = none) ∨
        ∃ clt lid, c = .release clt lid ∧ s.owner lid = some clt ∧ sig = some lid) := by
  cases c with
  | stat clt lid =>
    cases h
    exact ⟨fun _ => rfl, .inl ⟨clt, lid, rfl, rfl⟩⟩
  | acquire clt lid =>
    have h' : acquire s clt lid = .done r s' sig := h
    rw [acquire_eq] at h'
    split at h'
    case isFalse => cases h'
    case isTrue howner =>
      cases h'
      refine ⟨fun lid' => ?_, .inr (.inl ⟨clt, lid, rfl, howner, rfl⟩)⟩
      rw [Server.owner_set, Function.update_apply]
      simp only [Call.next, eq_comm (a := lid')]
      rfl
  | release clt lid =>
    have h' : release s clt lid = .done r s' sig := h
    rw [release_eq hfit] at h'
    cases h'
    refine ⟨fun lid' => ?_, .inr (.inr ⟨clt, lid, rfl, hfit, rfl⟩)⟩
    rw [Server.owner_set, Function.update_apply]
    simp only [Call.next, eq_comm (a := lid')]
    rfl

/-- A request that returns keeps the books. -/
theorem Kept.snoc {S : State} (h : Kept S) {s' : Server} {c : Call} {r : Reply}
    {sig : Option LockId} (hfit : fits S.data c) (hturn : server.turn S.data c = .done r s' sig) :
    (∀ lid, s'.owner lid = holder lid (S.log ++ [(c, r)])) ∧
      ∀ clt lid, times (.acquire clt lid) (S.log ++ [(c, r)]) =
        times (.release clt lid) (S.log ++ [(c, r)]) +
          if holder lid (S.log ++ [(c, r)]) = some clt then 1 else 0 := by
  obtain ⟨howner, hc⟩ := turn_done hfit hturn
  constructor
  · intro lid
    rw [howner, holder_snoc, h.owner]
  · intro clt' lid'
    have hheld := h.held clt' lid'
    rw [times_snoc, times_snoc, holder_snoc]
    obtain ⟨clt, lid, rfl, -⟩ | ⟨clt, lid, rfl, hnone, -⟩ | ⟨clt, lid, rfl, hsome, -⟩ := hc
    · rw [if_neg (by simp), if_neg (by simp)]
      exact hheld
    · -- nobody had the lock, so every acquire of it had been released
      by_cases hlid : lid = lid'
      · subst hlid
        rw [h.owner] at hnone
        rw [hnone, if_neg (by simp)] at hheld
        simp [Call.next, hheld]
      · simpa [Call.next, hlid] using hheld
    · by_cases hlid : lid = lid'
      · subst hlid
        rw [h.owner] at hsome
        rw [hsome] at hheld
        simpa [Call.next] using hheld
      · simpa [Call.next, hlid] using hheld

theorem kept {S : State} (h : server.Reach mayCall {} S) : Kept S := by
  induction h with
  | start h =>
    subst h
    exact ⟨fun _ => rfl, fun _ _ => rfl, fun _ _ => le_rfl⟩
  | @next S S' hS hstep ih =>
    cases hstep with
    | @call _ c hmay =>
      refine ⟨ih.owner, ih.held, fun clt lid => ?_⟩
      rw [pending_call]
      have hright := ih.right clt lid
      by_cases hc : c = .release clt lid
      · subst hc
        rw [if_pos rfl]
        exact hmay
      · rw [if_neg hc]
        exact hright
    | act hact =>
      have hright : ∀ clt lid, times (.release clt lid) S'.log + S'.pending (.release clt lid) ≤
          times (.acquire clt lid) S'.log := by
        intro clt lid
        rw [hact.times_add_pending]
        exact (ih.right clt lid).trans (hact.times_le _)
      cases hact with
      | @sleep s s' c k R A l hturn =>
        have hfit : fits s c := ih.fits_of_mem (Multiset.mem_cons_self _ _)
        obtain ⟨rfl, -⟩ := turn_wait hfit hturn
        exact ⟨ih.owner, ih.held, hright⟩
      | @done s s' c r sig R R' A A' l hturn hsig =>
        have hfit : fits s c := ih.fits_of_mem (Multiset.mem_cons_self _ _)
        obtain ⟨howner, hheld⟩ := ih.snoc hfit hturn
        exact ⟨howner, hheld, hright⟩
    | @spurious s c k R A l =>
      refine ⟨ih.owner, ih.held, fun clt lid => ?_⟩
      rw [pending_wake s k _ c R A l]
      exact ih.right clt lid

/-- A lock that nobody has is room for one acquire. -/
def rooms : server.Rooms fits where
  room lid s := if s.owner lid = none then 1 else 0
  place
    | .acquire _ lid => some lid
    | _ => none
  wait := by
    intro s s' c k hfit h
    obtain ⟨rfl, ⟨clt, rfl⟩, howner⟩ := turn_wait hfit h
    exact ⟨rfl, if_neg howner, fun _ => le_rfl⟩
  done := by
    intro s s' c r sig hfit h k
    obtain ⟨howner, ⟨clt, lid, rfl, rfl⟩ | ⟨clt, lid, rfl, hnone, rfl⟩ |
      ⟨clt, lid, rfl, hsome, rfl⟩⟩ := turn_done hfit h
    · rw [howner]
      exact ⟨(nomatch ·), Nat.le_add_right _ _⟩
    · rw [howner]
      by_cases hk : lid = k
      · subst hk
        simp [Call.next, hnone]
      · simp [Call.next, hk]
    · rw [howner]
      refine ⟨(nomatch ·), ?_⟩
      by_cases hk : lid = k
      · subst hk
        simp [Call.next]
      · simp [Call.next, hk]

/-- **The locks go from one client to the next**, for any number of requests in any order. An
acquire returns when nobody holds the lock, a release when its client does; only acquires ever
wait, and when the server is at rest each of them waits for a client that holds the lock; and
the server comes to rest. -/
theorem locks_change_hands {S : State} (h : server.Reach mayCall {} S) :
    (∀ pre clt lid r post, S.log = pre ++ (.acquire clt lid, r) :: post →
      holder lid pre = none) ∧
    (∀ pre clt lid r post, S.log = pre ++ (.release clt lid, r) :: post →
      holder lid pre = some clt) ∧
    (∀ k c, (k, c) ∈ S.asleep → ∃ clt, c = .acquire clt k) ∧
    (S.ready = 0 → ∀ k c, (k, c) ∈ S.asleep → ∃ clt, holder k S.log = some clt) ∧
    (∀ n S', server.Run n S S' → n ≤ S.work ∧ (S'.ready = 0 ∨ ∃ S'', server.Acts S' S'')) := by
  have hfits : ∀ S, server.Reach mayCall {} S → ∀ c ∈ S.ready, fits S.data c :=
    fun S hS c hc => (kept hS).fits_of_mem hc
  refine ⟨?_, ?_, ?_, ?_, fun n S' => Monitor.comes_to_rest⟩
  · intro pre clt lid r post hl
    obtain ⟨S₁, s₂, sig, hS₁, rfl, hmem, hturn⟩ := h.returned hl
    rw [← (kept hS₁).owner]
    have hturn' : acquire S₁.data clt lid = .done r s₂ sig := hturn
    rw [acquire_eq] at hturn'
    by_contra hne
    rw [if_neg hne] at hturn'
    cases hturn'
  · intro pre clt lid r post hl
    obtain ⟨S₁, s₂, sig, hS₁, rfl, hmem, hturn⟩ := h.returned hl
    rw [← (kept hS₁).owner]
    exact (kept hS₁).fits_of_mem hmem
  · intro k c hc
    have hplace := (Monitor.attended rooms hfits h).place k c hc
    cases c with
    | stat clt lid => cases hplace
    | acquire clt lid =>
      cases hplace
      exact ⟨clt, rfl⟩
    | release clt lid => cases hplace
  · intro hrest k c hc
    obtain ⟨-, hroom⟩ := Monitor.room_eq_zero rooms hfits h hrest hc
    rw [← (kept h).owner]
    replace hroom : (if S.data.owner k = none then 1 else 0) = 0 := hroom
    exact Option.ne_none_iff_exists'.mp fun hnone => by simp [hnone] at hroom

/-- A client that got lock 5, and another that waits for it. -/
def contended : State :=
  ⟨({} : Server).set 5 ⟨LOCKED, 1⟩, 0, {(5, .acquire 2 5)}, [(.acquire 1 5, .ok)]⟩

theorem reach_contended : server.Reach mayCall {} contended := by
  have h₁ : server.Reach mayCall {} ⟨{}, {.acquire 1 5}, 0, []⟩ :=
    .next (.start rfl) (.call trivial)
  have h₂ : server.Reach mayCall {}
      ⟨({} : Server).set 5 ⟨LOCKED, 1⟩, 0, 0, [(.acquire 1 5, .ok)]⟩ :=
    h₁.next (.act (.done rfl .none))
  have h₃ : server.Reach mayCall {}
      ⟨({} : Server).set 5 ⟨LOCKED, 1⟩, {.acquire 2 5}, 0, [(.acquire 1 5, .ok)]⟩ :=
    h₂.next (.call trivial)
  exact h₃.next (.act (.sleep (by simp [server, acquire, LOCKED, FREE])))

theorem locks_change_hands_contended : ∃ clt, holder 5 contended.log = some clt := by
  obtain ⟨-, -, -, hrest, -⟩ := locks_change_hands reach_contended
  exact hrest rfl 5 (.acquire 2 5) (Multiset.mem_singleton_self _)

end Yfs.Lock.Plain
