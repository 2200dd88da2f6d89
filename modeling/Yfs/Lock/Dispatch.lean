import Mathlib.Data.Fintype.Card
import Yfs.Lock.Safety

/-!
# The dispatch threads of the lock server

The service of `Lock.Safety` with a pool of `N` threads that run the server's handlers. A
request is executed only when a thread is idle, and the thread stays with the handler until
it returns: an `acquire` handler until its `revoke` call has returned, which for a lock that
is `FREE` is after the client's `release` was handled; a `release` handler until its `retry`
call has returned.

When `N` locks are revoked at once, all threads can wait for `release` requests that no
thread is left to take (`two_revocations_deadlock`). While fewer are, one always is
(`no_deadlock`).
-/

namespace Yfs.Lock

/-- The two handlers. -/
inductive Handler where
  | acquire
  | release
  deriving DecidableEq

/-- A handler at work: the lock id and the activity it is part of. -/
@[ext] structure Job where
  lid : LockId
  activity : Thread
  handler : Handler
  deriving DecidableEq

/-- The handler has been started and has not returned. -/
def Job.active (s : State) (j : Job) : Bool :=
  match j.handler with
  | .acquire =>
    match (s j.lid).pc j.activity with
    | .acquiring _ .revSend | .acquiring _ (.revReq _ _) | .acquiring _ (.revRel _ _ _) => true
    | _ => false
  | .release =>
    match ((s j.lid).pc j.activity).release? j.activity.client with
    | some (_, .retryReq _) => true
    | _ => false

/-- The handler waits for a call that comes to an end only after the server has taken
another request from its queue: the `release` of a `revoke_handler`. -/
def Job.stuck (s : State) (j : Job) : Bool :=
  match j.handler, (s j.lid).pc j.activity with
  | .acquire, .acquiring _ (.revRel _ _ .req) => true
  | _, _ => false

/-- The handler that an event starts. -/
def Sys.started (s : Sys) : Event → Option (Thread × Handler)
  | .serve a =>
    match s.pc a with
    | .acquiring _ .req => some (a, .acquire)
    | _ => some (a, .release)
  | _ => none

/-- The service, and what each of the `N` threads is at. -/
structure Pooled (N : ℕ) where
  locks : State
  worker : Fin N → Option Job

namespace Pooled

variable {N : ℕ}

/-- One step. If it starts a handler, then on the thread `w`, which must be idle. -/
def exec (s : Pooled N) (w : Fin N) (lid : LockId) (ev : Event) : Option (Pooled N) :=
  match (s.locks lid).exec ev with
  | some (.ok q) =>
    let locks := Function.update s.locks lid q
    -- a thread whose handler has returned is idle again
    let worker := fun w => (s.worker w).filter (·.active locks)
    match (s.locks lid).started ev with
    | none => some ⟨locks, worker⟩
    | some (a, h) =>
      if s.worker w = none then
        some ⟨locks, Function.update worker w ((some ⟨lid, a, h⟩).filter (·.active locks))⟩
      else none
  | _ => none

/-- No lock id was ever used, and all threads are idle. -/
def Init (s : Pooled N) : Prop := Lock.Init s.locks ∧ ∀ w, s.worker w = none

/-- One section runs, if `may` allows it. -/
def Step (may : Pooled N → Pooled N → Prop) (s s' : Pooled N) : Prop :=
  ∃ w lid ev, s.locks.MayCall ev ∧ s.exec w lid ev = some s' ∧ may s s'

/-- All threads wait for requests that are in the queue. -/
def Deadlocked (s : Pooled N) : Prop := ∀ w, ∃ j, s.worker w = some j ∧ j.stuck s.locks

/-- The server is revoking the lock. -/
def Revoking (s : Pooled N) (lid : LockId) : Prop :=
  ((s.locks lid).server.getD {}).state = .revoking

/-- A lock becomes `REVOKING` only while fewer than `N - 1` others are. -/
def Spare (s s' : Pooled N) : Prop :=
  ∀ lid, ¬ s.Revoking lid → s'.Revoking lid →
    ∃ A : Finset LockId, A.card + 1 < N ∧ ∀ l, s.Revoking l → l ∈ A

/-- What a step is made of. -/
theorem exec_cases {s s' : Pooled N} {w : Fin N} {lid : LockId} {ev : Event}
    (h : s.exec w lid ev = some s') : ∃ q, (s.locks lid).exec ev = some (.ok q) ∧
      s'.locks = Function.update s.locks lid q ∧
      (s'.worker = (fun w => (s.worker w).filter (·.active s'.locks)) ∨
        ∃ a hd, (s.locks lid).started ev = some (a, hd) ∧ s.worker w = none ∧
          s'.worker = Function.update (fun w => (s.worker w).filter (·.active s'.locks)) w
            ((some ⟨lid, a, hd⟩).filter (·.active s'.locks))) := by
  unfold exec at h
  split at h
  case h_2 => cases h
  case h_1 q hq =>
    refine ⟨q, hq, ?_⟩
    simp only at h
    split at h
    case h_1 =>
      cases h
      exact ⟨rfl, .inl rfl⟩
    case h_2 a hd hst =>
      split at h
      case isFalse => cases h
      case isTrue hw =>
        cases h
        exact ⟨rfl, .inr ⟨a, hd, hst, hw, rfl⟩⟩

/-- A handler that is started was not at work before. -/
theorem not_active_of_started {s : State} {lid : LockId} {ev : Event} {a : Thread} {hd : Handler}
    {q : Sys} (hst : (s lid).started ev = some (a, hd)) (hex : (s lid).exec ev = some (.ok q)) :
    (⟨lid, a, hd⟩ : Job).active s = false := by
  unfold Sys.started at hst
  split at hst
  case h_2 => cases hst
  case h_1 a' =>
    split at hst
    case h_1 n hpc =>
      cases hst
      simp [Job.active, hpc]
    case h_2 hpc =>
      cases hst
      have hrel : ∃ c, ((s lid).pc a).release? a.client = some (c, .req) := by
        cases hp : (s lid).pc a with
        | idle => simp [Sys.exec, hp, Pc.release?] at hex
        | waiting w n b => simp [Sys.exec, hp, Pc.release?] at hex
        | acquiring n p =>
          cases p with
          | req => exact absurd hp (hpc n)
          | revRel tgt ret p => cases p <;> simp [Sys.exec, hp, Pc.release?] at hex ⊢
          | _ => simp [Sys.exec, hp, Pc.release?] at hex
        | releasing n p => cases p <;> simp [Sys.exec, hp, Pc.release?] at hex ⊢
      obtain ⟨c, hc⟩ := hrel
      simp [Job.active, hc]

/-- What holds of the threads in every state. -/
structure Inv (s : Pooled N) : Prop where
  locks : Reachable Lock.Init Lock.Step s.locks
  active : ∀ w j, s.worker w = some j → j.active s.locks = true
  inj : ∀ w w' j, s.worker w = some j → s.worker w' = some j → w = w'
  few : ∃ A : Finset LockId, A.card < N ∧ ∀ l, s.Revoking l → l ∈ A

theorem Inv.init (hN : 0 < N) {s : Pooled N} (h : s.Init) : s.Inv where
  locks := .start h.1
  active w j hj := absurd ((h.2 w).symm.trans hj) (by simp)
  inj w w' j hj := absurd ((h.2 w).symm.trans hj) (by simp)
  few := by
    refine ⟨∅, hN, fun l hl => ?_⟩
    rw [Revoking, h.1 l] at hl
    cases hl

theorem Inv.step {s s' : Pooled N} (h : s.Inv) (hs : Step Spare s s') : s'.Inv := by
  obtain ⟨w, lid, ev, hmay, hex, hspare⟩ := hs
  obtain ⟨q, hq, hlocks, hwork⟩ := exec_cases hex
  -- the handlers that were at work, and perhaps a new one
  have hworker : ∀ x j, s'.worker x = some j → j.active s'.locks = true ∧ (s.worker x = some j ∨
      x = w ∧ s.worker w = none ∧ j.active s.locks = false) := by
    intro x j hj
    have hold : (s.worker x).filter (·.active s'.locks) = some j →
        j.active s'.locks = true ∧ s.worker x = some j := by
      intro hf
      obtain ⟨hx, ha⟩ := Option.filter_eq_some_iff.mp hf
      exact ⟨ha, hx⟩
    rcases hwork with hwork | ⟨a, hd, hst, hw, hwork⟩
    · rw [hwork] at hj
      exact (hold hj).imp id .inl
    · rw [hwork, Function.update_apply] at hj
      split at hj
      case isTrue hxw =>
        obtain ⟨hjs, ha⟩ := Option.filter_eq_some_iff.mp hj
        cases hjs
        exact ⟨ha, .inr ⟨hxw, hw, not_active_of_started hst hq⟩⟩
      case isFalse => exact (hold hj).imp id .inl
  constructor
  case locks => exact h.locks.next ⟨lid, ev, q, hmay, hq, hlocks⟩
  case active => exact fun x j hj => (hworker x j hj).1
  case inj =>
    intro x y j hx hy
    rcases (hworker x j hx).2 with hx | ⟨rfl, hxn, hxa⟩ <;>
      rcases (hworker y j hy).2 with hy | ⟨rfl, hyn, hya⟩
    · exact h.inj x y j hx hy
    · exact absurd ((h.active x j hx).symm.trans hya) (by simp)
    · exact absurd ((h.active y j hy).symm.trans hxa) (by simp)
    · rfl
  case few =>
    -- no lock but `lid` can have become `REVOKING`
    have hother : ∀ l, l ≠ lid → s'.Revoking l → s.Revoking l := by
      intro l hl hr
      rwa [Revoking, hlocks, Function.update_of_ne hl] at hr
    by_cases hnew : ¬ s.Revoking lid ∧ s'.Revoking lid
    · obtain ⟨A, hA, hall⟩ := hspare lid hnew.1 hnew.2
      refine ⟨insert lid A, Nat.lt_of_le_of_lt (Finset.card_insert_le lid A) hA, fun l hr => ?_⟩
      by_cases hl : l = lid
      · rw [hl]
        exact Finset.mem_insert_self lid A
      · exact Finset.mem_insert_of_mem (hall l (hother l hl hr))
    · obtain ⟨A, hA, hall⟩ := h.few
      refine ⟨A, hA, fun l hr => ?_⟩
      by_cases hl : l = lid
      · subst hl
        exact hall l (by_contra fun hno => hnew ⟨hno, hr⟩)
      · exact hall l (hother l hl hr)

/-- A handler that is stuck has its lock `REVOKING`, and is the only one for this lock. -/
theorem stuck_spec {s : State} (h : Reachable Lock.Init Lock.Step s) {j : Job}
    (hj : j.stuck s) : ((s j.lid).server.getD {}).state = .revoking ∧
      ∀ k : Job, k.stuck s → k.lid = j.lid → k = j := by
  have hphase : ∀ k : Job, k.stuck s → k.handler = .acquire ∧
      ∃ n tgt ret, (s k.lid).pc k.activity = .acquiring n (.revRel tgt ret .req) := by
    intro k hk
    unfold Job.stuck at hk
    split at hk
    case h_1 n tgt ret hh hpc => exact ⟨hh, n, tgt, ret, hpc⟩
    case h_2 => cases hk
  obtain ⟨g, hg⟩ := inv_reachable h j.lid
  -- the client that returns the lock is the owner, and says which activity it is
  have hret : ∀ k : Job, k.stuck s → k.lid = j.lid →
      g.stage ((s j.lid).server.getD {}).owner = .returning k.activity := by
    intro k hk hl
    obtain ⟨-, n, tgt, ret, hpc⟩ := hphase k hk
    rw [hl] at hpc
    have hok := hg.pc k.activity
    rw [hpc] at hok
    obtain ⟨-, -, -, -, -, hstage⟩ := hok
    have hst : g.stage tgt = .returning k.activity := hstage
    have howner := (hg.server.owner_iff tgt).mp (by rw [hst]; trivial)
    rw [← howner.1]
    exact hst
  refine ⟨(hg.server.returning_ok _ _ (hret j hj rfl)).1, fun k hk hl => ?_⟩
  have hact : k.activity = j.activity := by
    injection (hret k hk hl).symm.trans (hret j hj rfl)
  exact Job.ext hl hact ((hphase k hk).1.trans (hphase j hj).1.symm)

/-- **No deadlock**: while fewer than `N` locks are revoked at once, the threads of the
server never all wait for requests that none of them can take. -/
theorem no_deadlock (hN : 2 ≤ N) {s : Pooled N} (h : Reachable Init (Step Spare) s) :
    ¬ s.Deadlocked := by
  have hinv : s.Inv :=
    h.invariant (I := Inv) (fun _ hi => Inv.init (by omega) hi) fun _ _ hs hstep => hs.step hstep
  intro hdead
  choose job hjob hstuck using hdead
  obtain ⟨A, hA, hall⟩ := hinv.few
  -- the locks of the threads are different, and all are `REVOKING`
  have hcard := Finset.card_le_card_of_injOn (s := Finset.univ) (t := A) (fun w => (job w).lid)
    (fun w _ => hall _ (stuck_spec hinv.locks (hstuck w)).1) (fun w _ w' _ he => by
      have hsame := (stuck_spec hinv.locks (hstuck w')).2 (job w) (hstuck w) he
      exact hinv.inj w w' (job w) (hjob w) (hsame ▸ hjob w'))
  rw [Finset.card_univ, Fintype.card_fin] at hcard
  omega

/-! ### Runs on given inputs -/

/-- Nothing but these lock ids was used. -/
def Within (lids : List LockId) (s : Pooled N) : Prop := ∀ l, l ∉ lids → s.locks l = {}

/-- The thread that starts a call is idle. -/
def calm (lids : List LockId) (s : Pooled N) (ev : Event) : Bool :=
  match ev.caller with
  | none => true
  | some a => lids.all fun l => (s.locks l).pc a = .idle

theorem Within.mayCall {lids : List LockId} {s : Pooled N} {ev : Event} (h : s.Within lids)
    (hc : s.calm lids ev) : s.locks.MayCall ev := by
  intro a ha l
  rw [calm, ha] at hc
  by_cases hl : l ∈ lids
  · exact of_decide_eq_true (List.all_eq_true.mp hc l hl)
  · rw [h l hl]

/-- Steps one after the other, each with the thread that it may need, if `test` allows it. -/
def run (lids : List LockId) (test : Pooled N → Pooled N → Bool) (s : Pooled N) :
    List (Fin N × LockId × Event) → Option (Pooled N)
  | [] => some s
  | (w, lid, ev) :: steps =>
    match s.exec w lid ev with
    | none => none
    | some s' =>
      if lid ∈ lids ∧ s.calm lids ev ∧ test s s' then s'.run lids test steps else none

theorem reachable_of_run {lids : List LockId} {test : Pooled N → Pooled N → Bool}
    {may : Pooled N → Pooled N → Prop} {s s' : Pooled N} {steps : List (Fin N × LockId × Event)}
    (hmay : ∀ s s' : Pooled N, s.Within lids → s'.Within lids → test s s' → may s s')
    (hw : s.Within lids) (hs : Reachable Init (Step may) s) (h : s.run lids test steps = some s') :
    Reachable Init (Step may) s' := by
  induction steps generalizing s with
  | nil =>
    cases h
    exact hs
  | cons x steps ih =>
    obtain ⟨w, lid, ev⟩ := x
    unfold run at h
    split at h
    case h_1 => cases h
    case h_2 s₁ hex =>
      split at h
      case isFalse => cases h
      case isTrue hc =>
        obtain ⟨q, -, hlocks, -⟩ := exec_cases hex
        have hw₁ : s₁.Within lids := by
          intro l hl
          rw [hlocks, Function.update_of_ne]
          · exact hw l hl
          · rintro rfl
            exact hl hc.1
        exact ih hw₁ (hs.next ⟨w, lid, ev, hw.mayCall hc.2.1, hex, hmay s s₁ hw hw₁ hc.2.2⟩) h

/-- All threads are idle. -/
def idle (N : ℕ) : Pooled N := ⟨fun _ => {}, fun _ => none⟩

/-- `a` gets the lock and keeps it `FREE`, `b` asks for it, and the server revokes it on the
thread `w`. -/
def revocation (w : Fin N) (lid : LockId) (a b : Thread) : List (Fin N × LockId × Event) :=
  [.acquire a 0, .serve a, .reply a, .release a, .acquire b 0, .serve b, .sendRevoke b,
    .revoke b].map (w, lid, ·)

/-- Two revocations at once, and two threads: both handlers wait for a `release`. -/
def twoRevocations : List (Fin 2 × LockId × Event) :=
  revocation 0 1 ⟨"127.0.0.1:1", 1⟩ ⟨"127.0.0.1:2", 1⟩ ++
    revocation 1 2 ⟨"127.0.0.1:1", 2⟩ ⟨"127.0.0.1:2", 2⟩

/-- The test of `Spare`, for the given lock ids. -/
def spare (lids : List LockId) (s s' : Pooled N) : Bool :=
  lids.all fun lid =>
    ((s.locks lid).server.getD {}).state = .revoking ∨
      ((s'.locks lid).server.getD {}).state ≠ .revoking ∨
      (lids.filter fun l => ((s.locks l).server.getD {}).state = .revoking).length + 1 < N

theorem spare_of_test {lids : List LockId} {s s' : Pooled N} (hw : s.Within lids)
    (hw' : s'.Within lids) (h : spare lids s s') : Spare s s' := by
  intro lid hno hyes
  have hin : ∀ {t : Pooled N}, t.Within lids → ∀ l, t.Revoking l → l ∈ lids := by
    intro t ht l hl
    by_contra hnot
    rw [Revoking, ht l hnot] at hl
    cases hl
  refine ⟨(lids.filter fun l => ((s.locks l).server.getD {}).state = .revoking).toFinset, ?_,
    fun l hl => ?_⟩
  · rcases of_decide_eq_true (List.all_eq_true.mp h lid (hin hw' lid hyes)) with hr | hr | hlt
    · exact absurd hr hno
    · exact absurd hyes hr
    · have := List.toFinset_card_le (lids.filter fun l =>
        ((s.locks l).server.getD {}).state = .revoking)
      omega
  · rw [List.mem_toFinset, List.mem_filter]
    exact ⟨hin hw l hl, decide_eq_true hl⟩

/-- One of the two is no problem. -/
theorem no_deadlock_revocation : ∃ s : Pooled 2, Reachable Init (Step Spare) s ∧
    (∃ j, s.worker 0 = some j ∧ j.stuck s.locks) ∧ ¬ s.Deadlocked := by
  have hrun : ((idle 2).run [1] (spare [1])
      (revocation 0 1 ⟨"127.0.0.1:1", 1⟩ ⟨"127.0.0.1:2", 1⟩)).map (fun s =>
        (s.worker 0).any (·.stuck s.locks)) = some true := by decide
  obtain ⟨s, hs, hstuck⟩ := Option.map_eq_some_iff.mp hrun
  have hr := reachable_of_run (fun _ _ => spare_of_test) (fun _ _ => rfl)
    (.start ⟨fun _ => rfl, fun _ => rfl⟩) hs
  obtain ⟨j, hj, hjs⟩ := (Option.any_eq_true _ _).mp hstuck
  exact ⟨s, hr, ⟨j, hj, hjs⟩, no_deadlock le_rfl hr⟩

theorem two_revocations_deadlock :
    ∃ s : Pooled 2, Reachable Init (Step fun _ _ => True) s ∧ s.Deadlocked := by
  have hrun : ((idle 2).run [1, 2] (fun _ _ => true) twoRevocations).map (fun s =>
      decide (∀ w, (s.worker w).any (·.stuck s.locks))) = some true := by decide
  obtain ⟨s, hs, hstuck⟩ := Option.map_eq_some_iff.mp hrun
  have hr : Reachable Init (Step fun _ _ => True) s :=
    reachable_of_run (fun _ _ _ _ _ => trivial) (fun _ _ => rfl)
      (.start ⟨fun _ => rfl, fun _ => rfl⟩) hs
  refine ⟨s, hr, fun w => ?_⟩
  obtain ⟨j, hj, hjs⟩ := (Option.any_eq_true _ _).mp (of_decide_eq_true hstuck w)
  exact ⟨j, hj, hjs⟩

end Pooled

end Yfs.Lock
