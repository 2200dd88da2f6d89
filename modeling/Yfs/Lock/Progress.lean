import Mathlib.Algebra.Order.BigOperators.Group.Finset
import Mathlib.Data.Set.Finite.Lattice
import Yfs.Lock.Attended

/-!
# The lock service comes to rest

What the service does on its own, between the calls of the threads, ends; and it ends well. A
thread that waits is woken, a request is answered, a lock that is called back comes back, until
all threads are through with their calls or wait for one that has the lock (`settles`).

At rest there is always somebody to wait for (`Inv.held_of_rest`). That rest comes is a matter of
counting: every step brings one thread closer to the end of its call (`Pc.left`), and takes none
away from it.
-/

namespace Yfs.Lock

open Client (QueuingThread Wait)

/-! ## At rest -/

/-- A step that is no call of a thread: what the service does on its own. -/
def Sys.Work (s q : Sys) : Prop := ∃ ev : Event, ev.caller = none ∧ s.exec ev = some (.ok q)

/-- The service can do nothing on its own. -/
def Sys.AtRest (s : Sys) : Prop := ∀ q, ¬ s.Work q

section Rest

variable {s : Sys} {g : Ghost} {a b : Thread} {n : QueuingThread} {c x : String}
  {e : Client.LockEntry} {ev : Event}

/-- What can happen happens without a fault. -/
theorem Inv.not_rest (h : Inv s g) (hrest : s.AtRest) (ev : Event) (hev : ev.caller = none) :
    s.exec ev = none := by
  cases hr : s.exec ev with
  | none => rfl
  | some r =>
    obtain ⟨q, -, rfl, -⟩ := h.exec_ok hr
    exact absurd ⟨ev, hev, hr⟩ (hrest q)

/-- At rest no lock is on its way to the server. -/
theorem Inv.no_return (h : Inv s g) (hrest : s.AtRest) : ¬ s.Returns b x := by
  rintro ⟨p, hp⟩
  cases p with
  | req =>
    have hno := h.not_rest hrest (.serve b) rfl
    cases hpc : s.pc b with
    | idle | waiting => simp [hpc, Pc.release?] at hp
    | releasing n r =>
      rw [hpc] at hp
      cases hp
      simp [Sys.exec, hpc, Pc.release?] at hno
    | acquiring n q =>
      cases q with
      | revRel tgt ret r =>
        rw [hpc] at hp
        cases hp
        simp [Sys.exec, hpc, Pc.release?] at hno
      | req | revSend | revReq | rep => simp [hpc, Pc.release?] at hp
  | retryReq next => simpa [Sys.exec, hp] using h.not_rest hrest (.retry b) rfl
  | rep =>
    have hno := h.not_rest hrest (.reply b) rfl
    cases hpc : s.pc b with
    | idle | waiting => simp [hpc, Pc.release?] at hp
    | releasing n r =>
      rw [hpc] at hp
      cases hp
      simp [Sys.exec, hpc] at hno
    | acquiring n q =>
      cases q with
      | revRel tgt ret r =>
        rw [hpc] at hp
        cases hp
        simp [Sys.exec, hpc] at hno
      | req | revSend | revReq | rep => simp [hpc, Pc.release?] at hp

/-- At rest a thread is in no call, or it is asleep. -/
theorem Inv.asleep (h : Inv s g) (hrest : s.AtRest) (a : Thread) :
    s.pc a = .idle ∨ ∃ w n, s.pc a = .waiting w n false := by
  cases hpc : s.pc a with
  | idle => exact .inl rfl
  | waiting w n sig =>
    cases sig with
    | false => exact .inr ⟨w, n, rfl⟩
    | true => simpa [Sys.exec, hpc] using h.not_rest hrest (.wake a) rfl
  | releasing n p =>
    refine absurd ?_ (h.no_return hrest (b := a) (x := a.client))
    exact ⟨p, by rw [hpc]; rfl⟩
  | acquiring n p =>
    cases p with
    | req => simpa [Sys.exec, hpc] using h.not_rest hrest (.serve a) rfl
    | revSend => simpa [Sys.exec, hpc] using h.not_rest hrest (.sendRevoke a) rfl
    | revReq tgt ret => simpa [Sys.exec, hpc] using h.not_rest hrest (.revoke a) rfl
    | rep ret => simpa [Sys.exec, hpc] using h.not_rest hrest (.reply a) rfl
    | revRel tgt ret p =>
      refine absurd ?_ (h.no_return hrest (b := a) (x := tgt))
      exact ⟨p, by rw [hpc]; rfl⟩

/-- At rest, if a client has threads in its queue, then one of them has the lock, or the client is
in `waitingClients`. -/
theorem Inv.front_waits (h : Inv s g) (ha : Attended s) (hrest : s.AtRest)
    (he : s.client c = some e) (hth : e.threads ≠ []) :
    (∃ b, s.Holds b) ∨ g.stage c = .waiting := by
  obtain ⟨n, rest, hth⟩ := List.exists_cons_of_ne_nil hth
  obtain ⟨b, rfl, hheld | hb⟩ := ha.node c n (by simp [Sys.ent_eq he, hth])
  · exact .inl ⟨b, n, hheld⟩
  · rcases h.asleep hrest b with hpc | ⟨w, m, hpc⟩
    · rw [hpc] at hb
      cases hb
    · rw [hpc] at hb
      cases hb
      have hp := h.pc b
      rw [hpc] at hp
      obtain ⟨-, e₁, he₁, hw⟩ := hp
      rw [he] at he₁
      cases he₁
      cases w with
      | queued => exact absurd (by rw [hth]; rfl) hw.2
      | released =>
        obtain ⟨a, ha⟩ := ha.releasing b.client (by rw [Sys.ent_eq he]; exact hw.2)
        exact absurd ha (h.no_return hrest)
      | retry =>
        obtain ⟨-, -, hst | ⟨a, hst⟩⟩ := hw
        · exact .inr hst
        · obtain ⟨x, hx⟩ := h.server.retryWait_ok _ a hst
          exact absurd ⟨_, hx⟩ (h.no_return hrest)

/-- At rest, if the server lets a client wait, then a thread has the lock. -/
theorem Inv.held_of_waiting (h : Inv s g) (ha : Attended s) (hrest : s.AtRest)
    (hc : g.stage c = .waiting) : ∃ b, s.Holds b := by
  have hmem := (h.server.waiting_iff c).mp hc
  -- the client that the waiting ones are waiting for
  suffices hd : ∃ d e, s.client d = some e ∧ e.threads ≠ [] ∧ g.stage d ≠ .waiting by
    obtain ⟨d, e, he, hth, hst⟩ := hd
    exact (h.front_waits ha hrest he hth).resolve_right hst
  cases hs : (s.server.getD {}).state with
  | none => simp [(h.server.none_ok hs).2.2] at hmem
  | locked => simp [(h.server.locked_ok hs).2.2] at hmem
  | revoking =>
    cases hrev : g.rev with
    | some b =>
      obtain ⟨-, -, -, n, p, hpc, -⟩ := h.server.rev_some b hrev
      rcases h.asleep hrest b with hb | ⟨w, m, hb⟩ <;> rw [hpc] at hb <;> cases hb
    | none =>
      rcases h.server.rev_none hrev hs with ⟨e, he, hm, hst | hst⟩ | ⟨b, hst⟩
      · have hen := h.entry (s.server.getD {}).owner
        rw [hst] at hen
        obtain ⟨e₁, he₁, -, -, hth⟩ := hen
        exact ⟨_, e₁, he₁, hth, by rw [hst]; exact nofun⟩
      · have hen := h.entry (s.server.getD {}).owner
        rw [hst] at hen
        obtain ⟨e₁, he₁, ⟨-, -, hth⟩ | ⟨-, hempty, -⟩⟩ := hen
        · exact ⟨_, e₁, he₁, hth, by rw [hst]; exact nofun⟩
        · rw [he] at he₁
          cases he₁
          rw [hm] at hempty
          cases hempty
      · obtain ⟨-, -, hrel⟩ := h.server.returning_ok _ b hst
        exact absurd ⟨_, hrel⟩ (h.no_return hrest)
  | retrying =>
    have hne := (h.server.retrying_ok hs).2
    have hret := (h.server.retrying_iff (s.server.getD {}).retryingClient).mpr ⟨rfl, hne⟩
    have hen := h.entry (s.server.getD {}).retryingClient
    cases hst : g.stage (s.server.getD {}).retryingClient with
    | retryWait b =>
      obtain ⟨x, hx⟩ := h.server.retryWait_ok _ b hst
      exact absurd ⟨_, hx⟩ (h.no_return hrest)
    | notified | reasking =>
      rw [hst] at hen
      obtain ⟨e, he, -, -, hth⟩ := hen
      exact ⟨_, e, he, hth, by rw [hst]; exact nofun⟩
    | out | asking | waiting | granted | owner | returning | returned =>
      rw [hst] at hret
      exact hret.elim

/-- **At rest all threads wait for one that has the lock**, if any is in a call. -/
theorem Inv.held_of_rest (h : Inv s g) (ha : Attended s) (hrest : s.AtRest)
    (hpc : s.pc a ≠ .idle) : ∃ b, s.Holds b := by
  obtain ⟨w, n, hw⟩ := (h.asleep hrest a).resolve_left hpc
  have hp := h.pc a
  rw [hw] at hp
  obtain ⟨-, e, he, hwait⟩ := hp
  have hmem : n ∈ e.threads := by
    cases w with
    | queued => exact List.mem_of_mem_tail hwait.1
    | released | retry => exact List.mem_of_mem_head? hwait.1
  exact (h.front_waits ha hrest he (List.ne_nil_of_mem hmem)).elim id
    (h.held_of_waiting ha hrest)

end Rest

/-! ## The way to rest -/

/-- How far a `release` call is from its end. -/
def RelPhase.left : RelPhase → ℕ
  | .req => 2
  | .retryReq _ => 1
  | .rep => 0

/-- How far a thread is from the end of its call; `again` says that its client is the one that was
told to retry, whose request is not refused. -/
def Pc.left (again : Bool) : Pc → ℕ
  | .idle => 0
  | .waiting .queued _ sig => if sig then 16 else 17
  | .waiting .released _ sig => if sig then 14 else 15
  | .waiting .retry _ sig => if sig then 5 else 6
  | .acquiring _ .req => if again then 4 else 13
  | .acquiring _ .revSend => 12
  | .acquiring _ (.revReq _ .retry) => 11
  | .acquiring _ (.revReq _ .ok) => 3
  | .acquiring _ (.revRel _ _ p) => 8 + p.left
  | .acquiring _ (.rep .retry) => 7
  | .acquiring _ (.rep .ok) => 2
  | .releasing _ p => 1 + p.left

/-- What a thread is doing after a section of `acquire`. -/
def Client.Next.pc (n : QueuingThread) : Client.Next → Pc
  | .returnOK => .idle
  | .call => .acquiring n .req
  | .wait w => .waiting w n false

/-- How far the thread `a` is from the end of its call. -/
def Sys.left (s : Sys) (a : Thread) : ℕ :=
  (s.pc a).left (s.srv.retryingClient == a.client)

theorem Pc.left_eq_zero {again : Bool} {p : Pc} : p.left again = 0 ↔ p = .idle := by
  constructor
  · intro h
    unfold Pc.left at h
    split at h <;> first | rfl | (split at h <;> cases h) | omega
  · rintro rfl
    rfl

theorem RelPhase.left_le (p : RelPhase) : p.left ≤ 2 := by
  cases p <;> simp [left]

theorem Pc.left_le {again : Bool} (p : Pc) : p.left again ≤ 17 := by
  cases p with
  | idle => exact Nat.zero_le _
  | waiting w n sig => cases w <;> simp only [left] <;> split <;> omega
  | releasing n p =>
    have := p.left_le
    simp only [left]
    omega
  | acquiring n p =>
    cases p with
    | req =>
      simp only [left]
      split <;> omega
    | revSend => simp only [left]; omega
    | revReq tgt ret | rep ret => cases ret <;> simp only [left] <;> omega
    | revRel tgt ret p =>
      have := p.left_le
      simp only [left]
      omega

section Left

variable {s q t : Sys} {g : Ghost} {a b : Thread} {n : QueuingThread} {c x : String}
  {e e' : Client.LockEntry} {next : Client.Next} {ev : Event}

/-- A signal takes no thread further away from the end of its call. -/
theorem Pc.signal_left {again : Bool} (p : Pc) (n : QueuingThread) :
    (p.signal n).left again ≤ p.left again := by
  cases p with
  | waiting w m sig =>
    cases w <;> cases sig <;> simp only [Pc.signal, Pc.left, Bool.true_or, le_refl] <;>
      split <;> simp
  | idle | acquiring | releasing => exact le_rfl

theorem Sys.signal_left (s : Sys) (c : String) (o : Option QueuingThread) (b : Thread) :
    (s.signal c o).left b ≤ s.left b := by
  cases o with
  | none => exact le_rfl
  | some m =>
    simp only [left, signal_srv, signal_some_pc]
    split
    · exact Pc.signal_left ..
    · exact le_rfl

/-- The thread `a` goes on, and the server's entry stays as it is. -/
theorem Sys.left_setPc {p : Pc} {o : Option QueuingThread} (ht : t.srv = s.srv)
    (hpc : t.pc = (s.signal c o).pc) (hp : p.left (s.srv.retryingClient == a.client) < s.left a) :
    (t.setPc a p).left a < s.left a ∧ ∀ b, b ≠ a → (t.setPc a p).left b ≤ s.left b := by
  constructor
  · simpa [left, ht] using hp
  · intro b hb
    have hsig := s.signal_left c o b
    simpa [left, hb, ht, hpc] using hsig

/-- A `release` call goes on. -/
theorem Pc.left_setRelease {again again' : Bool} {p : Pc} {ph ph' : RelPhase}
    (h : p.release? c = some (x, ph)) (hlt : ph'.left < ph.left) :
    (p.setRelease ph').left again' < p.left again := by
  cases p with
  | idle | waiting => cases h
  | releasing n r =>
    cases h
    simpa [setRelease, left] using hlt
  | acquiring n r =>
    cases r with
    | revRel tgt ret r =>
      cases h
      simpa [setRelease, left] using hlt
    | req | revSend | revReq | rep => cases h

/-- The other threads, when the server has answered. -/
theorem Sys.left_le_of (hpc : q.pc b = s.pc b) (hagain : ∀ m, s.pc b = .acquiring m .req →
    s.srv.retryingClient = b.client → q.srv.retryingClient = b.client) : q.left b ≤ s.left b := by
  rw [left, left, hpc]
  unfold Pc.left
  split
  case h_5 m hm =>
    by_cases hb : s.srv.retryingClient = b.client
    · rw [hb, hagain m hm hb]
    · rw [beq_false_of_ne hb]
      split <;> simp
  all_goals exact le_rfl

theorem Sys.left_resume (hq : s.resume a n (.ok (e', next)) = .ok q) :
    (∀ b, b ≠ a → q.left b = s.left b) ∧
      q.left a = (next.pc n).left (s.srv.retryingClient == a.client) := by
  cases hq
  cases next <;> exact ⟨fun b hb => by simp [left, hb], by simp [left, Client.Next.pc]⟩

/-- Who wakes up has got the lock, or asks for it. -/
theorem wake_next {w : Wait} (h : Client.wake e w = .ok (e', next)) :
    next = .call ∨ w = .queued ∧ next = .returnOK := by
  unfold Client.wake Client.blockUntilGot Client.blockUntilGotLoop at h
  cases w with
  | released =>
    cases h
    exact .inl rfl
  | queued => cases hst : e.state <;> simp [hst] at h <;> simp [← h.2]
  | retry =>
    dsimp only at h
    split_ifs at h
    cases h
    exact .inl rfl

/-- The client whose request is the second one is `retryingClient`. -/
theorem Inv.retrying (h : Inv s g) (hst : (g.stage c).IsRetrying) : s.srv.retryingClient = c :=
  ((h.server.retrying_iff c).mp hst).1.symm

/-- One thread of a client has a request on its way. -/
theorem Inv.req_unique (h : Inv s g) (ha : s.pc a = .acquiring n .req) {m : QueuingThread}
    (hb : s.pc b = .acquiring m .req) (hc : a.client = b.client) : a = b := by
  have hpa := h.pc a
  rw [ha] at hpa
  obtain ⟨hnt, ⟨e, he, hhd, -⟩, -⟩ := hpa
  have hpb := h.pc b
  rw [hb] at hpb
  obtain ⟨hmt, ⟨e', he', hhd', -⟩, -⟩ := hpb
  rw [hc, he'] at he
  cases he
  rw [hhd'] at hhd
  cases hhd
  exact Thread.ext hc (hnt.symm.trans hmt)

/-- Whatever the server answers, the thread that asked is closer to the end of its call. -/
theorem Inv.left_serve (h : Inv s g) {se : Server.LockEntry} {next : Server.Next}
    (hpc : s.pc a = .acquiring n .req) (hr : Server.acquire s.server a.client = .ok (se, next)) :
    (Pc.acquiring n next.phase).left (se.retryingClient == a.client) < s.left a ∧
      (se.retryingClient = s.srv.retryingClient ∨ s.srv.retryingClient = a.client) := by
  have hne := h.named a (by rw [hpc]; exact nofun)
  have hsrv := h.server
  unfold Server.acquire at hr
  rw [show s.server.getD {} = s.srv from rfl] at hr hsrv
  rw [Sys.left, hpc]
  dsimp only at hr
  cases hst : s.srv.state with
  | none =>
    simp only [hst] at hr
    split_ifs at hr
    cases hr
    refine ⟨?_, .inl rfl⟩
    simp only [Server.Next.phase, Pc.left]
    split <;> omega
  | locked =>
    simp only [hst] at hr
    split_ifs at hr
    cases hr
    have hno : s.srv.retryingClient ≠ a.client := by
      rw [(hsrv.locked_ok hst).2.1]
      exact hne.symm
    refine ⟨?_, .inl rfl⟩
    simp only [Server.Next.phase, Pc.left, beq_false_of_ne hno, Bool.false_eq_true, if_false]
    omega
  | revoking =>
    simp only [hst] at hr
    split_ifs at hr
    cases hr
    have hno : s.srv.retryingClient ≠ a.client := by
      rw [(hsrv.revoking_ok hst).2.1]
      exact hne.symm
    refine ⟨?_, .inl rfl⟩
    simp only [Server.Next.phase, Pc.left, beq_false_of_ne hno, Bool.false_eq_true, if_false]
    omega
  | retrying =>
    simp only [hst] at hr
    split_ifs at hr with hw hc hwn
    · cases hr
      refine ⟨?_, .inr hc.symm⟩
      simp only [Server.Next.phase, Pc.left, beq_iff_eq.mpr hc.symm, if_true]
      omega
    · cases hr
      refine ⟨?_, .inr hc.symm⟩
      simp only [Server.Next.phase, Pc.left, beq_iff_eq.mpr hc.symm, if_true]
      omega
    · cases hr
      refine ⟨?_, .inl rfl⟩
      simp only [Server.Next.phase, Pc.left, beq_false_of_ne (Ne.symm hc), Bool.false_eq_true,
        if_false]
      omega

/-- **Every step brings one thread closer to the end of its call**, and takes none away from it. -/
theorem Inv.less (h : Inv s g) (hs : s.Steps ev q) (hev : ev.caller = none) :
    ∃ a, q.left a < s.left a ∧ ∀ b, b ≠ a → q.left b ≤ s.left b := by
  cases hs with
  | acquire | release | leave => cases hev
  | @wake a w n e r q hpc he hr hq =>
    obtain ⟨e', next⟩ := r
    obtain ⟨hb, ha⟩ := Sys.left_resume hq
    refine ⟨a, ?_, fun b hne => (hb b hne).le⟩
    rw [ha, Sys.left, hpc]
    rcases wake_next hr with rfl | ⟨rfl, rfl⟩
    · cases w with
      | released | queued =>
        simp only [Client.Next.pc, Pc.left, if_true]
        split <;> omega
      | retry =>
        have hp := h.pc a
        rw [hpc] at hp
        obtain ⟨-, -, -, -, -, hst⟩ := hp
        have hret := h.retrying (c := a.client) (by rw [hst]; trivial)
        simp [Client.Next.pc, Pc.left, hret]
    · simp [Client.Next.pc, Pc.left]
  | @serveAcquire a n se next hpc hr =>
    obtain ⟨hlt, hsame⟩ := h.left_serve hpc hr
    refine ⟨a, by simpa [Sys.left] using hlt, fun b hb => ?_⟩
    refine Sys.left_le_of (by simp [hb]) fun m hm hc => ?_
    rcases hsame with hsame | hmine
    · exact hsame.trans hc
    · -- only the thread `a` of its client has a request on its way
      exact absurd (h.req_unique hpc hm (hmine.symm.trans hc)).symm hb
  | @serveRelease a x next se hpc hr =>
    have hret : s.srv.retryingClient = "" := by
      refine h.server.revoking_ok ?_ |>.2.1
      unfold Server.release at hr
      split at hr
      case h_1 => cases hr
      case h_2 hse =>
        split_ifs at hr with hst
        rw [hse]
        simpa using hst
    refine ⟨a, ?_, fun b hb => Sys.left_le_of (by simp [hb]) fun m hm hc => ?_⟩
    · simp only [Sys.left, Sys.setPc_pc, if_true]
      exact Pc.left_setRelease hpc (by simp [RelPhase.left])
    · rw [hret] at hc
      exact absurd hc.symm (h.named b (by rw [hm]; exact nofun))
  | @sendRevoke a n hpc =>
    refine ⟨a, Sys.left_setPc (c := "") (o := none) rfl rfl ?_⟩
    rw [Sys.left, hpc]
    simp [Pc.left]
  | @revoke a n tgt ret e hpc he =>
    refine ⟨a, Sys.left_setPc (c := "") (o := none) rfl rfl ?_⟩
    rw [Sys.left, hpc]
    cases ret with
    | retry => split <;> simp [Pc.left, RelPhase.left]
    | ok =>
      have hp := h.pc a
      rw [hpc] at hp
      obtain ⟨-, -, hst, rfl, -⟩ := hp
      have hen := h.entry a.client
      rw [hst] at hen
      obtain ⟨e₁, he₁, hacq, -⟩ := hen
      rw [he] at he₁
      cases he₁
      -- the lock is not free: its `OK` is on its way
      simp [Client.revokeHandler, hacq, Pc.left]
  | @retry a x next n e e' hpc he hr =>
    exact ⟨a, Sys.left_setPc (c := next) (o := some n) rfl rfl
      (Pc.left_setRelease hpc (by simp [RelPhase.left]))⟩
  | @replyAcquire a n ret e r q hpc he hr hq =>
    obtain ⟨e', next⟩ := r
    obtain ⟨hb, ha⟩ := Sys.left_resume hq
    refine ⟨a, ?_, fun b hne => (hb b hne).le⟩
    have hp := h.pc a
    rw [hpc] at hp
    obtain ⟨-, -, hst⟩ := hp
    rw [ha, Sys.left, hpc]
    unfold Client.blockUntilGotReply Client.blockUntilGotLoop at hr
    cases ret with
    | ok =>
      cases hr
      simp [Client.Next.pc, Pc.left]
    | retry =>
      dsimp only at hr
      split_ifs at hr with hm
      · cases hr
        simp [Client.Next.pc, Pc.left]
      · cases hr
        -- the message is the `RETRY`, and so the next request is the second one
        have hen := h.entry a.client
        have hret := h.retrying (c := a.client) (by
          cases hstage : g.stage a.client with
          | notified => trivial
          | waiting | retryWait =>
            rw [hstage] at hen
            obtain ⟨e₁, he₁, -, hempty, -⟩ := hen
            rw [he] at he₁
            cases he₁
            exact absurd hempty hm
          | out | asking | reasking | granted | owner | returning | returned =>
            rw [AcqOk, hstage] at hst
            exact hst.elim)
        simp [Client.Next.pc, Pc.left, hret]
  | @replyRevoke a n tgt ret e hpc he =>
    refine ⟨a, Sys.left_setPc (c := tgt) (o := (Client.revokeHandlerReply e).2) rfl rfl ?_⟩
    rw [Sys.left, hpc]
    cases ret <;> simp [Pc.left, RelPhase.left]
  | @replyRelease a n e e' sig hpc he hr =>
    refine ⟨a, Sys.left_setPc (c := a.client) (o := sig) rfl rfl ?_⟩
    rw [Sys.left, hpc]
    simp [Pc.left]

/-- No step takes any other thread away from the end of its call. -/
theorem Inv.left_others (h : Inv s g) (hs : s.Steps ev q) :
    ∃ a, ∀ b, b ≠ a → q.left b ≤ s.left b := by
  cases hev : ev.caller with
  | none =>
    obtain ⟨a, -, hb⟩ := h.less hs hev
    exact ⟨a, hb⟩
  | some a =>
    refine ⟨a, fun b hb => ?_⟩
    cases hs with
    | wake | serveAcquire | serveRelease | sendRevoke | revoke | retry | replyAcquire
    | replyRevoke | replyRelease => cases hev
    | @acquire a' addr r q hpc hne hnew hr hq =>
      cases hev
      exact ((Sys.left_resume hq).1 b hb).le
    | release =>
      cases hev
      simp [Sys.left, hb]
    | leave =>
      cases hev
      exact Sys.signal_left ..

theorem Sys.left_eq_zero : s.left a = 0 ↔ s.pc a = .idle := Pc.left_eq_zero

/-- **The work ends**: what the service does on its own does not go on forever. -/
theorem Inv.work_ends (h : Inv s g) (hfin : {a | s.pc a ≠ .idle}.Finite) :
    Acc (fun q s => Sys.Work s q) s := by
  -- only the threads that are in a call now ever are
  obtain ⟨T, hT⟩ := hfin.exists_finset_coe
  have hidle : ∀ a, a ∉ T → s.pc a = .idle := by
    intro a ha
    by_contra hne
    exact ha (Finset.mem_coe.mp (hT.symm ▸ hne))
  clear hT hfin
  induction hn : ∑ a ∈ T, s.left a using Nat.strong_induction_on generalizing s g with
  | h n ih =>
    refine ⟨_, fun q hq => ?_⟩
    obtain ⟨ev, hev, hex⟩ := hq
    obtain ⟨q', g', hq', hinv⟩ := h.exec_ok hex
    cases hq'
    obtain ⟨a, hlt, hle⟩ := h.less (Sys.steps_of_exec hex) hev
    have ha : a ∈ T := by
      by_contra ha
      rw [Sys.left_eq_zero.mpr (hidle a ha)] at hlt
      exact Nat.not_lt_zero _ hlt
    have hles : ∀ b, q.left b ≤ s.left b := by
      intro b
      by_cases hb : b = a
      · exact hb ▸ hlt.le
      · exact hle b hb
    refine ih _ ?_ hinv (fun b hb => ?_) rfl
    · rw [← hn]
      exact Finset.sum_lt_sum (fun b _ => hles b) ⟨a, ha, hlt⟩
    · rw [← Sys.left_eq_zero, ← Nat.le_zero, ← Sys.left_eq_zero.mpr (hidle b hb)]
      exact hles b

end Left

/-! ## Runs -/

/-- All that holds of one lock id in every reachable state. -/
structure Sound (s : Sys) : Prop where
  inv : ∃ g, Inv s g
  fresh : s.Fresh
  attended : Attended s
  finite : {a | s.pc a ≠ .idle}.Finite

section Runs

variable {s q : Sys} {a : Thread} {ev : Event}

theorem sound_init : Sound {} := by
  refine ⟨⟨{}, inv_init⟩, nofun, attended_init, ?_⟩
  have hnone : {a : Thread | ({} : Sys).pc a ≠ .idle} = ∅ :=
    Set.eq_empty_iff_forall_notMem.mpr fun a ha => ha rfl
  rw [hnone]
  exact Set.finite_empty

/-- **One step.** -/
theorem Sound.step (h : Sound s) (hex : s.exec ev = some (.ok q)) : Sound q := by
  obtain ⟨g, hg⟩ := h.inv
  have hs := Sys.steps_of_exec hex
  obtain ⟨q', g', hq', hinv⟩ := hg.exec_ok hex
  cases hq'
  obtain ⟨a, ha⟩ := hg.left_others hs
  refine ⟨⟨g', hinv⟩, hg.exec_fresh h.fresh hex, h.attended.step hg h.fresh hs,
    (h.finite.insert a).subset fun b hb => ?_⟩
  by_cases hba : b = a
  · exact .inl hba
  · refine .inr fun hidle => hb ?_
    rw [← Sys.left_eq_zero, ← Nat.le_zero, ← Sys.left_eq_zero.mpr hidle]
    exact ha b hba

theorem sound_reachable {s : State} (h : Reachable Init Step s) (lid : LockId) : Sound (s lid) := by
  refine Reachable.invariant (I := fun s : State => Sound (s lid)) (fun s hs => ?_)
    (fun s s' hsound hs => ?_) h
  · rw [hs lid]
    exact sound_init
  · obtain ⟨l, ev, q, -, hex, rfl⟩ := hs
    by_cases hl : lid = l
    · subst hl
      rw [Function.update_self]
      exact hsound.step hex
    · rwa [Function.update_of_ne hl]

/-- While the service works, somebody who calls `acquire` stays in it, or somebody has got the
lock. -/
theorem Sound.work (h : Sound s) (hw : s.Work q) : Sound q ∧
    ((∃ a, (s.pc a).acquires ∨ s.Holds a) → ∃ a, (q.pc a).acquires ∨ q.Holds a) := by
  obtain ⟨ev, hev, hex⟩ := hw
  obtain ⟨g, hg⟩ := h.inv
  refine ⟨h.step hex, fun ⟨a, ha⟩ => ?_⟩
  cases hg.use h.fresh (Sys.steps_of_exec hex) with
  | inside hrel hheld hpc => exact ⟨a, ha.imp (fun hacq => (hpc a).mpr (.inl hacq)) fun ⟨n, hn⟩ =>
      ⟨n, hheld ▸ hn⟩⟩
  | @got t n ht hno hheld => exact ⟨t, .inr ⟨n, by rw [hheld, Function.update_self]⟩⟩
  | gave hrel =>
    subst hrel
    cases hev

/-- What comes to rest gets there. -/
theorem Sys.exists_rest (h : Acc (fun q s => Sys.Work s q) s) :
    ∃ q, Relation.ReflTransGen Sys.Work s q ∧ q.AtRest := by
  induction h with
  | intro s _ ih =>
    by_cases hrest : s.AtRest
    · exact ⟨s, .refl, hrest⟩
    · obtain ⟨q, hq⟩ := not_forall_not.mp hrest
      obtain ⟨r, hqr, hr⟩ := ih q hq
      exact ⟨r, hqr.head hq, hr⟩

end Runs

end Yfs.Lock
