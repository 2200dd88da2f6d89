import Yfs.Lock.Safety

/-!
# The queue of a client

What the queue of a client's entry is for: the thread at its front is the one that has
the lock, or is after it, and the others get it in the order in which they came
(`hand_over`). `acquire` and `release` say so on the way: which node they append, and
which thread returns (`Sys.record`).
-/

namespace Yfs.Lock

open Client (QueuingThread Wait)

/-- The queue of a client. -/
def Sys.queue (s : Sys) (c : String) : List QueuingThread := ((s.client c).getD {}).threads

/-- The node that this step appends to the queue of client `c`. -/
def Event.appended (c : String) : Event → List QueuingThread
  | .acquire a addr => if a.client = c then [⟨a.tid, addr⟩] else []
  | _ => []

/-- The section of `acquire` that this step runs: the thread, its node, and how it goes on. -/
def Sys.inAcquire (s : Sys) :
    Event → Option (Thread × QueuingThread × Except Fault (Client.LockEntry × Client.Next))
  | .acquire a addr =>
    some (a, ⟨a.tid, addr⟩, Client.acquire ((s.client a.client).getD {}) ⟨a.tid, addr⟩)
  | .wake a =>
    match s.pc a with
    | .waiting w n true => some (a, n, s.entry a.client >>= (Client.wake · w))
    | _ => none
  | .reply a =>
    match s.pc a with
    | .acquiring n (.rep ret) => some (a, n, s.entry a.client >>= (Client.blockUntilGotReply · ret))
    | _ => none
  | _ => none

/-- The node of client `c` with which `acquire` returns in this step. -/
def Sys.returned (s : Sys) (ev : Event) (c : String) : List QueuingThread :=
  match s.inAcquire ev with
  | some (a, n, .ok (_, .returnOK)) => if a.client = c then [n] else []
  | _ => []

/-- The nodes that were appended, and those with which `acquire` has returned. -/
structure Record where
  appended : List QueuingThread := []
  returned : List QueuingThread := []
  deriving DecidableEq

/-- The records of all clients after a step. -/
def Sys.record (s : Sys) (ev : Event) (log : String → Record) : String → Record :=
  fun c => ⟨(log c).appended ++ ev.appended c, (log c).returned ++ s.returned ev c⟩

/-- The thread is at the front and has had its turn: it holds the lock, or it has called `release`
and is not through with it. -/
def Sys.Serves (s : Sys) (a : Thread) (n : QueuingThread) : Prop :=
  s.held a = some n ∨ ∃ p, s.pc a = .releasing n p

/-- In this step `release`, called by `a` with its node `n`, deletes the node `m`. -/
def Sys.Deletes (s : Sys) (ev : Event) (a : Thread) (n m : QueuingThread) : Prop :=
  ∃ e, s.client a.client = some e ∧ e.threads.head? = some m ∧
    (ev = .release a ∧ s.pc a = .idle ∧ s.held a = some n ∧ e.message ≠ .revoke ∨
      ev = .reply a ∧ s.pc a = .releasing n .rep)

section Step

variable {s q : Sys} {g : Ghost} {a b : Thread} {n m : QueuingThread} {c : String}
  {e e' : Client.LockEntry} {next : Client.Next}

/-! ## The queue in each section -/

theorem acquire_threads (h : Client.acquire e n = .ok (e', next)) :
    e'.threads = e.threads ++ [n] ∧ (next = .returnOK → e.threads = []) := by
  unfold Client.acquire at h
  split_ifs at h with hth
  · rw [hth]
    cases hs : e.state <;> simp [hs, Client.blockUntilGot, Client.blockUntilGotLoop] at h <;>
      simp [← h.1]
  · cases h
    exact ⟨rfl, by simp⟩

theorem wake_threads {w : Wait} (h : Client.wake e w = .ok (e', next)) :
    e'.threads = e.threads ∧ (next = .returnOK → w = .queued) := by
  unfold Client.wake Client.blockUntilGot Client.blockUntilGotLoop at h
  cases w with
  | released =>
    cases h
    exact ⟨rfl, nofun⟩
  | queued => cases hs : e.state <;> simp [hs] at h <;> simp [← h.1]
  | retry =>
    dsimp only at h
    split_ifs at h
    cases h
    exact ⟨rfl, nofun⟩

theorem blockUntilGotReply_threads {ret : Status}
    (h : Client.blockUntilGotReply e ret = .ok (e', next)) :
    e'.threads = e.threads := by
  unfold Client.blockUntilGotReply Client.blockUntilGotLoop at h
  cases ret with
  | ok =>
    cases h
    rfl
  | retry =>
    dsimp only at h
    split_ifs at h <;> cases h <;> rfl

theorem releaseFinish_threads {fromRevoked : Bool} {sig : Option QueuingThread}
    (h : Client.releaseFinish e fromRevoked = .ok (e', sig)) : e'.threads = e.threads.tail := by
  unfold Client.releaseFinish at h
  split at h
  case h_1 => cases h
  case h_2 hth =>
    cases h
    rw [hth]
    rfl
  case h_3 hth =>
    cases h
    rw [hth]
    rfl

/-! ## Who has had its turn -/

theorem Sys.queue_eq (h : s.client c = some e) : s.queue c = e.threads := by
  rw [queue, h]
  rfl

/-- A signal gives nobody a turn. -/
theorem Pc.signal_releasing {p : Pc} {r : RelPhase} :
    p.signal m = .releasing n r ↔ p = .releasing n r := by
  cases p <;> simp [Pc.signal]

theorem Sys.signal_serves {o : Option QueuingThread} :
    (s.signal c o).Serves a n ↔ s.Serves a n := by
  cases o with
  | none => rfl
  | some m =>
    unfold Serves
    rw [signal_held, signal_some_pc]
    split_ifs
    · simp only [Pc.signal_releasing]
    · rfl

/-- The front of the queue is the only thread that can have had its turn. -/
theorem Inv.serves (h : Inv s g) (hs : s.Serves a n) :
    n.tid = a.tid ∧ ∃ e, s.client a.client = some e ∧ e.threads.head? = some n ∧
      (s.pc a = .idle → e.state = .locked) ∧ e.state ≠ .acquiring ∧ e.state ≠ .none := by
  obtain hh | ⟨p, hp⟩ := hs
  · obtain ⟨hnt, e, he, hhd, hst⟩ := h.held a n hh
    exact ⟨hnt, e, he, hhd, fun _ => hst, by simp [hst], by simp [hst]⟩
  · have hpc := h.pc a
    rw [hp] at hpc
    obtain ⟨hnt, ⟨e, he, hhd, hst, -⟩, -⟩ := hpc
    exact ⟨hnt, e, he, hhd, by simp [hp], by simp [hst], by simp [hst]⟩

theorem Inv.serves_unique (h : Inv s g) (ha : s.Serves a n) (hb : s.Serves b m)
    (hc : a.client = b.client) : a = b ∧ n = m := by
  obtain ⟨hnt, e, he, hhd, -⟩ := h.serves ha
  obtain ⟨hmt, e', he', hhd', -⟩ := h.serves hb
  rw [hc, he'] at he
  cases he
  rw [hhd'] at hhd
  cases hhd
  exact ⟨Thread.ext hc (hnt.symm.trans hmt), rfl⟩

/-- A thread that waits does not hold the lock with the node it waits with. -/
def Sys.Fresh (s : Sys) : Prop := ∀ a w n b, s.pc a = .waiting w n b → s.held a ≠ some n

/-- What a step does to the queue of client `c`: it appends the first nodes, and `acquire` returns
with the second. -/
inductive Sys.Queues (s q : Sys) (c : String) : List QueuingThread → List QueuingThread → Prop
  /-- nobody's turn begins or ends -/
  | stay {ap : List QueuingThread} : q.queue c = s.queue c ++ ap →
      (∀ b m, b.client = c → (q.Serves b m ↔ s.Serves b m)) → Queues s q c ap []
  /-- it was nobody's turn, and now it is that of the front -/
  | turn {ap : List QueuingThread} {a : Thread} {n : QueuingThread} : q.queue c = s.queue c ++ ap →
      (q.queue c).head? = some n → (∀ b m, b.client = c → ¬ s.Serves b m) → a.client = c →
      q.Serves a n → Queues s q c ap [n]
  /-- the front has had its turn, and goes -/
  | leave {a : Thread} {n : QueuingThread} : s.queue c = n :: q.queue c → a.client = c →
      s.Serves a n → (∀ b m, b.client = c → ¬ q.Serves b m) → Queues s q c [] []

/-! ## One step -/

/-- A thread goes on in `acquire`: only the return gives it a turn. -/
theorem Sys.resume_serves (h : s.resume a n (.ok (e', next)) = .ok q)
    (hpc : ∀ m p, s.pc a ≠ .releasing m p) :
    (b ≠ a ∨ next ≠ .returnOK → (q.Serves b m ↔ s.Serves b m)) ∧
    (next = .returnOK → q.Serves a n) := by
  cases next with
  | returnOK =>
    cases h
    refine ⟨fun hb => ?_, fun _ => .inl (by simp)⟩
    have hb : b ≠ a := hb.resolve_right (by simp)
    simp [Serves, hb]
  | call =>
    cases h
    refine ⟨fun _ => ?_, nofun⟩
    by_cases hb : b = a
    · subst hb
      simp [Serves, hpc]
    · simp [Serves, hb]
  | wait w =>
    cases h
    refine ⟨fun _ => ?_, nofun⟩
    by_cases hb : b = a
    · subst hb
      simp [Serves, hpc]
    · simp [Serves, hb]

/-- A section of `acquire`, run by `a` with its node `n`. -/
theorem Inv.resume_queues (ap : List QueuingThread) (hq : s.resume a n (.ok (e', next)) = .ok q)
    (hpc : ∀ m p, s.pc a ≠ .releasing m p) (hth : e'.threads = s.queue a.client ++ ap)
    (hturn : next = .returnOK → e'.threads.head? = some n ∧
      ∀ b m, b.client = a.client → ¬ s.Serves b m)
    (c : String) :
    s.Queues q c (if a.client = c then ap else [])
      (if next = .returnOK ∧ a.client = c then [n] else []) := by
  have hclient : ∀ x, q.client x = (s.setClient a.client e').client x := by
    cases next <;> cases hq <;> exact fun _ => rfl
  by_cases hc : a.client = c
  · subst hc
    have hqueue : q.queue a.client = s.queue a.client ++ ap := by
      rw [← hth, Sys.queue, hclient, Sys.setClient_client, if_pos rfl]
      rfl
    rw [if_pos rfl]
    cases next with
    | returnOK =>
      obtain ⟨hhd, hno⟩ := hturn rfl
      rw [if_pos ⟨rfl, rfl⟩]
      exact .turn hqueue (by rw [hqueue, ← hth]; exact hhd) hno rfl
        ((Sys.resume_serves (b := a) (m := n) hq hpc).2 rfl)
    | call => exact .stay hqueue fun b m _ => (Sys.resume_serves hq hpc).1 (.inr (by simp))
    | wait w => exact .stay hqueue fun b m _ => (Sys.resume_serves hq hpc).1 (.inr (by simp))
  · have hqueue : q.queue c = s.queue c ++ [] := by
      rw [List.append_nil, Sys.queue, hclient, Sys.setClient_client, if_neg (Ne.symm hc), Sys.queue]
    have hserves : ∀ b m, b.client = c → (q.Serves b m ↔ s.Serves b m) := by
      intro b m hb
      exact (Sys.resume_serves hq hpc).1 (.inl (by rintro rfl; exact hc hb))
    rw [if_neg hc, if_neg fun h => hc h.2]
    exact .stay hqueue hserves

/-- `release` ends: the front goes, and nobody has a turn. -/
theorem Inv.leave_queues (h : Inv s g) (ha : s.Serves a n)
    (hq : q.queue a.client = (s.queue a.client).tail)
    (hother : ∀ x, x ≠ a.client → q.queue x = s.queue x)
    (hserves : ∀ b m, b ≠ a → (q.Serves b m ↔ s.Serves b m))
    (hgone : ∀ m, ¬ q.Serves a m) (c : String) :
    s.Queues q c [] [] := by
  by_cases hc : a.client = c
  · subst hc
    obtain ⟨-, e, he, hhd, -⟩ := h.serves ha
    refine .leave (n := n) ?_ rfl ha fun b m hb hm => ?_
    · rw [hq, Sys.queue_eq he, List.cons_head?_tail hhd]
    · by_cases hba : b = a
      · exact hgone m (hba ▸ hm)
      · exact hba (h.serves_unique ((hserves b m hba).mp hm) ha hb).1
  · refine .stay (by rw [List.append_nil, hother c (Ne.symm hc)]) fun b m hb => hserves b m ?_
    rintro rfl
    exact hc hb

/-- A step that changes no queue, and no turn. -/
theorem Sys.queues_of_same (hq : ∀ x, q.queue x = s.queue x)
    (hs : ∀ b m, q.Serves b m ↔ s.Serves b m) :
    s.Queues q c [] [] :=
  .stay (by rw [hq, List.append_nil]) fun b m _ => hs b m

theorem Sys.returned_eq {ev : Event}
    (h : s.inAcquire ev = some (a, n, .ok (e', next))) (c : String) :
    s.returned ev c = if next = .returnOK ∧ a.client = c then [n] else [] := by
  rw [returned, h]
  cases next <;> simp

/-- An empty queue, and one whose entry is being acquired, has nobody's turn. -/
theorem Inv.no_turn (h : Inv s g) (hq : s.queue c = []) : ∀ b m, b.client = c → ¬ s.Serves b m := by
  rintro b m rfl hs
  obtain ⟨-, e, he, hhd, -⟩ := h.serves hs
  rw [Sys.queue_eq he] at hq
  simp [hq] at hhd

theorem Inv.acquire_queues (h : Inv s g) {addr : ℕ}
    (hq : s.exec (.acquire a addr) = some (.ok q)) (c : String) :
    s.Queues q c (Event.appended c (.acquire a addr)) (s.returned (.acquire a addr) c) := by
  simp only [Sys.exec] at hq
  split at hq
  case isTrue hg =>
    have hq := Option.some.inj hq
    obtain ⟨e', next, hr, -⟩ := Sys.resume_client hq
    obtain ⟨hth, hempty⟩ := acquire_threads hr
    have hin : s.inAcquire (.acquire a addr) = some (a, ⟨a.tid, addr⟩, .ok (e', next)) := by
      rw [Sys.inAcquire, hr]
    rw [hr] at hq
    rw [Sys.returned_eq hin]
    refine Inv.resume_queues _ hq (by simp [hg.1]) hth (fun hn => ?_) c
    have hnil : s.queue a.client = [] := hempty hn
    refine ⟨?_, h.no_turn hnil⟩
    rw [hth, hempty hn]
    rfl
  case isFalse => cases hq

theorem Inv.wake_queues (h : Inv s g) (hf : s.Fresh)
    (hq : s.exec (.wake a) = some (.ok q)) (c : String) :
    s.Queues q c [] (s.returned (.wake a) c) := by
  simp only [Sys.exec] at hq
  split at hq
  case h_1 w n hpc =>
    have hq := Option.some.inj hq
    obtain ⟨e', next, hr, -⟩ := Sys.resume_client hq
    have hp := h.pc a
    rw [hpc] at hp
    obtain ⟨hnt, e, he, hw⟩ := hp
    have hwake : Client.wake e w = .ok (e', next) := by
      simpa [Sys.entry, he, bind, Except.bind] using hr
    obtain ⟨hth, hqueued⟩ := wake_threads hwake
    have hin : s.inAcquire (.wake a) = some (a, n, .ok (e', next)) := by
      simp only [Sys.inAcquire, hpc, hr]
    rw [hr] at hq
    rw [Sys.returned_eq hin]
    have hres := Inv.resume_queues [] hq (by simp [hpc])
      (by rw [hth, List.append_nil, Sys.queue_eq he]) (fun hn => ?_) c
    · rwa [ite_self] at hres
    · -- it was signalled behind the others, so it is at the front, and has not had its turn yet
      obtain rfl := hqueued hn
      obtain ⟨hhd, -⟩ := hw
      refine ⟨by rw [hth, hhd], fun b m hb hs => ?_⟩
      obtain ⟨hmt, e₁, he₁, hhd₁, -⟩ := h.serves hs
      rw [hb, he] at he₁
      cases he₁
      rw [hhd] at hhd₁
      cases hhd₁
      obtain rfl : b = a := Thread.ext hb (hmt.symm.trans hnt)
      obtain hh | ⟨p, hp⟩ := hs
      · exact hf b _ _ _ hpc hh
      · simp [hpc] at hp
  case h_2 => cases hq

theorem Inv.reply_queues (h : Inv s g) (hq : s.exec (.reply a) = some (.ok q)) (c : String) :
    s.Queues q c [] (s.returned (.reply a) c) := by
  simp only [Sys.exec] at hq
  split at hq
  case h_1 n ret hpc =>
    have hq := Option.some.inj hq
    obtain ⟨e', next, hr, -⟩ := Sys.resume_client hq
    have hp := h.pc a
    rw [hpc] at hp
    obtain ⟨hnt, ⟨e, he, hhd, hst⟩, -⟩ := hp
    have hreply : Client.blockUntilGotReply e ret = .ok (e', next) := by
      simpa [Sys.entry, he, bind, Except.bind] using hr
    have hth := blockUntilGotReply_threads hreply
    have hin : s.inAcquire (.reply a) = some (a, n, .ok (e', next)) := by
      simp only [Sys.inAcquire, hpc, hr]
    rw [hr] at hq
    rw [Sys.returned_eq hin]
    have hres := Inv.resume_queues [] hq (by simp [hpc])
      (by rw [hth, List.append_nil, Sys.queue_eq he]) (fun _ => ?_) c
    · rwa [ite_self] at hres
    · refine ⟨by rw [hth, hhd], fun b m hb hs => ?_⟩
      obtain ⟨-, e₁, he₁, -, -, hne, -⟩ := h.serves hs
      rw [hb, he] at he₁
      cases he₁
      exact hne hst
  case h_2 n tgt ret hpc =>
    have hret : s.returned (.reply a) c = [] := by simp only [Sys.returned, Sys.inAcquire, hpc]
    obtain ⟨e, he⟩ := h.revokeDone_entry hpc
    simp only [Sys.entry, he, Except.map, Client.revokeHandlerReply, Option.some.injEq,
      Except.ok.injEq] at hq
    subst hq
    rw [hret]
    refine Sys.queues_of_same (fun x => ?_) fun b m => ?_
    · simp only [Sys.queue, Sys.setPc_client, Sys.signal_client, Sys.setClient_client]
      split_ifs with hx
      · rw [hx, he]
        rfl
      · rfl
    · have hsig := Sys.signal_serves (s := s.setClient tgt { e with state := .none }) (c := tgt)
        (a := b) (n := m) (o := e.threads.head?)
      refine Iff.trans ?_ hsig
      by_cases hb : b = a
      · subst hb
        unfold Sys.Serves
        cases hhd : e.threads.head? <;> simp [hpc, Pc.signal]
      · simp [Sys.Serves, hb]
  case h_3 n hpc =>
    have hret : s.returned (.reply a) c = [] := by simp only [Sys.returned, Sys.inAcquire, hpc]
    have hp := h.pc a
    rw [hpc] at hp
    obtain ⟨hnt, ⟨e, he, hhd, hst, -⟩, -⟩ := hp
    cases hr : s.entry a.client >>= Client.releaseReply with
    | error f => simp [hr, Except.map] at hq
    | ok r =>
      obtain ⟨e', sig⟩ := r
      simp only [hr, Except.map, Option.some.injEq, Except.ok.injEq] at hq
      have htail : e'.threads = e.threads.tail := by
        simp only [Sys.entry, he, bind, Except.bind, Client.releaseReply] at hr
        have hth := releaseFinish_threads hr
        exact hth
      subst hq
      rw [hret]
      refine h.leave_queues (a := a) (n := n) (.inr ⟨_, hpc⟩) ?_ (fun x hx => ?_)
        (fun b m hb => ?_) (fun m => ?_) c
      · rw [Sys.queue_eq he]
        simp only [Sys.queue, Sys.setPc_client, Sys.signal_client, Sys.setClient_client, if_true]
        exact htail
      · simp only [Sys.queue, Sys.setPc_client, Sys.signal_client, Sys.setClient_client, if_neg hx]
      · have hsig := Sys.signal_serves (s := s.setClient a.client e') (c := a.client) (a := b)
          (n := m) (o := sig)
        refine Iff.trans ?_ hsig
        simp [Sys.Serves, hb]
      · rintro (hh | ⟨p, hp⟩)
        · have hh : s.held a = some m := hh
          obtain ⟨-, e₁, he₁, -, hl⟩ := h.held a m hh
          rw [he] at he₁
          cases he₁
          rw [hst] at hl
          cases hl
        · simp at hp
  case h_4 => cases hq

theorem Inv.release_queues (h : Inv s g) (hq : s.exec (.release a) = some (.ok q)) (c : String) :
    s.Queues q c [] [] := by
  simp only [Sys.exec] at hq
  split at hq
  case h_1 n hpc hh =>
    obtain ⟨hnt, e, he, hhd, hst⟩ := h.held a n hh
    cases hr : s.entry a.client >>= Client.release with
    | error f => simp [hr, Except.map] at hq
    | ok r =>
      obtain ⟨e', fin⟩ := r
      simp only [hr, Except.map, Option.some.injEq, Except.ok.injEq] at hq
      simp only [Sys.entry, he, bind, Except.bind, Client.release] at hr
      split_ifs at hr with hm
      · -- the lock goes back to the server first
        cases hr
        subst hq
        refine Sys.queues_of_same (fun x => ?_) fun b m => ?_
        · simp only [Sys.queue, Sys.setPc_client, Sys.setHeld_client, Sys.setClient_client]
          split_ifs with hx
          · rw [hx, he]
            rfl
          · rfl
        · by_cases hb : b = a
          · subst hb
            simp [Sys.Serves, hpc, hh]
          · simp [Sys.Serves, hb]
      · cases hfin : Client.releaseFinish { e with state := .free } false with
        | error f => simp [hfin, Except.map] at hr
        | ok r =>
          obtain ⟨e₁, sig⟩ := r
          simp only [hfin, Except.map, Except.ok.injEq, Prod.mk.injEq] at hr
          obtain ⟨rfl, rfl⟩ := hr
          have htail := releaseFinish_threads hfin
          subst hq
          have hsig : ∀ b m,
            (((s.setClient a.client e₁).setHeld a none).signal a.client sig).Serves b m ↔
              ((s.setClient a.client e₁).setHeld a none).Serves b m := fun _ _ => Sys.signal_serves
          refine h.leave_queues (a := a) (n := n) (.inl hh) ?_ (fun x hx => ?_)
            (fun b m hb => ?_) (fun m => ?_) c
          · rw [Sys.queue_eq he]
            simp only [Sys.queue, Sys.signal_client, Sys.setHeld_client,
              Sys.setClient_client, if_true]
            exact htail
          · simp only [Sys.queue, Sys.signal_client, Sys.setHeld_client,
              Sys.setClient_client, if_neg hx]
          · refine (hsig b m).trans ?_
            simp [Sys.Serves, hb]
          · rw [hsig]
            simp [Sys.Serves, hpc]
  case h_2 => cases hq

/-- A `release` call that gets on is still one. -/
theorem Pc.setRelease_releasing {p : Pc} {r : RelPhase} :
    (∃ r', p.setRelease r = .releasing n r') ↔ ∃ r', p = .releasing n r' := by
  cases p with
  | acquiring m p => cases p <;> simp [Pc.setRelease]
  | _ => simp [Pc.setRelease]

/-- A call that gets on changes no queue, and no turn. -/
theorem Sys.queues_setPc {t : Sys} {p : Pc} (hq : ∀ x, t.queue x = s.queue x)
    (ht : ∀ b m, t.Serves b m ↔ s.Serves b m)
    (hp : ∀ m, (∃ r, p = .releasing m r) ↔ ∃ r, t.pc a = .releasing m r) (c : String) :
    s.Queues (t.setPc a p) c [] [] := by
  refine queues_of_same hq fun b m => Iff.trans ?_ (ht b m)
  by_cases hb : b = a
  · subst hb
    unfold Serves
    rw [setPc_held, setPc_pc, if_pos rfl, hp]
  · simp [Serves, hb]

theorem Inv.serve_queues (hq : s.exec (.serve a) = some (.ok q)) (c : String) :
    s.Queues q c [] [] := by
  simp only [Sys.exec] at hq
  split at hq
  case h_1 n hpc =>
    cases hr : Server.acquire s.server a.client with
    | error f => simp [hr, Except.map] at hq
    | ok r =>
      simp only [hr, Except.map, Option.some.injEq, Except.ok.injEq] at hq
      subst hq
      refine Sys.queues_setPc (s := s) (t := s.setServer r.1) (fun _ => rfl)
        (fun _ _ => Iff.rfl) (fun m => ?_) c
      simp [hpc]
  case h_2 =>
    split at hq
    case h_1 x hrel =>
      cases hr : Server.release s.server x with
      | error f => simp [hr, Except.map] at hq
      | ok r =>
        simp only [hr, Except.map, Option.some.injEq, Except.ok.injEq] at hq
        subst hq
        refine Sys.queues_setPc (s := s) (t := s.setServer r.1) (fun _ => rfl) (fun _ _ => Iff.rfl)
          (fun m => ?_) c
        exact Pc.setRelease_releasing
    case h_2 => cases hq

theorem Inv.sendRevoke_queues (hq : s.exec (.sendRevoke a) = some (.ok q)) (c : String) :
    s.Queues q c [] [] := by
  simp only [Sys.exec] at hq
  split at hq
  case h_1 n hpc =>
    cases hq
    exact Sys.queues_setPc (fun _ => rfl) (fun _ _ => Iff.rfl) (by simp [hpc]) c
  case h_2 => cases hq

/-- An entry with the same queue. -/
theorem Sys.queue_setClient {x y : String} (he : s.client x = some e)
    (hth : e'.threads = e.threads) :
    (s.setClient x e').queue y = s.queue y := by
  simp only [queue, setClient_client]
  split_ifs with hy
  · rw [hy, he]
    exact hth
  · rfl

theorem Inv.revoke_queues (h : Inv s g) (hq : s.exec (.revoke a) = some (.ok q)) (c : String) :
    s.Queues q c [] [] := by
  simp only [Sys.exec] at hq
  split at hq
  case h_1 n tgt ret hpc =>
    obtain ⟨e, he⟩ := h.revoke_entry hpc
    simp only [Sys.entry, he, Except.map, Option.some.injEq, Except.ok.injEq] at hq
    have hth : (Client.revokeHandler e).1.threads = e.threads := by
      unfold Client.revokeHandler
      split_ifs <;> rfl
    subst hq
    exact Sys.queues_setPc (fun y => Sys.queue_setClient he hth) (fun _ _ => Iff.rfl)
      (by simp [hpc]) c
  case h_2 => cases hq

theorem Inv.retry_queues (h : Inv s g) (hq : s.exec (.retry a) = some (.ok q)) (c : String) :
    s.Queues q c [] [] := by
  simp only [Sys.exec] at hq
  split at hq
  case h_1 x next hrel =>
    obtain ⟨e, n, rest, he, hth⟩ := h.retry_entry hrel
    simp only [Sys.entry, he, bind, Except.bind, Client.retryHandler, hth, Except.map,
      Option.some.injEq, Except.ok.injEq] at hq
    subst hq
    have hqueue : ∀ y, (s.setClient next ⟨e.state, .retry, n :: rest⟩).queue y = s.queue y :=
      fun y => Sys.queue_setClient he hth.symm
    exact Sys.queues_setPc (a := a)
      (t := (s.setClient next ⟨e.state, .retry, n :: rest⟩).signal next (some n))
      hqueue (fun _ _ => Sys.signal_serves) (fun _ => Pc.setRelease_releasing) c
  case h_2 => cases hq

/-- **What one step does to a queue.** -/
theorem Inv.exec_queues (h : Inv s g) (hf : s.Fresh) {ev : Event}
    (hq : s.exec ev = some (.ok q)) (c : String) :
    s.Queues q c (ev.appended c) (s.returned ev c) := by
  cases ev with
  | acquire a addr => exact h.acquire_queues hq c
  | wake a => exact h.wake_queues hf hq c
  | release a => exact h.release_queues hq c
  | serve a => exact Inv.serve_queues hq c
  | sendRevoke a => exact Inv.sendRevoke_queues hq c
  | revoke a => exact h.revoke_queues hq c
  | retry a => exact h.retry_queues hq c
  | reply a => exact h.reply_queues hq c

/-! ## The nodes of waiting threads -/

theorem Sys.Fresh.setServer (h : s.Fresh) {se : Server.LockEntry} : (s.setServer se).Fresh := h

theorem Sys.Fresh.setClient (h : s.Fresh) : (s.setClient c e).Fresh := h

theorem Sys.Fresh.setHeld_none (h : s.Fresh) : (s.setHeld a none).Fresh := by
  intro b w m f hb hh
  rw [setHeld_held] at hh
  split_ifs at hh
  exact h b w m f hb hh

theorem Sys.Fresh.signal (h : s.Fresh) {o : Option QueuingThread} : (s.signal c o).Fresh := by
  intro b w m f hb hh
  cases o with
  | none => exact h b w m f hb hh
  | some k =>
    rw [signal_some_pc] at hb
    split_ifs at hb
    · cases hp : s.pc b with
      | waiting w' m' f' =>
        rw [hp] at hb
        cases hb
        exact h b w m f' hp hh
      | idle | acquiring | releasing =>
        rw [hp] at hb
        cases hb
    · exact h b w m f hb hh

/-- A thread that does not begin to wait. -/
theorem Sys.Fresh.setPc (h : s.Fresh) {p : Pc} (hp : ∀ w m f, p = .waiting w m f → s.pc a = p) :
    (s.setPc a p).Fresh := by
  intro b w m f hb hh
  rw [setPc_pc] at hb
  split_ifs at hb with hba
  · subst hba
    exact h b w m f ((hp w m f hb).trans hb) hh
  · exact h b w m f hb hh

/-- A `release` call that gets on is no wait. -/
theorem Sys.Fresh.setRelease (h : s.Fresh) {r : RelPhase} :
    (s.setPc a ((s.pc a).setRelease r)).Fresh := by
  refine h.setPc fun w m f hp => ?_
  cases hpc : s.pc a with
  | acquiring n p => cases p <;> simp [hpc, Pc.setRelease] at hp
  | releasing => simp [hpc, Pc.setRelease] at hp
  | idle | waiting => rfl

theorem Sys.Fresh.resume (h : s.Fresh) {r : Except Fault (Client.LockEntry × Client.Next)}
    (hheld : s.held a ≠ some n) (hq : s.resume a n r = .ok q) : q.Fresh := by
  cases r with
  | error f => cases hq
  | ok r =>
    obtain ⟨e', next⟩ := r
    intro b w m f hb hh
    by_cases hba : b = a
    · subst hba
      cases next with
      | returnOK =>
        cases hq
        simp at hb
      | call =>
        cases hq
        simp at hb
      | wait w' =>
        cases hq
        simp only [setPc_pc, if_true] at hb
        cases hb
        exact hheld hh
    · refine h b w m f ?_ ?_
      · cases next <;> cases hq <;> simpa [hba] using hb
      · cases next <;> cases hq <;> simpa [hba] using hh

/-- A thread that gets into a queue has a new node. -/
theorem Inv.exec_fresh (h : Inv s g) (hf : s.Fresh) {ev : Event}
    (hq : s.exec ev = some (.ok q)) : q.Fresh := by
  cases ev with
  | acquire a addr =>
    simp only [Sys.exec] at hq
    split at hq
    case isTrue hg =>
      refine hf.resume (fun hh => hg.2.2 ?_) (Option.some.inj hq)
      obtain ⟨-, e, he, hhd, -⟩ := h.held a _ hh
      rw [he]
      exact List.mem_of_mem_head? hhd
    case isFalse => cases hq
  | wake a =>
    simp only [Sys.exec] at hq
    split at hq
    case h_1 w n hpc => exact hf.resume (hf a w n true hpc) (Option.some.inj hq)
    case h_2 => cases hq
  | release a =>
    simp only [Sys.exec] at hq
    split at hq
    case h_1 n hpc hh =>
      cases hr : s.entry a.client >>= Client.release with
      | error f => simp [hr, Except.map] at hq
      | ok r =>
        obtain ⟨e', fin⟩ := r
        simp only [hr, Except.map, Option.some.injEq, Except.ok.injEq] at hq
        cases fin with
        | none =>
          subst hq
          exact hf.setClient.setHeld_none.setPc (by simp)
        | some sig =>
          subst hq
          exact hf.setClient.setHeld_none.signal
    case h_2 => cases hq
  | serve a =>
    simp only [Sys.exec] at hq
    split at hq
    case h_1 n hpc =>
      cases hr : Server.acquire s.server a.client with
      | error f => simp [hr, Except.map] at hq
      | ok r =>
        simp only [hr, Except.map, Option.some.injEq, Except.ok.injEq] at hq
        subst hq
        exact hf.setServer.setPc (by simp)
    case h_2 =>
      split at hq
      case h_1 x hrel =>
        cases hr : Server.release s.server x with
        | error f => simp [hr, Except.map] at hq
        | ok r =>
          simp only [hr, Except.map, Option.some.injEq, Except.ok.injEq] at hq
          subst hq
          exact hf.setServer.setRelease
      case h_2 => cases hq
  | sendRevoke a =>
    simp only [Sys.exec] at hq
    split at hq
    case h_1 n hpc =>
      cases hq
      exact hf.setPc (by simp)
    case h_2 => cases hq
  | revoke a =>
    simp only [Sys.exec] at hq
    split at hq
    case h_1 n tgt ret hpc =>
      cases hr : s.entry tgt with
      | error f => simp [hr, Except.map] at hq
      | ok e =>
        simp only [hr, Except.map, Option.some.injEq, Except.ok.injEq] at hq
        subst hq
        exact hf.setClient.setPc (by simp)
    case h_2 => cases hq
  | retry a =>
    simp only [Sys.exec] at hq
    split at hq
    case h_1 x next hrel =>
      cases hr : s.entry next >>= Client.retryHandler with
      | error f => simp [hr, Except.map] at hq
      | ok r =>
        obtain ⟨e', n⟩ := r
        simp only [hr, Except.map, Option.some.injEq, Except.ok.injEq] at hq
        subst hq
        exact hf.setClient.signal.setRelease
    case h_2 => cases hq
  | reply a =>
    simp only [Sys.exec] at hq
    split at hq
    case h_1 n ret hpc =>
      refine hf.resume (fun hh => ?_) (Option.some.inj hq)
      have hp := h.pc a
      rw [hpc] at hp
      obtain ⟨-, ⟨e, he, -, hst⟩, -⟩ := hp
      obtain ⟨-, e', he', -, hl⟩ := h.held a n hh
      rw [he] at he'
      cases he'
      rw [hst] at hl
      cases hl
    case h_2 n tgt ret hpc =>
      cases hr : s.entry tgt with
      | error f => simp [hr, Except.map] at hq
      | ok e =>
        simp only [hr, Except.map, Client.revokeHandlerReply, Option.some.injEq,
          Except.ok.injEq] at hq
        subst hq
        exact hf.setClient.signal.setPc (by simp)
    case h_3 n hpc =>
      cases hr : s.entry a.client >>= Client.releaseReply with
      | error f => simp [hr, Except.map] at hq
      | ok r =>
        obtain ⟨e', sig⟩ := r
        simp only [hr, Except.map, Option.some.injEq, Except.ok.injEq] at hq
        subst hq
        exact hf.setClient.signal.setPc (by simp)
    case h_4 => cases hq

/-! ## The order -/

/-- The queue is what was appended and has not returned, behind the thread whose turn it is. -/
def Fifo (s : Sys) (c : String) (r : Record) : Prop :=
  ∃ pending, r.appended = r.returned ++ pending ∧
    (s.queue c = pending ∧ (∀ b m, b.client = c → ¬ s.Serves b m) ∨
      ∃ a n, a.client = c ∧ s.Serves a n ∧ s.queue c = n :: pending)

theorem Fifo.step {r : Record} {ap ret : List QueuingThread} (hfifo : Fifo s c r)
    (hq : s.Queues q c ap ret) : Fifo q c ⟨r.appended ++ ap, r.returned ++ ret⟩ := by
  obtain ⟨pending, happ, hcase⟩ := hfifo
  cases hq with
  | stay hqueue hserves =>
    refine ⟨pending ++ ap, ?_, ?_⟩
    · show r.appended ++ ap = (r.returned ++ []) ++ (pending ++ ap)
      rw [happ, List.append_nil, List.append_assoc]
    · rcases hcase with ⟨hp, hno⟩ | ⟨a, n, ha, hs, hp⟩
      · exact .inl ⟨by rw [hqueue, hp], fun b m hb hm => hno b m hb ((hserves b m hb).mp hm)⟩
      · exact .inr ⟨a, n, ha, (hserves a n ha).mpr hs, by rw [hqueue, hp, List.cons_append]⟩
  | @turn _ a n hqueue hhd hno ha hs =>
    obtain ⟨hp, -⟩ | ⟨a', n', ha', hs', -⟩ := hcase
    · obtain ⟨rest, hrest⟩ := List.head?_eq_some_iff.mp hhd
      refine ⟨rest, ?_, .inr ⟨a, n, ha, hs, hrest⟩⟩
      show r.appended ++ ap = (r.returned ++ [n]) ++ rest
      rw [happ, List.append_assoc, ← hp, ← hqueue, hrest, List.append_assoc]
      rfl
    · exact absurd hs' (hno a' n' ha')
  | @leave a n hqueue ha hs hno =>
    obtain ⟨-, hno'⟩ | ⟨a', n', ha', hs', hp⟩ := hcase
    · exact absurd hs (hno' a n ha)
    · refine ⟨pending, ?_, .inl ⟨?_, hno⟩⟩
      · show r.appended ++ [] = (r.returned ++ []) ++ pending
        rw [happ, List.append_nil, List.append_nil]
      · rw [hqueue] at hp
        exact (List.cons.inj hp).2

end Step

/-! ## All runs -/

/-- The service, with the records of every lock id. -/
abbrev Traced := LockId → Sys × (String → Record)

namespace Traced

/-- No lock id was ever used. -/
def Init (x : Traced) : Prop := ∀ lid, x lid = ({}, fun _ => {})

/-- One section runs, for one lock id, and is recorded. -/
def Step (x x' : Traced) : Prop :=
  ∃ lid ev q, State.MayCall (fun l => (x l).1) ev ∧ (x lid).1.exec ev = some (.ok q) ∧
    x' = Function.update x lid (q, (x lid).1.record ev (x lid).2)

/-- Run events one after another for one lock id. -/
def run (y : Sys × (String → Record)) : List Event → Option (Sys × (String → Record))
  | [] => some y
  | ev :: evs =>
    match y.1.exec ev with
    | some (.ok q) => run (q, y.1.record ev y.2) evs
    | _ => none

theorem reachable_of_run (lid : LockId) {evs : List Event} {y : Sys × (String → Record)}
    (h : run ({}, fun _ => {}) evs = some y) :
    Reachable Init Step (Function.update (fun _ => ({}, fun _ => {})) lid y) := by
  have hgen : ∀ evs (y₀ : Sys × (String → Record)),
      Reachable Init Step (Function.update (fun _ => ({}, fun _ => {})) lid y₀) →
        run y₀ evs = some y →
      Reachable Init Step (Function.update (fun _ => ({}, fun _ => {})) lid y) := by
    intro evs
    induction evs with
    | nil =>
      intro y₀ h₀ hy
      cases hy
      exact h₀
    | cons ev evs ih =>
      intro y₀ h₀ hy
      simp only [run] at hy
      split at hy
      case h_1 q hex =>
        refine ih _ (h₀.next ⟨lid, ev, q, ?_, by simpa using hex, by simp⟩) hy
        have hmay := mayCall_of_exec lid hex
        convert hmay using 2 with l
        by_cases hl : l = lid
        · subst hl
          simp
        · simp [hl]
      case h_2 => cases hy
  refine hgen evs _ (.start fun lid' => ?_) h
  by_cases hl : lid' = lid
  · rw [hl, Function.update_self]
  · rw [Function.update_of_ne hl]

/-- To keep records hinders nobody. -/
theorem exists_of_reachable {s : State} (h : Reachable Lock.Init Lock.Step s) :
    ∃ x : Traced, Reachable Init Step x ∧ ∀ lid, (x lid).1 = s lid := by
  induction h with
  | start h => exact ⟨fun _ => ({}, fun _ => {}), .start fun _ => rfl, fun lid => (h lid).symm⟩
  | @next s s' _ hstep ih =>
    obtain ⟨x, hx, hxs⟩ := ih
    obtain ⟨lid, ev, q, hmay, hex, rfl⟩ := hstep
    have hmay' : State.MayCall (fun l => (x l).1) ev := by
      rwa [show (fun l => (x l).1) = s from funext hxs]
    refine ⟨_, hx.next ⟨lid, ev, q, hmay', by rw [hxs, hex], rfl⟩, fun l => ?_⟩
    by_cases hl : l = lid
    · subst hl
      rw [Function.update_self, Function.update_self]
    · rw [Function.update_of_ne hl, Function.update_of_ne hl, hxs]

/-- **The queues are in order in every reachable state.** -/
theorem fifo_reachable {x : Traced} (h : Reachable Init Step x) (lid : LockId) :
    ∃ g, Inv (x lid).1 g ∧ ∀ c, Fifo (x lid).1 c ((x lid).2 c) := by
  have hc := Reachable.component (I := fun y : Sys × (String → Record) => y = ({}, fun _ => {}))
    (S := fun y y' : Sys × (String → Record) => ∃ ev q, y.1.exec ev = some (.ok q) ∧
      y' = (q, y.1.record ev y.2))
    (fun x x' hs => by
      obtain ⟨lid, ev, q, -, hq, rfl⟩ := hs
      exact ⟨lid, _, ⟨ev, q, hq, rfl⟩, rfl⟩) h lid
  have hall := hc.invariant
    (I := fun y => (∃ g, Inv y.1 g) ∧ y.1.Fresh ∧ ∀ c, Fifo y.1 c (y.2 c)) ?_ ?_
  · exact ⟨hall.1.choose, hall.1.choose_spec, hall.2.2⟩
  · rintro y rfl
    refine ⟨⟨{}, inv_init⟩, nofun, fun c => ⟨[], rfl, .inl ⟨rfl, fun b m _ hm => ?_⟩⟩⟩
    obtain hm | ⟨p, hm⟩ := hm <;> cases hm
  · rintro y y' ⟨⟨g, hg⟩, hfresh, hfifo⟩ ⟨ev, q, hq, rfl⟩
    obtain ⟨q', g', hq', hg'⟩ := hg.exec_ok hq
    cases hq'
    exact ⟨⟨g', hg'⟩, hg.exec_fresh hfresh hq, fun c => (hfifo c).step (hg.exec_queues hfresh hq c)⟩

end Traced

section Main

/-- **Hand-over in order.** In every reachable state, for every client and lock id: a thread that
holds the lock, or has a call of `acquire` or `release` at the server, is the front of its
client's queue; a `FREE` entry has an empty queue; `release` deletes the node of the thread
that called it; and the calls of `acquire` have returned in the order in which their nodes were
appended, and those that have not are in the queue in that order. -/
theorem hand_over {x : Traced} (h : Reachable Traced.Init Traced.Step x)
    (lid : LockId) (c : String) :
    (∀ a n, a.client = c → ((x lid).1.held a = some n ∨ (∃ p, (x lid).1.pc a = .acquiring n p) ∨
      ∃ p, (x lid).1.pc a = .releasing n p) → ((x lid).1.queue c).head? = some n ∧ n.tid = a.tid) ∧
    (∀ e, (x lid).1.client c = some e → e.state = .free → e.threads = []) ∧
    (∀ ev a n m, a.client = c → (x lid).1.Deletes ev a n m → m = n ∧ n.tid = a.tid) ∧
    ((x lid).2 c).returned <+: ((x lid).2 c).appended ∧ Fifo (x lid).1 c ((x lid).2 c) := by
  obtain ⟨g, hg, hfifo⟩ := Traced.fifo_reachable h lid
  have hfront : ∀ a n, a.client = c →
    ((x lid).1.held a = some n ∨ (∃ p, (x lid).1.pc a = .acquiring n p) ∨
      ∃ p, (x lid).1.pc a = .releasing n p) → ((x lid).1.queue c).head? = some n ∧
        n.tid = a.tid := by
    rintro a n rfl (hh | ⟨p, hp⟩ | ⟨p, hp⟩)
    · obtain ⟨hnt, e, he, hhd, -⟩ := hg.serves (.inl hh)
      exact ⟨by rw [Sys.queue_eq he, hhd], hnt⟩
    · have hpc := hg.pc a
      rw [hp] at hpc
      obtain ⟨hnt, ⟨e, he, hhd, -⟩, -⟩ := hpc
      exact ⟨by rw [Sys.queue_eq he, hhd], hnt⟩
    · obtain ⟨hnt, e, he, hhd, -⟩ := hg.serves (.inr ⟨p, hp⟩)
      exact ⟨by rw [Sys.queue_eq he, hhd], hnt⟩
  refine ⟨hfront, fun e he hfree => ?_, fun ev a n m ha hd => ?_, ?_, hfifo c⟩
  · have hen := hg.entry c
    rw [hg.stage_of_locked he (.inr hfree), he] at hen
    obtain ⟨e', he', hor⟩ := hen
    cases he'
    obtain ⟨hl, -⟩ | ⟨-, -, hth⟩ := hor
    · rw [hfree] at hl
      cases hl
    · exact hth
  · obtain ⟨e, he, hhd, hev⟩ := hd
    have hcall : (x lid).1.held a = some n ∨ (∃ p, (x lid).1.pc a = .acquiring n p) ∨
        ∃ p, (x lid).1.pc a = .releasing n p := by
      obtain ⟨-, -, hh, -⟩ | ⟨-, hp⟩ := hev
      · exact .inl hh
      · exact .inr (.inr ⟨_, hp⟩)
    obtain ⟨hn, hnt⟩ := hfront a n ha hcall
    rw [← ha, Sys.queue_eq he, hhd] at hn
    exact ⟨Option.some.inj hn, hnt⟩
  · obtain ⟨pending, happ, -⟩ := hfifo c
    exact ⟨pending, happ.symm⟩

/-- A thread has to give the lock back to the server while another one of its client waits; that one
asks for it again. -/
theorem hand_over_revoked : ∃ x : Traced, Reachable Traced.Init Traced.Step x ∧
    ((x 1).1.queue "127.0.0.1:1").head? = some ⟨1, 0⟩ ∧
    ((x 1).2 "127.0.0.1:1").returned <+: [⟨0, 0⟩, ⟨1, 0⟩] := by
  have hrun : (Traced.run ({}, fun _ => {})
    ([.acquire ⟨"127.0.0.1:1", 0⟩ 0, .serve ⟨"127.0.0.1:1", 0⟩,
      .reply ⟨"127.0.0.1:1", 0⟩, .acquire ⟨"127.0.0.1:1", 1⟩ 0, .acquire ⟨"127.0.0.1:2", 0⟩ 0,
      .serve ⟨"127.0.0.1:2", 0⟩, .sendRevoke ⟨"127.0.0.1:2", 0⟩, .revoke ⟨"127.0.0.1:2", 0⟩,
      .reply ⟨"127.0.0.1:2", 0⟩, .release ⟨"127.0.0.1:1", 0⟩, .serve ⟨"127.0.0.1:1", 0⟩,
      .retry ⟨"127.0.0.1:1", 0⟩, .reply ⟨"127.0.0.1:1", 0⟩, .wake ⟨"127.0.0.1:1", 1⟩])).map
      (fun y => (y.1.pc ⟨"127.0.0.1:1", 1⟩, y.2 "127.0.0.1:1")) =
        some (.acquiring ⟨1, 0⟩ .req, ⟨[⟨0, 0⟩, ⟨1, 0⟩], [⟨0, 0⟩]⟩) := by decide
  obtain ⟨y, hy, hyp⟩ := Option.map_eq_some_iff.mp hrun
  obtain ⟨hpc, hlog⟩ := Prod.mk.inj hyp
  have hr := Traced.reachable_of_run 1 hy
  obtain ⟨hfront, -, -, horder, -⟩ := hand_over hr 1 "127.0.0.1:1"
  rw [Function.update_self] at hfront horder
  refine ⟨_, hr, ?_, ?_⟩
  · rw [Function.update_self]
    exact (hfront ⟨"127.0.0.1:1", 1⟩ ⟨1, 0⟩ rfl (.inr (.inl ⟨_, hpc⟩))).1
  · rw [Function.update_self]
    rwa [show (y.2 "127.0.0.1:1").appended = [⟨0, 0⟩, ⟨1, 0⟩] by rw [hlog]] at horder

end Main

end Yfs.Lock
