import Yfs.Lock.System

/-!
# The steps of the system, one by one

`Sys.exec` ends well only in one of the ways that `Sys.Steps` lists, each with the section that
was run and what it returned. Proofs about a step go by cases on it.
-/

namespace Yfs.Lock

open Client (QueuingThread Wait)

namespace Sys

/-- The entry of a client, or the one that `acquire` makes. -/
def ent (s : Sys) (c : String) : Client.LockEntry := (s.client c).getD {}

/-- The server's entry, or the one that it makes. -/
def srv (s : Sys) : Server.LockEntry := s.server.getD {}

@[simp, grind =] theorem setServer_srv (s : Sys) (e : Server.LockEntry) :
    (s.setServer e).srv = e := rfl

@[simp, grind =] theorem setClient_srv (s : Sys) (c : String) (e : Client.LockEntry) :
    (s.setClient c e).srv = s.srv := rfl

@[simp, grind =] theorem setPc_srv (s : Sys) (a : Thread) (p : Pc) :
    (s.setPc a p).srv = s.srv := rfl

@[simp, grind =] theorem setHeld_srv (s : Sys) (a : Thread) (n : Option QueuingThread) :
    (s.setHeld a n).srv = s.srv := rfl

@[simp, grind =] theorem signal_srv (s : Sys) (c : String) (n : Option QueuingThread) :
    (s.signal c n).srv = s.srv := rfl

@[simp, grind =] theorem setServer_ent (s : Sys) (e : Server.LockEntry) (x : String) :
    (s.setServer e).ent x = s.ent x := rfl

@[simp, grind =] theorem setClient_ent (s : Sys) (c x : String) (e : Client.LockEntry) :
    (s.setClient c e).ent x = if x = c then e else s.ent x := by
  unfold ent
  rw [setClient_client]
  split <;> rfl

@[simp, grind =] theorem setPc_ent (s : Sys) (a : Thread) (p : Pc) (x : String) :
    (s.setPc a p).ent x = s.ent x := rfl

@[simp, grind =] theorem setHeld_ent (s : Sys) (a : Thread)
    (n : Option QueuingThread) (x : String) :
    (s.setHeld a n).ent x = s.ent x := rfl

@[simp, grind =] theorem signal_ent (s : Sys) (c : String) (n : Option QueuingThread) (x : String) :
    (s.signal c n).ent x = s.ent x := rfl

theorem ent_eq {s : Sys} {c : String} {e : Client.LockEntry} (h : s.client c = some e) :
    s.ent c = e := by
  rw [ent, h]
  rfl

end Sys

/-- What a step that ends well does: one section of one party, run by one activity. -/
inductive Sys.Steps (s : Sys) : Event → Sys → Prop where
  | acquire {a : Thread} {addr : ℕ} {r : Client.LockEntry × Client.Next} {q : Sys}
      (hpc : s.pc a = .idle) (hne : a.client ≠ "")
      (hnew : (⟨a.tid, addr⟩ : QueuingThread) ∉ ((s.client a.client).getD {}).threads)
      (hr : Client.acquire ((s.client a.client).getD {}) ⟨a.tid, addr⟩ = .ok r)
      (hq : s.resume a ⟨a.tid, addr⟩ (.ok r) = .ok q) : s.Steps (.acquire a addr) q
  | wake {a : Thread} {w : Wait} {n : QueuingThread} {e : Client.LockEntry}
      {r : Client.LockEntry × Client.Next} {q : Sys} (hpc : s.pc a = .waiting w n true)
      (he : s.client a.client = some e) (hr : Client.wake e w = .ok r)
      (hq : s.resume a n (.ok r) = .ok q) : s.Steps (.wake a) q
  | release {a : Thread} {n : QueuingThread} {e e' : Client.LockEntry} (hpc : s.pc a = .idle)
      (hh : s.held a = some n)
      (he : s.client a.client = some e) (hr : Client.release e = .ok (e', none)) :
      s.Steps (.release a) (((s.setClient a.client e').setHeld a none).setPc a (.releasing n .req))
  | leave {a : Thread} {n : QueuingThread} {e e' : Client.LockEntry} {sig : Option QueuingThread}
      (hpc : s.pc a = .idle)
      (hh : s.held a = some n) (he : s.client a.client = some e)
      (hr : Client.release e = .ok (e', some sig)) :
      s.Steps (.release a) (((s.setClient a.client e').setHeld a none).signal a.client sig)
  | serveAcquire {a : Thread} {n : QueuingThread} {se : Server.LockEntry} {next : Server.Next}
      (hpc : s.pc a = .acquiring n .req) (hr : Server.acquire s.server a.client = .ok (se, next)) :
      s.Steps (.serve a) ((s.setServer se).setPc a (.acquiring n next.phase))
  | serveRelease {a : Thread} {x next : String} {se : Server.LockEntry}
      (hpc : (s.pc a).release? a.client = some (x, .req))
      (hr : Server.release s.server x = .ok (se, next)) :
      s.Steps (.serve a) ((s.setServer se).setPc a ((s.pc a).setRelease (.retryReq next)))
  | sendRevoke {a : Thread} {n : QueuingThread} (hpc : s.pc a = .acquiring n .revSend) :
      s.Steps (.sendRevoke a) (s.setPc a (.acquiring n (.revReq (s.server.getD {}).owner .retry)))
  | revoke {a : Thread} {n : QueuingThread} {tgt : String} {ret : Status} {e : Client.LockEntry}
      (hpc : s.pc a = .acquiring n (.revReq tgt ret)) (he : s.client tgt = some e) :
      s.Steps (.revoke a) ((s.setClient tgt (Client.revokeHandler e).1).setPc a
        (.acquiring n (if (Client.revokeHandler e).2 then .revRel tgt ret .req else .rep ret)))
  | retry {a : Thread} {x next : String} {n : QueuingThread} {e e' : Client.LockEntry}
      (hpc : (s.pc a).release? a.client = some (x, .retryReq next)) (he : s.client next = some e)
      (hr : Client.retryHandler e = .ok (e', n)) :
      s.Steps (.retry a)
        (((s.setClient next e').signal next (some n)).setPc a ((s.pc a).setRelease .rep))
  | replyAcquire {a : Thread} {n : QueuingThread} {ret : Status} {e : Client.LockEntry}
      {r : Client.LockEntry × Client.Next} {q : Sys} (hpc : s.pc a = .acquiring n (.rep ret))
      (he : s.client a.client = some e) (hr : Client.blockUntilGotReply e ret = .ok r)
      (hq : s.resume a n (.ok r) = .ok q) : s.Steps (.reply a) q
  | replyRevoke {a : Thread} {n : QueuingThread} {tgt : String} {ret : Status}
      {e : Client.LockEntry}
      (hpc : s.pc a = .acquiring n (.revRel tgt ret .rep)) (he : s.client tgt = some e) :
      s.Steps (.reply a) (((s.setClient tgt (Client.revokeHandlerReply e).1).signal tgt
        (Client.revokeHandlerReply e).2).setPc a (.acquiring n (.rep ret)))
  | replyRelease {a : Thread} {n : QueuingThread} {e e' : Client.LockEntry}
      {sig : Option QueuingThread} (hpc : s.pc a = .releasing n .rep)
      (he : s.client a.client = some e) (hr : Client.releaseReply e = .ok (e', sig)) :
      s.Steps (.reply a) (((s.setClient a.client e').signal a.client sig).setPc a .idle)

/-- `pthread_cond_signal` does not reach an activity that is in a call. -/
theorem Pc.signal_release {p : Pc} {c : String} {n : QueuingThread} {x : String × RelPhase}
    (h : p.release? c = some x) : p.signal n = p := by
  cases p with
  | waiting => cases h
  | _ => rfl

theorem Sys.entry_ok {s : Sys} {c : String} {e : Client.LockEntry} (h : s.entry c = .ok e) :
    s.client c = some e := by
  unfold entry at h
  split at h
  case h_1 => cases h
  case h_2 he =>
    cases h
    exact he

theorem Sys.resume_ok {s q : Sys} {a : Thread} {n : QueuingThread} {β : Type} {x : Except Fault β}
    {f : β → Except Fault (Client.LockEntry × Client.Next)} (h : s.resume a n (x >>= f) = .ok q) :
    ∃ e r, x = .ok e ∧ f e = .ok r ∧ s.resume a n (.ok r) = .ok q := by
  cases x with
  | error f => cases h
  | ok e =>
    cases hr : f e with
    | error g =>
      simp only [bind, Except.bind, hr] at h
      cases h
    | ok r =>
      simp only [bind, Except.bind, hr] at h
      exact ⟨e, r, rfl, hr, h⟩

/-- A value that went through without a fault. -/
theorem map_eq_ok {α β : Type} {x : Except Fault α} {f : α → β} {y : β}
    (h : some (x.map f) = some (.ok y)) :
    ∃ r, x = .ok r ∧ f r = y := by
  cases x with
  | error g => simp [Except.map] at h
  | ok r => exact ⟨r, rfl, by simpa [Except.map] using h⟩

theorem bind_eq_ok {α β : Type} {x : Except Fault α} {f : α → Except Fault β} {y : β}
    (h : x >>= f = .ok y) :
    ∃ r, x = .ok r ∧ f r = .ok y := by
  cases x with
  | error g => cases h
  | ok r => exact ⟨r, rfl, h⟩

/-- **Every step is one of these.** -/
theorem Sys.steps_of_exec {s q : Sys} {ev : Event} (h : s.exec ev = some (.ok q)) :
    s.Steps ev q := by
  cases ev with
  | acquire a addr =>
    simp only [exec] at h
    split_ifs at h with hg
    obtain ⟨hpc, hne, hnew⟩ := hg
    cases hr : Client.acquire ((s.client a.client).getD {}) ⟨a.tid, addr⟩ with
    | error f =>
      rw [hr] at h
      cases h
    | ok r =>
      rw [hr] at h
      exact .acquire hpc hne hnew hr (Option.some.inj h)
  | wake a =>
    simp only [exec] at h
    split at h
    case h_1 w n hpc =>
      obtain ⟨e, r, he, hr, hq⟩ := resume_ok (Option.some.inj h)
      exact .wake hpc (entry_ok he) hr hq
    case h_2 => cases h
  | release a =>
    simp only [exec] at h
    split at h
    case h_1 n hpc hh =>
      obtain ⟨⟨e', fin⟩, hr, rfl⟩ := map_eq_ok h
      obtain ⟨e, he, hr⟩ := bind_eq_ok hr
      cases fin with
      | none => exact .release hpc hh (entry_ok he) hr
      | some sig => exact .leave hpc hh (entry_ok he) hr
    case h_2 => cases h
  | serve a =>
    simp only [exec] at h
    split at h
    case h_1 n hpc =>
      obtain ⟨⟨se, next⟩, hr, rfl⟩ := map_eq_ok h
      exact .serveAcquire hpc hr
    case h_2 =>
      split at h
      case h_1 x hpc =>
        obtain ⟨⟨se, next⟩, hr, rfl⟩ := map_eq_ok h
        exact .serveRelease hpc hr
      case h_2 => cases h
  | sendRevoke a =>
    simp only [exec] at h
    split at h
    case h_1 n hpc =>
      cases h
      exact .sendRevoke hpc
    case h_2 => cases h
  | revoke a =>
    simp only [exec] at h
    split at h
    case h_1 n tgt ret hpc =>
      obtain ⟨r, hr, rfl⟩ := map_eq_ok h
      cases he : s.entry tgt with
      | error f =>
        rw [he] at hr
        cases hr
      | ok e =>
        rw [he] at hr
        cases hr
        exact .revoke hpc (entry_ok he)
    case h_2 => cases h
  | retry a =>
    simp only [exec] at h
    split at h
    case h_1 x next hpc =>
      obtain ⟨⟨e', n⟩, hr, rfl⟩ := map_eq_ok h
      obtain ⟨e, he, hr⟩ := bind_eq_ok hr
      dsimp only
      rw [signal_some_pc, setClient_pc, Pc.signal_release hpc, ite_self]
      exact .retry hpc (entry_ok he) hr
    case h_2 => cases h
  | reply a =>
    simp only [exec] at h
    split at h
    case h_1 n ret hpc =>
      obtain ⟨e, r, he, hr, hq⟩ := resume_ok (Option.some.inj h)
      exact .replyAcquire hpc (entry_ok he) hr hq
    case h_2 n tgt ret hpc =>
      obtain ⟨e, he, rfl⟩ := map_eq_ok h
      exact .replyRevoke hpc (entry_ok he)
    case h_3 n hpc =>
      obtain ⟨⟨e', sig⟩, hr, rfl⟩ := map_eq_ok h
      obtain ⟨e, he, hr⟩ := bind_eq_ok hr
      exact .replyRelease hpc (entry_ok he) hr
    case h_4 => cases h

/-- The end of `release`: the front is dropped, and who is the front then is signalled. -/
theorem releaseFinish_spec {e e' : Client.LockEntry} {fromRevoked : Bool}
    {sig : Option QueuingThread}
    (h : Client.releaseFinish e fromRevoked = .ok (e', sig)) : e'.threads = e.threads.tail ∧
      sig = e'.threads.head? ∧ e'.message = e.message ∧
      (e'.threads = [] ∧ e'.state = e.state ∨ e'.threads ≠ [] ∧
        e'.state = if fromRevoked then e.state else .locked) := by
  unfold Client.releaseFinish at h
  split at h
  case h_1 => cases h
  case h_2 hth =>
    cases h
    rw [hth]
    exact ⟨rfl, rfl, rfl, .inl ⟨rfl, rfl⟩⟩
  case h_3 hth =>
    cases h
    rw [hth]
    exact ⟨rfl, rfl, rfl, .inr ⟨nofun, rfl⟩⟩

/-! ## What a step writes into the message slots -/

section Messages

variable {s q : Sys} {a : Thread} {n : QueuingThread} {e e' : Client.LockEntry} {next : Client.Next}

theorem Sys.resume_ent (h : s.resume a n (.ok (e, next)) = .ok q) (x : String) :
    q.ent x = if x = a.client then e else s.ent x := by
  cases h
  cases next <;> simp

theorem Sys.resume_call (h : s.resume a n (.ok (e, .call)) = .ok q) :
    q.pc a = .acquiring n .req := by
  cases h
  simp

/-- Entering `acquire` does not touch the message slot. -/
theorem acquire_message (h : Client.acquire e n = .ok (e', next)) : e'.message = e.message := by
  unfold Client.acquire Client.blockUntilGot Client.blockUntilGotLoop at h
  split_ifs at h
  · cases hs : e.state <;> simp [hs] at h <;> rw [← h.1]
  · cases h
    rfl

/-- Nor does waking up, except from the wait for a `RETRY`. -/
theorem wake_message {w : Wait} (h : Client.wake e w = .ok (e', next)) :
    w ≠ .retry ∧ e'.message = e.message ∨ w = .retry ∧ e'.message = .empty ∧ next = .call := by
  unfold Client.wake Client.blockUntilGot Client.blockUntilGotLoop at h
  cases w with
  | released =>
    cases h
    exact .inl ⟨nofun, rfl⟩
  | queued => cases hs : e.state <;> simp [hs] at h <;> exact .inl ⟨nofun, by rw [← h.1]⟩
  | retry =>
    dsimp only at h
    split_ifs at h
    cases h
    exact .inr ⟨rfl, rfl, rfl⟩

/-- The answer of an `acquire` call takes a message out of the slot only if it is `RETRY`. -/
theorem blockUntilGotReply_message {ret : Status}
    (h : Client.blockUntilGotReply e ret = .ok (e', next)) :
    e'.message = e.message ∨ ret = .retry ∧ e'.message = .empty ∧ next = .call := by
  unfold Client.blockUntilGotReply Client.blockUntilGotLoop at h
  cases ret with
  | ok =>
    cases h
    exact .inl rfl
  | retry =>
    dsimp only at h
    split_ifs at h
    · cases h
      exact .inl rfl
    · cases h
      exact .inr ⟨rfl, rfl, rfl⟩

/-- Entering `release` does not touch the message slot. -/
theorem release_message {fin : Option (Option QueuingThread)}
    (h : Client.release e = .ok (e', fin)) :
    e'.message = e.message := by
  unfold Client.release at h
  split_ifs at h
  · cases h
    rfl
  · obtain ⟨⟨e₁, sig⟩, hr, hx⟩ := map_eq_ok (congrArg some h)
    cases hx
    exact (releaseFinish_spec hr).2.2.1

/-- `release` clears the slot when its call has returned. -/
theorem releaseReply_message {sig : Option QueuingThread}
    (h : Client.releaseReply e = .ok (e', sig)) :
    e'.message = .empty :=
  (releaseFinish_spec h).2.2.1

/-- The step to `q` writes a message into the slot of a client, or takes one out. -/
inductive Sys.Writes (s q : Sys) : Event → String → Client.Message → Prop where
  | wake {a : Thread} {n : QueuingThread} (hpc : s.pc a = .waiting .retry n true)
      (hq : q.pc a = .acquiring n .req) :
    s.Writes q (.wake a) a.client .empty
  | reply {a : Thread} {n : QueuingThread} (hpc : s.pc a = .acquiring n (.rep .retry))
    (hq : q.pc a = .acquiring n .req) : s.Writes q (.reply a) a.client .empty
  | gaveBack {a : Thread} {n : QueuingThread} (hpc : s.pc a = .releasing n .rep) :
    s.Writes q (.reply a) a.client .empty
  | revoke {a : Thread} {n : QueuingThread} {tgt : String} {ret : Status}
    (hpc : s.pc a = .acquiring n (.revReq tgt ret)) : s.Writes q (.revoke a) tgt .revoke
  | retry {a : Thread} {x next : String}
      (hpc : (s.pc a).release? a.client = some (x, .retryReq next)) :
    s.Writes q (.retry a) next .retry

/-- Every other slot is as it was. -/
theorem Sys.Steps.message {ev : Event} (h : s.Steps ev q) (c : String) :
    (q.ent c).message = (s.ent c).message ∨ s.Writes q ev c (q.ent c).message := by
  cases h with
  | @acquire a addr r q hpc hne hnew hr hq =>
    obtain ⟨e', next⟩ := r
    rw [resume_ent hq]
    split_ifs with hc
    · exact .inl (hc ▸ acquire_message hr)
    · exact .inl rfl
  | @wake a w n e r q hpc he hr hq =>
    obtain ⟨e', next⟩ := r
    rw [resume_ent hq]
    split_ifs with hc
    · subst hc
      obtain ⟨-, hm⟩ | ⟨rfl, hm, rfl⟩ := wake_message hr
      · exact .inl (ent_eq he ▸ hm)
      · rw [hm]
        exact .inr (.wake hpc (resume_call hq))
    · exact .inl rfl
  | @release a n e e' hpc hh he hr =>
    simp only [setPc_ent, setHeld_ent, setClient_ent]
    split_ifs with hc
    · exact .inl (hc ▸ ent_eq he ▸ release_message hr)
    · exact .inl rfl
  | @leave a n e e' sig hpc hh he hr =>
    simp only [signal_ent, setHeld_ent, setClient_ent]
    split_ifs with hc
    · exact .inl (hc ▸ ent_eq he ▸ release_message hr)
    · exact .inl rfl
  | serveAcquire hpc hr => exact .inl rfl
  | serveRelease hpc hr => exact .inl rfl
  | sendRevoke hpc => exact .inl rfl
  | @revoke a n tgt ret e hpc he =>
    rw [setPc_ent, setClient_ent]
    by_cases hc : c = tgt
    · rw [if_pos hc, hc, ent_eq he]
      by_cases hst : e.state = .free
      · simp only [Client.revokeHandler, hst, if_true, true_or]
      · simp only [Client.revokeHandler, hst, if_false]
        exact .inr (.revoke hpc)
    · rw [if_neg hc]
      exact .inl rfl
  | @retry a x next n e e' hpc he hr =>
    simp only [setPc_ent, signal_ent, setClient_ent]
    split_ifs with hc
    · subst hc
      unfold Client.retryHandler at hr
      split at hr
      · cases hr
      · cases hr
        exact .inr (.retry hpc)
    · exact .inl rfl
  | @replyAcquire a n ret e r q hpc he hr hq =>
    obtain ⟨e', next⟩ := r
    rw [resume_ent hq]
    split_ifs with hc
    · subst hc
      obtain hm | ⟨rfl, hm, rfl⟩ := blockUntilGotReply_message hr
      · exact .inl (ent_eq he ▸ hm)
      · rw [hm]
        exact .inr (.reply hpc (resume_call hq))
    · exact .inl rfl
  | @replyRevoke a n tgt ret e hpc he =>
    simp only [setPc_ent, signal_ent, setClient_ent]
    split_ifs with hc
    · exact .inl (by rw [hc, ent_eq he]; rfl)
    · exact .inl rfl
  | @replyRelease a n e e' sig hpc he hr =>
    simp only [setPc_ent, signal_ent, setClient_ent]
    split_ifs with hc
    · rw [releaseReply_message hr, hc]
      exact .inr (.gaveBack hpc)
    · exact .inl rfl

end Messages

end Yfs.Lock
