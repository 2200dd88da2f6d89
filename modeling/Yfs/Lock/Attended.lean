import Yfs.Lock.Fifo
import Yfs.Lock.Token

/-!
# What a step leaves behind

The invariant of `Lock.Invariant` says who waits for whom, but not that there is anybody. Here:
every node in a queue is that of a thread, and a lock that is `RELEASING` is on its way
(`Attended`). And what a step is to those who only use the lock (`Sys.Use`): mostly nothing.
-/

namespace Yfs.Lock

open Client (QueuingThread Wait)

/-- The node of the call that the thread is in. -/
def Pc.thisThread : Pc → Option QueuingThread
  | .idle => none
  | .waiting _ n _ | .acquiring n _ | .releasing n _ => some n

/-- The node is that of the call that the thread is in, or with which it has got the lock. -/
def Sys.Has (s : Sys) (a : Thread) (n : QueuingThread) : Prop :=
  s.held a = some n ∨ (s.pc a).thisThread = some n

/-- The lock is on its way from the client to the server, in the activity. -/
def Sys.Returns (s : Sys) (a : Thread) (c : String) : Prop :=
  ∃ p, (s.pc a).release? a.client = some (c, p)

/-- Nothing is left lying about: every node belongs to a thread, and a lock that is `RELEASING` is
on its way. -/
structure Attended (s : Sys) : Prop where
  nodup : ∀ c, (s.ent c).threads.Nodup
  node : ∀ c, ∀ n ∈ (s.ent c).threads, ∃ b, b.client = c ∧ s.Has b n
  releasing : ∀ c, (s.ent c).state = .releasing → ∃ b, s.Returns b c

theorem attended_init : Attended {} :=
  ⟨fun _ => .nil, nofun, nofun⟩

@[simp] theorem Pc.signal_thisThread (p : Pc) (n : QueuingThread) :
    (p.signal n).thisThread = p.thisThread := by
  cases p <;> rfl

@[simp] theorem Pc.setRelease_thisThread (p : Pc) (ph : RelPhase) :
    (p.setRelease ph).thisThread = p.thisThread := by
  unfold Pc.setRelease
  split <;> rfl

theorem Pc.setRelease_releases {p : Pc} {c x : String} {ph : RelPhase} (ph' : RelPhase)
    (h : p.release? c = some (x, ph)) : (p.setRelease ph').release? c = some (x, ph') := by
  cases p with
  | acquiring n q =>
    cases q with
    | revRel tgt ret r =>
      cases h
      rfl
    | req | revSend | revReq | rep => cases h
  | releasing n r =>
    cases h
    rfl
  | idle | waiting => cases h

section Attended

variable {s q : Sys} {g : Ghost} {a b : Thread} {n : QueuingThread} {c : String}
  {e e' : Client.LockEntry} {next : Client.Next} {ev : Event}

@[simp] theorem Sys.signal_has {o : Option QueuingThread} : (s.signal c o).Has b n ↔ s.Has b n := by
  cases o with
  | none => rfl
  | some m =>
    simp only [Has, signal_held, signal_some_pc]
    split
    · rw [Pc.signal_thisThread]
    · rfl

@[simp] theorem Sys.signal_returns {o : Option QueuingThread} {x : String} :
    (s.signal c o).Returns b x ↔ s.Returns b x := by
  cases o with
  | none => rfl
  | some m =>
    simp only [Returns, signal_some_pc]
    split
    · rw [Pc.signal_release?]
    · rfl

/-- A step of the thread `a`: what it may do to the queues, and to what is on its way. -/
theorem Attended.of (h : Attended s) (hother : ∀ b, b ≠ a → (∀ n, s.Has b n → q.Has b n) ∧
      ∀ c, s.Returns b c → q.Returns b c)
    (hnodup : ∀ c, (q.ent c).threads.Nodup)
    (hnode : ∀ c, ∀ n ∈ (q.ent c).threads, n ∈ (s.ent c).threads ∨ c = a.client ∧ q.Has a n)
    (hkeeps : ∀ n ∈ (q.ent a.client).threads, s.Has a n → q.Has a n)
    (hstate : ∀ c, (q.ent c).state = .releasing → (s.ent c).state = .releasing ∨ q.Returns a c)
    (hreturns : ∀ c, (q.ent c).state = .releasing → s.Returns a c → q.Returns a c) :
    Attended q := by
  refine ⟨hnodup, fun c n hn => ?_, fun c hc => ?_⟩
  · rcases hnode c n hn with hn' | ⟨rfl, ha⟩
    · obtain ⟨b, rfl, hb⟩ := h.node c n hn'
      by_cases hba : b = a
      · subst hba
        exact ⟨b, rfl, hkeeps n hn hb⟩
      · exact ⟨b, rfl, (hother b hba).1 n hb⟩
    · exact ⟨a, rfl, ha⟩
  · rcases hstate c hc with hc' | ha
    · obtain ⟨b, hb⟩ := h.releasing c hc'
      by_cases hba : b = a
      · subst hba
        exact ⟨b, hreturns c hc hb⟩
      · exact ⟨b, (hother b hba).2 c hb⟩
    · exact ⟨a, ha⟩

/-- Sections of `acquire` do not make a lock `RELEASING`. -/
theorem acquire_releasing (h : Client.acquire e n = .ok (e', next)) (hs : e'.state = .releasing) :
    e.state = .releasing := by
  unfold Client.acquire Client.blockUntilGot Client.blockUntilGotLoop at h
  split_ifs at h
  · cases hst : e.state <;> simp [hst] at h <;> simp [← h.1] at hs
    rfl
  · cases h
    exact hs

theorem wake_releasing {w : Wait} (h : Client.wake e w = .ok (e', next)) :
    e'.state ≠ .releasing := by
  unfold Client.wake Client.blockUntilGot Client.blockUntilGotLoop at h
  cases w with
  | released =>
    cases h
    exact nofun
  | queued => cases hst : e.state <;> simp [hst] at h <;> simp [← h.1, hst]
  | retry =>
    dsimp only at h
    split_ifs at h with hst
    cases h
    simp [hst]

theorem blockUntilGotReply_releasing {ret : Status}
    (h : Client.blockUntilGotReply e ret = .ok (e', next)) (hs : e'.state = .releasing) :
    e.state = .releasing := by
  unfold Client.blockUntilGotReply Client.blockUntilGotLoop at h
  cases ret with
  | ok =>
    cases h
    cases hs
  | retry =>
    dsimp only at h
    split_ifs at h <;> cases h <;> exact hs

theorem revokeHandler_releasing (e : Client.LockEntry) :
    (Client.revokeHandler e).1.threads = e.threads ∧
      ((Client.revokeHandler e).1.state = .releasing →
        e.state = .releasing ∨ (Client.revokeHandler e).2 = true) := by
  unfold Client.revokeHandler
  split_ifs with hst
  · exact ⟨rfl, fun _ => .inr rfl⟩
  · exact ⟨rfl, .inl⟩

/-- Only a thread that does not have the lock returns from `acquire`. -/
theorem Inv.not_held (h : Inv s g) (hf : s.Fresh) (ev : Event)
    (hin : s.inAcquire ev = some (a, n, .ok (e', .returnOK))) : s.held a = none := by
  by_contra hne
  obtain ⟨m, hh⟩ := Option.ne_none_iff_exists'.mp hne
  obtain ⟨-, e, he, hhd, hst⟩ := h.held a m hh
  unfold Sys.inAcquire at hin
  split at hin
  case h_1 a' addr =>
    simp only [Option.some.injEq, Prod.mk.injEq] at hin
    obtain ⟨rfl, -, hr⟩ := hin
    -- `acquire` returns at once only if the queue is empty
    rw [he, Option.getD_some] at hr
    rw [(acquire_threads hr).2 rfl] at hhd
    cases hhd
  case h_2 a' =>
    split at hin
    case h_2 => cases hin
    case h_1 w n' hpc =>
      simp only [Option.some.injEq, Prod.mk.injEq] at hin
      obtain ⟨rfl, rfl, hr⟩ := hin
      obtain ⟨e₁, he₁, hr⟩ := bind_eq_ok hr
      have hp := h.pc a'
      rw [hpc, (wake_threads hr).2 rfl] at hp
      obtain ⟨-, e₂, he₂, hhd₂, -⟩ := hp
      rw [he] at he₂
      cases he₂
      rw [hhd] at hhd₂
      cases hhd₂
      exact hf a' w _ true hpc hh
  case h_3 a' =>
    split at hin
    case h_2 => cases hin
    case h_1 n' ret hpc =>
      simp only [Option.some.injEq, Prod.mk.injEq] at hin
      obtain ⟨rfl, -, -⟩ := hin
      have hp := h.pc a'
      rw [hpc] at hp
      obtain ⟨-, ⟨e₂, he₂, -, hst₂⟩, -⟩ := hp
      rw [he] at he₂
      cases he₂
      rw [hst] at hst₂
      cases hst₂
  case h_4 => cases hin

theorem Sys.inAcquire_wake {w : Wait} {x : Client.LockEntry × Client.Next}
    (hpc : s.pc a = .waiting w n true) (he : s.client a.client = some e)
    (hr : Client.wake e w = .ok x) : s.inAcquire (.wake a) = some (a, n, .ok x) := by
  simp [inAcquire, hpc, entry, he, ← hr, bind, Except.bind]

theorem Sys.inAcquire_reply {ret : Status} {x : Client.LockEntry × Client.Next}
    (hpc : s.pc a = .acquiring n (.rep ret)) (he : s.client a.client = some e)
    (hr : Client.blockUntilGotReply e ret = .ok x) :
    s.inAcquire (.reply a) = some (a, n, .ok x) := by
  simp [inAcquire, hpc, entry, he, ← hr, bind, Except.bind]

/-- Nothing is left lying about by a section of `acquire`. -/
theorem Attended.resume (h : Attended s) (hq : s.resume a n (.ok (e', next)) = .ok q)
    (hrel : ∀ c, ¬ s.Returns a c) (hpc : ∀ m, (s.pc a).thisThread = some m → m = n)
    (hno : next = .returnOK → s.held a = none)
    (hnodup : e'.threads.Nodup) (hnode : ∀ m ∈ e'.threads, m ∈ (s.ent a.client).threads ∨ m = n)
    (hstate : e'.state = .releasing → (s.ent a.client).state = .releasing) : Attended q := by
  have hent := Sys.resume_ent hq
  have hn : q.Has a n := by
    cases hq
    cases next with
    | returnOK => exact .inl (by simp)
    | call | wait => exact .inr (by simp [Pc.thisThread])
  refine h.of (a := a) (fun b hb => ?_) (fun c => ?_) (fun c m hm => ?_) (fun m hm hs => ?_)
    (fun c hc => ?_) fun c _ hc => absurd hc (hrel c)
  · cases hq
    cases next <;> simp [Sys.Has, Sys.Returns, hb]
  · rw [hent]
    split_ifs with hc
    · exact hnodup
    · exact h.nodup c
  · rw [hent] at hm
    split_ifs at hm with hc
    · rcases hnode m hm with hm | rfl
      · exact .inl (hc ▸ hm)
      · exact .inr ⟨hc, hn⟩
    · exact .inl hm
  · rcases hs with hh | hh
    · cases hq
      cases next with
      | returnOK =>
        rw [hno rfl] at hh
        cases hh
      | call | wait => exact .inl (by simpa using hh)
    · exact hpc m hh ▸ hn
  · rw [hent] at hc
    split_ifs at hc with hca
    · exact .inl (hca ▸ hstate hc)
    · exact .inl hc

/-- The front of a queue is dropped by the thread whose node it is. -/
theorem Attended.drop (h : Attended s) {o : Option QueuingThread}
    (hfront : (s.ent a.client).threads.head? = some n)
    (hth : e'.threads = (s.ent a.client).threads.tail) (hst : e'.state ≠ .releasing)
    (hent : ∀ x, q.ent x = if x = a.client then e' else s.ent x)
    (hhas : ∀ m, s.Has a m → m = n ∨ q.Has a m)
    (hrel : ∀ c, s.Returns a c → c = a.client)
    (hother : ∀ b, b ≠ a → q.held b = s.held b ∧ q.pc b = (s.signal a.client o).pc b) :
    Attended q := by
  obtain ⟨rest, hrest⟩ : ∃ rest, (s.ent a.client).threads = n :: rest :=
    List.head?_eq_some_iff.mp hfront
  rw [hrest, List.tail_cons] at hth
  have hnodup := h.nodup a.client
  rw [hrest, List.nodup_cons] at hnodup
  refine h.of (a := a) (fun b hb => ?_) (fun c => ?_) (fun c m hm => ?_) (fun m hm hs => ?_)
    (fun c hc => ?_) fun c hc hr => ?_
  · obtain ⟨hheld, hpc⟩ := hother b hb
    constructor
    · intro m hm
      have hm' := (Sys.signal_has (c := a.client) (o := o)).mpr hm
      simpa only [Sys.Has, hheld, hpc, Sys.signal_held] using hm'
    · intro c hc
      have hc' := (Sys.signal_returns (c := a.client) (o := o)).mpr hc
      simpa only [Sys.Returns, hpc] using hc'
  · rw [hent]
    split_ifs with hc
    · rw [hth]
      exact hnodup.2
    · exact h.nodup c
  · rw [hent] at hm
    split_ifs at hm with hc
    · rw [hc, hrest]
      exact .inl (List.mem_cons_of_mem _ (hth ▸ hm))
    · exact .inl hm
  · rw [hent, if_pos rfl, hth] at hm
    rcases hhas m hs with rfl | hq
    · exact absurd hm hnodup.1
    · exact hq
  · rw [hent] at hc
    split_ifs at hc with hca
    · exact absurd hc hst
    · exact .inl hc
  · rw [hent, if_pos (hrel c hr)] at hc
    exact absurd hc hst

/-- A step that leaves the queues as they are. -/
theorem Attended.same (h : Attended s) (hth : ∀ c, (q.ent c).threads = (s.ent c).threads)
    (hhas : ∀ b n, s.Has b n → q.Has b n) (hother : ∀ b, b ≠ a → ∀ c, s.Returns b c → q.Returns b c)
    (hstate : ∀ c, (q.ent c).state = .releasing → (s.ent c).state = .releasing ∨ q.Returns a c)
    (hreturns : ∀ c, (q.ent c).state = .releasing → s.Returns a c → q.Returns a c) :
    Attended q := by
  refine h.of (fun b hb => ⟨hhas b, hother b hb⟩) (fun c => ?_) (fun c n hn => .inl ?_)
    (fun n _ => hhas a n) hstate hreturns
  · rw [hth]
    exact h.nodup c
  · rwa [hth] at hn

/-- The activity `a` goes on with a call, and the queues stay as they are. -/
theorem Attended.goesOn (h : Attended s) {t : Sys} {o : Option QueuingThread} {p : Pc}
    (hpc : p.thisThread = (s.pc a).thisThread) (ht : t.pc = (s.signal c o).pc)
    (hheld : t.held = s.held) (hth : ∀ c, (t.ent c).threads = (s.ent c).threads)
    (hstate : ∀ c, (t.ent c).state = .releasing →
      (s.ent c).state = .releasing ∨ ∃ r, p.release? a.client = some (c, r))
    (hreturns : ∀ c, (t.ent c).state = .releasing → s.Returns a c →
      ∃ r, p.release? a.client = some (c, r)) : Attended (t.setPc a p) := by
  have hret : ∀ x, (t.setPc a p).Returns a x ↔ ∃ r, p.release? a.client = some (x, r) := by
    intro x
    simp [Sys.Returns]
  refine h.same (a := a) hth (fun b n hb => ?_) (fun b hb x hx => ?_) (fun x hx => ?_)
    fun x hx hr => ?_
  · have hb' := (Sys.signal_has (c := c) (o := o)).mpr hb
    by_cases hba : b = a
    · subst hba
      simpa [Sys.Has, hheld, hpc] using hb
    · simpa [Sys.Has, hheld, hba, ht] using hb'
  · have hx' := (Sys.signal_returns (c := c) (o := o)).mpr hx
    simpa [Sys.Returns, hb, ht] using hx'
  · exact (hstate x hx).imp id (hret x).mpr
  · exact (hret x).mpr (hreturns x hx hr)

/-- A thread with this pc is in no `release` call. -/
theorem Sys.not_returns {c : String} (h : (s.pc a).release? a.client = none) : ¬ s.Returns a c := by
  rintro ⟨p, hp⟩
  rw [h] at hp
  cases hp

/-- **Every step leaves nothing lying about.** -/
theorem Attended.step (h : Attended s) (hi : Inv s g) (hf : s.Fresh) (hs : s.Steps ev q) :
    Attended q := by
  cases hs with
  | @acquire a addr r q hpc hne hnew hr hq =>
    obtain ⟨e', next⟩ := r
    obtain ⟨hth, hret⟩ := acquire_threads hr
    refine h.resume hq (fun c => Sys.not_returns (by rw [hpc]; rfl)) (by simp [hpc, Pc.thisThread])
      (fun hn => hi.not_held hf (.acquire a addr) (by rw [Sys.inAcquire, hr, hn])) ?_
      (fun m hm => ?_) (acquire_releasing hr)
    · rw [hth]
      exact List.nodup_append.mpr ⟨h.nodup a.client, List.nodup_singleton _, fun x hx y hy => by
        rw [List.mem_singleton.mp hy]
        rintro rfl
        exact hnew hx⟩
    · rw [hth] at hm
      exact (List.mem_append.mp hm).imp id List.mem_singleton.mp
  | @wake a w n e r q hpc he hr hq =>
    obtain ⟨e', next⟩ := r
    obtain ⟨hth, hret⟩ := wake_threads hr
    have hent := Sys.ent_eq he
    refine h.resume hq (fun c => Sys.not_returns (by rw [hpc]; rfl)) (fun m hm => ?_)
      (fun hn => hi.not_held hf _ (Sys.inAcquire_wake hpc he (hn ▸ hr))) ?_ (fun m hm => ?_)
      fun hst => absurd hst (wake_releasing hr)
    · rw [hpc] at hm
      exact (Option.some.inj hm).symm
    · rw [hth, ← hent]
      exact h.nodup a.client
    · rw [hth] at hm
      exact .inl (hent ▸ hm)
  | @replyAcquire a n ret e r q hpc he hr hq =>
    obtain ⟨e', next⟩ := r
    have hth := blockUntilGotReply_threads hr
    have hent := Sys.ent_eq he
    refine h.resume hq (fun c => Sys.not_returns (by rw [hpc]; rfl)) (fun m hm => ?_)
      (fun hn => hi.not_held hf _ (Sys.inAcquire_reply hpc he (hn ▸ hr))) ?_ (fun m hm => ?_)
      fun hst => hent ▸ blockUntilGotReply_releasing hr hst
    · rw [hpc] at hm
      exact (Option.some.inj hm).symm
    · rw [hth, ← hent]
      exact h.nodup a.client
    · rw [hth] at hm
      exact .inl (hent ▸ hm)
  | @serveAcquire a n se next hpc hr =>
    refine h.goesOn (c := "") (o := none) (by rw [hpc]; rfl) rfl rfl (fun _ => rfl)
      (fun c hc => .inl hc) fun c _ hr => absurd hr (Sys.not_returns (by rw [hpc]; rfl))
  | @serveRelease a x next se hpc hr =>
    have hrel := Pc.setRelease_releases (.retryReq next) hpc
    refine h.goesOn (c := "") (o := none) (Pc.setRelease_thisThread ..) rfl rfl (fun _ => rfl)
      (fun c hc => .inl hc) fun c _ hret => ?_
    obtain ⟨r, hc⟩ := hret
    rw [hpc] at hc
    cases hc
    exact ⟨_, hrel⟩
  | @sendRevoke a n hpc =>
    refine h.goesOn (c := "") (o := none) (by rw [hpc]; rfl) rfl rfl (fun _ => rfl)
      (fun c hc => .inl hc) fun c _ hr => absurd hr (Sys.not_returns (by rw [hpc]; rfl))
  | @revoke a n tgt ret e hpc he =>
    have hent := Sys.ent_eq he
    obtain ⟨hth, hst⟩ := revokeHandler_releasing e
    refine h.goesOn (c := "") (o := none) (by rw [hpc]; rfl) rfl rfl (fun c => ?_) (fun c hc => ?_)
      fun c _ hr => absurd hr (Sys.not_returns (by rw [hpc]; rfl))
    · rw [Sys.setClient_ent]
      split_ifs with hct
      · rw [hct, hent, hth]
      · rfl
    · rw [Sys.setClient_ent] at hc
      split_ifs at hc with hct
      · subst hct
        rcases hst hc with hst | hcalls
        · exact .inl (hent ▸ hst)
        · exact .inr ⟨.req, by rw [if_pos hcalls]; rfl⟩
      · exact .inl hc
  | @retry a x next n e e' hpc he hr =>
    have hrel := Pc.setRelease_releases .rep hpc
    have hent := Sys.ent_eq he
    obtain ⟨hth, hst⟩ : e'.threads = e.threads ∧ e'.state = e.state := by
      unfold Client.retryHandler at hr
      split at hr
      case h_1 => cases hr
      case h_2 =>
        cases hr
        exact ⟨rfl, rfl⟩
    refine h.goesOn (c := next) (o := some n) (Pc.setRelease_thisThread ..) rfl rfl (fun c => ?_)
      (fun c hc => .inl ?_) fun c _ hret => ?_
    · rw [Sys.signal_ent, Sys.setClient_ent]
      split_ifs with hcn
      · rw [hcn, hent, hth]
      · rfl
    · rw [Sys.signal_ent, Sys.setClient_ent] at hc
      split_ifs at hc with hcn
      · rw [hcn, hent, ← hst, hc]
      · exact hc
    · obtain ⟨r, hc⟩ := hret
      rw [hpc] at hc
      cases hc
      exact ⟨_, hrel⟩
  | @replyRevoke a n tgt ret e hpc he =>
    have hent := Sys.ent_eq he
    refine h.goesOn (c := tgt) (o := (Client.revokeHandlerReply e).2) (by rw [hpc]; rfl) rfl rfl
      (fun c => ?_) (fun c hc => .inl ?_) fun c hc hr => ?_
    · rw [Sys.signal_ent, Sys.setClient_ent]
      split_ifs with hct
      · rw [hct, hent]
        rfl
      · rfl
    · rw [Sys.signal_ent, Sys.setClient_ent] at hc
      split_ifs at hc with hct
      · cases hc
      · exact hc
    · obtain ⟨r, hr⟩ := hr
      rw [hpc] at hr
      cases hr
      rw [Sys.signal_ent, Sys.setClient_ent, if_pos rfl] at hc
      cases hc
  | @release a n e e' hpc hh he hr =>
    have hent := Sys.ent_eq he
    have hth : e'.threads = e.threads := by
      unfold Client.release at hr
      split_ifs at hr
      · cases hr
        rfl
      · obtain ⟨x, -, hx⟩ := map_eq_ok (congrArg some hr)
        cases hx
    refine h.same (a := a) (fun c => ?_) (fun b m hb => ?_) (fun b hb c hc => ?_) (fun c hc => ?_)
      fun c _ hr => absurd hr (Sys.not_returns (by rw [hpc]; rfl))
    · simp only [Sys.setPc_ent, Sys.setHeld_ent, Sys.setClient_ent]
      split_ifs with hc
      · rw [hc, hent, hth]
      · rfl
    · by_cases hba : b = a
      · subst hba
        refine .inr ?_
        rcases hb with hb | hb
        · rw [hh] at hb
          simpa [Pc.thisThread] using hb
        · rw [hpc] at hb
          cases hb
      · simpa [Sys.Has, hba] using hb
    · simpa [Sys.Returns, hb] using hc
    · simp only [Sys.setPc_ent, Sys.setHeld_ent, Sys.setClient_ent] at hc
      split_ifs at hc with hca
      · exact .inr ⟨.req, by simp [hca, Pc.release?]⟩
      · exact .inl hc
  | @leave a n e e' sig hpc hh he hr =>
    have hent := Sys.ent_eq he
    obtain ⟨-, e₁, he₁, hhd, -⟩ := hi.held a n hh
    rw [he] at he₁
    cases he₁
    have hfin : ∃ x, Client.releaseFinish { e with state := .free } false = .ok (e', x) := by
      unfold Client.release at hr
      split_ifs at hr
      · cases hr
      · obtain ⟨⟨e₁, x⟩, hr, hx⟩ := map_eq_ok (congrArg some hr)
        cases hx
        exact ⟨_, hr⟩
    obtain ⟨x, hfin⟩ := hfin
    obtain ⟨hth, -, -, hst⟩ := releaseFinish_spec hfin
    refine h.drop (o := sig) (hent.symm ▸ hhd) (hent.symm ▸ hth) ?_ (fun x => ?_) (fun m hm => ?_)
      (fun c hc => absurd hc (Sys.not_returns (by rw [hpc]; rfl))) fun b hb => ?_
    · rcases hst with ⟨-, hst⟩ | ⟨-, hst⟩ <;> simp [hst]
    · simp
    · rcases hm with hm | hm
      · rw [hh] at hm
        exact .inl (Option.some.inj hm).symm
      · rw [hpc] at hm
        cases hm
    · exact ⟨by simp [hb], rfl⟩
  | @replyRelease a n e e' sig hpc he hr =>
    have hent := Sys.ent_eq he
    have hp := hi.pc a
    rw [hpc] at hp
    obtain ⟨-, ⟨e₁, he₁, hhd, -⟩, -⟩ := hp
    rw [he] at he₁
    cases he₁
    obtain ⟨hth, -, -, hst⟩ := releaseFinish_spec hr
    refine h.drop (o := sig) (hent.symm ▸ hhd) (hent.symm ▸ hth) ?_ (fun x => ?_) (fun m hm => ?_)
      (fun c hc => ?_) fun b hb => ?_
    · rcases hst with ⟨-, hst⟩ | ⟨-, hst⟩ <;> simp [hst]
    · simp
    · rcases hm with hm | hm
      · exact .inr (.inl (by simpa using hm))
      · rw [hpc] at hm
        exact .inl (Option.some.inj hm).symm
    · obtain ⟨r, hc⟩ := hc
      rw [hpc] at hc
      cases hc
      rfl
    · refine ⟨rfl, ?_⟩
      rw [Sys.setPc_pc, if_neg hb]
      rfl

end Attended

/-! ## What a step is to the users of the lock -/

/-- The thread is in a call of `acquire`. -/
def Pc.acquires : Pc → Prop
  | .waiting _ _ _ | .acquiring _ _ => True
  | .idle | .releasing _ _ => False

@[simp] theorem Pc.signal_acquires (p : Pc) (n : QueuingThread) :
    (p.signal n).acquires ↔ p.acquires := by
  cases p <;> rfl

@[simp] theorem Pc.setRelease_acquires (p : Pc) (ph : RelPhase) :
    (p.setRelease ph).acquires ↔ p.acquires := by
  unfold Pc.setRelease
  split <;> rfl

@[simp] theorem Sys.signal_acquires (s : Sys) (c : String) (o : Option QueuingThread)
    (b : Thread) : ((s.signal c o).pc b).acquires ↔ (s.pc b).acquires := by
  cases o with
  | none => rfl
  | some n =>
    rw [Sys.signal_some_pc]
    split
    · exact Pc.signal_acquires _ n
    · rfl

/-- The thread that a section of `acquire` is run by. -/
def Event.acquirer : Event → Option Thread
  | .acquire a _ | .wake a | .reply a => some a
  | _ => none

/-- What a step is to those who use the lock: nothing, or a thread returns from `acquire`, or a
thread calls `release`. -/
inductive Sys.Use (s q : Sys) (ev : Event) : Prop
  | inside (hrel : ∀ t, ev ≠ .release t) (hheld : q.held = s.held)
      (hpc : ∀ b, (q.pc b).acquires ↔ (s.pc b).acquires ∨ ∃ addr, ev = .acquire b addr)
  | got {t : Thread} {n : QueuingThread} (hev : ev.acquirer = some t) (hno : s.held t = none)
      (hheld : q.held = Function.update s.held t (some n))
      (hwas : (s.pc t).acquires ∨ ∃ addr, ev = .acquire t addr)
      (hpc : ∀ b, (q.pc b).acquires ↔ b ≠ t ∧ (s.pc b).acquires)
  | gave {t : Thread} {n : QueuingThread} (hev : ev = .release t) (hhad : s.held t = some n)
      (hheld : q.held = Function.update s.held t none)
      (hpc : ∀ b, (q.pc b).acquires ↔ (s.pc b).acquires)

section Uses

variable {s t q : Sys} {g : Ghost} {a : Thread} {n : QueuingThread} {c : String}
  {e : Client.LockEntry} {next : Client.Next} {ev : Event}

/-- A section of `acquire`. -/
theorem Sys.use_of_resume (hev : ev.acquirer = some a) (hno : next = .returnOK → s.held a = none)
    (hwas : (s.pc a).acquires ∧ (∀ b addr, ev ≠ .acquire b addr) ∨ ∃ addr, ev = .acquire a addr)
    (hq : s.resume a n (.ok (e, next)) = .ok q) : s.Use q ev := by
  have hrel : ∀ t, ev ≠ .release t := by
    rintro t rfl
    cases hev
  have hother : ∀ b, b ≠ a → q.pc b = s.pc b := by
    intro b hb
    cases hq
    cases next <;> simp [hb]
  have hcalls : ∀ b, (∃ addr, ev = .acquire b addr) → b = a := by
    rintro b ⟨addr, rfl⟩
    exact Option.some.inj hev
  cases next with
  | returnOK =>
    cases hq
    refine .got hev (hno rfl) rfl (hwas.imp And.left id) fun b => ?_
    by_cases hba : b = a
    · simp [hba, Pc.acquires]
    · rw [hother b hba]
      simp [hba]
  | call | wait w =>
    cases hq
    refine .inside hrel rfl fun b => ?_
    by_cases hba : b = a
    · subst hba
      simpa [Pc.acquires] using hwas.imp And.left id
    · rw [hother b hba]
      exact ⟨.inl, fun h => h.resolve_right fun h => hba (hcalls b h)⟩

/-- A step of the activity `a` in which nobody comes or goes. -/
theorem Sys.use_inside {o : Option QueuingThread} {p : Pc} (hrel : ∀ t, ev ≠ .release t)
    (hcalls : ∀ t addr, ev ≠ .acquire t addr) (hheld : t.held = s.held)
    (ht : t.pc = (s.signal c o).pc) (hp : p.acquires ↔ (s.pc a).acquires) :
    s.Use (t.setPc a p) ev := by
  refine .inside hrel hheld fun b => ?_
  have hno : ¬ ∃ addr, ev = .acquire b addr := fun ⟨addr, h⟩ => hcalls b addr h
  rw [or_iff_left hno]
  by_cases hba : b = a
  · subst hba
    simpa using hp
  · simp [hba, ht]

/-- **Every step is one of these to the users of the lock.** -/
theorem Inv.use (h : Inv s g) (hf : s.Fresh) (hs : s.Steps ev q) : s.Use q ev := by
  cases hs with
  | @acquire a addr r q hpc hne hnew hr hq =>
    obtain ⟨e', next⟩ := r
    exact Sys.use_of_resume rfl
      (fun hn => h.not_held hf (.acquire a addr) (by rw [Sys.inAcquire, hr, hn]))
      (.inr ⟨addr, rfl⟩) hq
  | @wake a w n e r q hpc he hr hq =>
    obtain ⟨e', next⟩ := r
    exact Sys.use_of_resume rfl (fun hn => h.not_held hf _ (Sys.inAcquire_wake hpc he (hn ▸ hr)))
      (.inl ⟨by rw [hpc]; trivial, by simp⟩) hq
  | @replyAcquire a n ret e r q hpc he hr hq =>
    obtain ⟨e', next⟩ := r
    exact Sys.use_of_resume rfl
      (fun hn => h.not_held hf _ (Sys.inAcquire_reply hpc he (hn ▸ hr)))
      (.inl ⟨by rw [hpc]; trivial, by simp⟩) hq
  | @release a n e e' hpc hh he hr =>
    refine .gave rfl hh rfl fun b => ?_
    by_cases hba : b = a
    · simp [hba, hpc, Pc.acquires]
    · simp [hba]
  | @leave a n e e' sig hpc hh he hr =>
    refine .gave rfl hh rfl fun b => ?_
    rw [Sys.signal_acquires]
    rfl
  | @serveAcquire a n se next hpc hr =>
    exact Sys.use_inside (c := "") (o := none) (by simp) (by simp) rfl rfl (by rw [hpc]; rfl)
  | @serveRelease a x next se hpc hr =>
    exact Sys.use_inside (c := "") (o := none) (by simp) (by simp) rfl rfl
      (Pc.setRelease_acquires ..)
  | @sendRevoke a n hpc =>
    exact Sys.use_inside (c := "") (o := none) (by simp) (by simp) rfl rfl (by rw [hpc]; rfl)
  | @revoke a n tgt ret e hpc he =>
    exact Sys.use_inside (c := "") (o := none) (by simp) (by simp) rfl rfl (by rw [hpc]; rfl)
  | @retry a x next n e e' hpc he hr =>
    exact Sys.use_inside (c := next) (o := some n) (by simp) (by simp) rfl rfl
      (Pc.setRelease_acquires ..)
  | @replyRevoke a n tgt ret e hpc he =>
    exact Sys.use_inside (c := tgt) (o := (Client.revokeHandlerReply e).2) (by simp) (by simp)
      rfl rfl (by rw [hpc]; rfl)
  | @replyRelease a n e e' sig hpc he hr =>
    exact Sys.use_inside (c := a.client) (o := sig) (by simp) (by simp) rfl rfl (by rw [hpc]; rfl)

end Uses

end Yfs.Lock
