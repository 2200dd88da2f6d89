import Yfs.Lock.Fifo
import Yfs.Lock.Answers

/-!
# Waits that end without a signal

`pthread_cond_wait` may return although nobody has signalled. The lock client waits
without a loop, so each of its three waits then goes on as if it had been signalled. The
one for a lock on its way back may do so; the one behind other threads and the one for a
`retry` may not, unless they run into `assert(0)` (`robust_iff`).
-/

namespace Yfs.Lock

open Client (QueuingThread Wait)

/-- A step of the system, or the return of a wait that nobody has signalled. -/
inductive Move where
  | event (ev : Event)
  | spurious (a : Thread)
  deriving DecidableEq

namespace Sys

/-- One move: `none` when it is not possible in this state. -/
def move (s : Sys) : Move → Option (Except Fault Sys)
  | .event ev => s.exec ev
  | .spurious a =>
    match s.pc a with
    | .waiting w n false => some (s.resume a n (s.entry a.client >>= (Client.wake · w)))
    | _ => none

/-- The section of `acquire` that a move runs. -/
def runs (s : Sys) :
    Move → Option (Thread × QueuingThread × Except Fault (Client.LockEntry × Client.Next))
  | .event ev => s.inAcquire ev
  | .spurious a =>
    match s.pc a with
    | .waiting w n false => some (a, n, s.entry a.client >>= (Client.wake · w))
    | _ => none

/-- The thread to which `acquire` returns `OK`, with its node. -/
def returner (s : Sys) (mv : Move) : Option (Thread × QueuingThread) :=
  match s.runs mv with
  | some (a, n, .ok (_, .returnOK)) => some (a, n)
  | _ => none

/-- The thread that sends an `acquire` request. -/
def asker (s : Sys) (mv : Move) : Option Thread :=
  match s.runs mv with
  | some (a, _, .ok (_, .call)) => some a
  | _ => none

/-- The thread sends an `acquire` request, after one that was answered `RETRY`. -/
def AsksAgain (s : Sys) (mv : Move) (a : Thread) : Prop :=
  s.asker mv = some a ∧
    ((∃ n b, s.pc a = .waiting .retry n b) ∨ ∃ n, s.pc a = .acquiring n (.rep .retry))

/-- The clients that have got a `retry` since their last `acquire` request. -/
def heard (s : Sys) (mv : Move) (r : String → Bool) : String → Bool :=
  match s.asker mv, mv with
  | some a, _ => Function.update r a.client false
  | none, .event (.retry a) =>
    match (s.pc a).release? a.client with
    | some (_, .retryReq next) => Function.update r next true
    | _ => r
  | none, _ => r

end Sys

/-- What the waits must not break: `acquire` returns `OK` to the front of the queue, when no other
thread holds the lock; and a request is repeated only after a `retry`. -/
structure Robust (s : Sys) (r : String → Bool) (mv : Move) (q : Sys) : Prop where
  front : ∀ a n, s.returner mv = some (a, n) →
    (q.queue a.client).head? = some n ∧ ∀ b, q.Holds b → b = a
  again : ∀ a, s.AsksAgain mv a → r a.client = true

/-- A wait that ends without a signal does no harm where the thread waits for a lock on its way
back, and where the process ends at `assert(0)`: behind other threads while the lock is being
acquired or given back, and for a `retry` when nobody acquires the lock any more. -/
def Harmless (s : Sys) : Move → Prop
  | .event _ => True
  | .spurious a =>
    (∀ n, s.pc a = .waiting .queued n false →
      (s.ent a.client).state = .acquiring ∨ (s.ent a.client).state = .releasing) ∧
    ∀ n, s.pc a = .waiting .retry n false → (s.ent a.client).state ≠ .acquiring

/-- One move that `may` be made, and who has got a `retry` then. -/
def Moves (may : Sys → Move → Prop) (x x' : Sys × (String → Bool)) : Prop :=
  ∃ mv q, may x.1 mv ∧ x.1.move mv = some (.ok q) ∧ x' = (q, x.1.heard mv x.2)

/-- The lock id was never used. -/
def Unused (x : Sys × (String → Bool)) : Prop := x = ({}, fun _ => false)

/-- The clients that have got a `retry` are those with a `RETRY` in their entry. -/
def Heard (s : Sys) (r : String → Bool) : Prop := ∀ c, r c = true ↔ (s.ent c).message = .retry

section Moves

variable {s q : Sys} {g : Books} {a b : Thread} {n m : QueuingThread} {e : Client.LockEntry}
  {next : Client.Next}
  {mv : Move} {r : String → Bool}

theorem Sys.exec_inAcquire {ev : Event} {rs : Except Fault (Client.LockEntry × Client.Next)}
    (h : s.inAcquire ev = some (a, n, rs)) (hq : s.exec ev = some (.ok q)) :
    s.resume a n rs = .ok q := by
  cases ev with
  | acquire b addr =>
    cases h
    simp only [exec] at hq
    split at hq
    · exact Option.some.inj hq
    · cases hq
  | wake b =>
    simp only [inAcquire] at h
    split at h
    case h_1 hpc =>
      cases h
      simp only [exec, hpc] at hq
      exact Option.some.inj hq
    case h_2 => cases h
  | reply b =>
    simp only [inAcquire] at h
    split at h
    case h_1 hpc =>
      cases h
      simp only [exec, hpc] at hq
      exact Option.some.inj hq
    case h_2 => cases h
  | release | serve | sendRevoke | revoke | retry => cases h

theorem Sys.runs_of_returner {mv : Move} (h : s.returner mv = some (a, n)) :
    ∃ e, s.runs mv = some (a, n, .ok (e, .returnOK)) := by
  unfold returner at h
  split at h
  case h_1 hr =>
    cases h
    exact ⟨_, hr⟩
  case h_2 => cases h

theorem Sys.runs_of_asker {mv : Move} (h : s.asker mv = some a) :
    ∃ n e, s.runs mv = some (a, n, .ok (e, .call)) := by
  unfold asker at h
  split at h
  case h_1 hr =>
    cases h
    exact ⟨_, _, hr⟩
  case h_2 => cases h

/-- The section of `acquire` that a move runs decides where its thread goes on. -/
theorem Sys.move_runs (hr : s.runs mv = some (a, n, .ok (e, next)))
    (hq : s.move mv = some (.ok q)) :
    s.resume a n (.ok (e, next)) = .ok q := by
  cases mv with
  | event ev => exact exec_inAcquire hr hq
  | spurious b =>
    simp only [runs] at hr
    split at hr
    case h_1 w m hpc =>
      simp only [Option.some.injEq, Prod.mk.injEq] at hr
      obtain ⟨rfl, rfl, hr⟩ := hr
      simp only [move, hpc, Option.some.injEq] at hq
      rw [← hr, hq]
    case h_2 => cases hr

/-- A thread whose wait ends harmlessly without a signal sends a request. -/
theorem Harmless.spurious (hm : Harmless s (.spurious a))
    (hq : s.move (.spurious a) = some (.ok q)) :
    s.asker (.spurious a) = some a ∧ ∃ n r, s.pc a = .waiting .released n false ∧
      Client.wake (s.ent a.client) .released = .ok r ∧ s.resume a n (.ok r) = .ok q := by
  simp only [Sys.move] at hq
  split at hq
  case h_1 w n hpc =>
    obtain ⟨e, r, he, hr, hres⟩ := Sys.resume_ok (Option.some.inj hq)
    rw [← Sys.ent_eq (Sys.entry_ok he)] at hr
    cases w with
    | released =>
      refine ⟨?_, n, r, hpc, hr, hres⟩
      simp only [Sys.asker, Sys.runs, hpc, he, bind, Except.bind, Client.wake, Client.blockUntilGot,
        Client.blockUntilGotLoop, if_true]
    | queued =>
      obtain hst | hst := hm.1 n hpc
      · simp [Client.wake, hst] at hr
      · simp [Client.wake, hst] at hr
    | retry => simp [Client.wake, Client.blockUntilGotLoop, hm.2 n hpc] at hr
  case h_2 => cases hq

theorem Custody.move (h : Custody s g) (hm : Harmless s mv) (hq : s.move mv = some (.ok q)) :
    ∃ g', Custody q g' := by
  cases mv with
  | event ev => exact h.step (Sys.steps_of_exec hq)
  | spurious a =>
    obtain ⟨-, n, r, hpc, hr, hres⟩ := hm.spurious hq
    exact ⟨g, h.wakeReleased hpc hr hres⟩

/-- A request is repeated only when a `RETRY` is there. -/
theorem Custody.asksAgain (h : Custody s g) (hm : Harmless s mv) (hq : s.move mv = some (.ok q))
    (ha : s.AsksAgain mv a) : (s.ent a.client).message = .retry := by
  obtain ⟨hask, hpc⟩ := ha
  obtain ⟨n, e, hrun⟩ := Sys.runs_of_asker hask
  cases mv with
  | event ev =>
    have hin : s.inAcquire ev = some (a, n, .ok (e, .call)) := hrun
    cases Sys.steps_of_exec hq with
    | acquire hidle =>
      simp only [Sys.inAcquire, Option.some.injEq, Prod.mk.injEq] at hin
      obtain ⟨rfl, -⟩ := hin
      obtain ⟨m, b, hpc⟩ | ⟨m, hpc⟩ := hpc <;> simp [hidle] at hpc
    | @wake a' w m e' r q hw he hr hq =>
      simp only [Sys.inAcquire, hw, Option.some.injEq, Prod.mk.injEq] at hin
      obtain ⟨rfl, -⟩ := hin
      obtain ⟨m, b, hpc⟩ | ⟨m, hpc⟩ := hpc
      · rw [hw] at hpc
        cases hpc
        exact (h.wakeRetry hw (Sys.ent_eq he ▸ hr) hq).2
      · simp [hw] at hpc
    | @replyAcquire a' m ret e' r q hw he hr hq =>
      simp only [Sys.inAcquire, hw, Option.some.injEq, Prod.mk.injEq] at hin
      obtain ⟨rfl, -, hin⟩ := hin
      simp only [Sys.entry, he, bind, Except.bind, hr, Except.ok.injEq] at hin
      exact (h.reply hw (Sys.ent_eq he ▸ hr) hq).2 (by rw [hin])
    | replyRevoke hw => simp [Sys.inAcquire, hw] at hin
    | replyRelease hw => simp [Sys.inAcquire, hw] at hin
    | _ => cases hin
  | spurious b =>
    obtain ⟨-, m, r, hw, -⟩ := hm.spurious hq
    simp only [Sys.runs, hw, Option.some.injEq, Prod.mk.injEq] at hrun
    obtain ⟨rfl, -⟩ := hrun
    obtain ⟨m, b, hpc⟩ | ⟨m, hpc⟩ := hpc <;> simp [hw] at hpc

/-- A thread to which `acquire` returns is the front, and holds the lock alone. -/
theorem Custody.returner (h : Custody q g) (hq : s.move mv = some (.ok q))
    (hr : s.returner mv = some (a, n)) :
    (q.queue a.client).head? = some n ∧ ∀ b, q.Holds b → b = a := by
  obtain ⟨e, hrun⟩ := Sys.runs_of_returner hr
  have hheld : q.held a = some n := by
    have hres := Sys.move_runs hrun hq
    cases hres
    simp
  refine ⟨(h.queues.front a n (.inr hheld)).2, fun b ⟨m, hb⟩ => ?_⟩
  have hka := h.entries.held a n hheld
  have hkb := h.entries.held b m hb
  rw [hka] at hkb
  exact h.queues.unique (.inr hheld) (.inr hb) (Token.kept.inj hkb).symm

/-- **Every harmless move is robust.** -/
theorem Custody.robust (h : Custody s g) (hh : Heard s r) (hm : Harmless s mv)
    (hq : s.move mv = some (.ok q)) :
    Robust s r mv q := by
  obtain ⟨g', hg'⟩ := h.move hm hq
  exact ⟨fun a n hr => hg'.returner hq hr, fun a ha => (hh _).mpr (h.asksAgain hm hq ha)⟩

/-- A thread whose request is on its way after a section of `acquire` has sent it there. -/
theorem Sys.asker_of_req {ev : Event} {rs : Except Fault (Client.LockEntry × Client.Next)}
    (hin : s.inAcquire ev = some (a, n, rs)) (hq : s.exec ev = some (.ok q))
      (hpc : q.pc a = .acquiring m .req) :
    s.asker (.event ev) = some a := by
  have hres := exec_inAcquire hin hq
  cases rs with
  | error f => cases hres
  | ok r =>
    obtain ⟨e, next⟩ := r
    have hrun : s.runs (.event ev) = some (a, n, .ok (e, next)) := hin
    cases next with
    | call => rw [asker, hrun]
    | returnOK =>
      cases hres
      simp at hpc
    | wait w =>
      cases hres
      simp at hpc

/-- A request goes out: the `RETRY` before it is used up. -/
theorem Custody.heard_asker (h : Custody q g) (hh : Heard s r) (hq : s.move mv = some (.ok q))
    (ha : s.asker mv = some a) : Heard q (Function.update r a.client false) := by
  obtain ⟨n, e, hrun⟩ := Sys.runs_of_asker ha
  have hres := Sys.move_runs hrun hq
  intro c
  rw [Function.update_apply]
  split_ifs with hc
  · have hp := h.pc a
    rw [Sys.resume_call hres] at hp
    simp [hc, hp.2]
  · rw [Sys.resume_ent hres, if_neg hc]
    exact hh c

theorem Sys.heard_eq {ev : Event} (ha : s.asker (.event ev) = none)
    (hev : ¬ ∃ a x y, ev = .retry a ∧ (s.pc a).release? a.client = some (x, .retryReq y)) :
    s.heard (.event ev) r = r := by
  unfold heard
  rw [ha]
  cases ev with
  | retry a =>
    dsimp only
    split
    case h_1 x y hrel => exact absurd ⟨a, x, y, rfl, hrel⟩ hev
    case h_2 => rfl
  | _ => rfl

/-- Nobody has told the client that is about to be revoked to retry. -/
theorem Custody.revoked_message (h : Custody s g) {t : String} {ret : Status}
    (hpc : s.pc a = .acquiring n (.revReq t ret)) : (s.ent t).message ≠ .retry := by
  have hp := h.pc a
  rw [hpc] at hp
  have hpend : Pending s g a ∧ t = s.srv.owner := by
    cases ret with
    | ok => exact hp.2
    | retry => exact ⟨hp.2.2.1, hp.2.2.2.1⟩
  obtain ⟨hpend, rfl⟩ := hpend
  intro hm
  have hr := h.entries.retry _ hm
  rw [h.server.owner] at hr
  exact h.not_refused hpend.given hr

/-- Every other step writes a `RETRY` only where `retry_handler` runs, and takes none out. -/
theorem Custody.heard_event (h : Custody s g) (hh : Heard s r) {ev : Event}
    (hq : s.exec ev = some (.ok q))
    (ha : s.asker (.event ev) = none) : Heard q (s.heard (.event ev) r) := by
  have hs := Sys.steps_of_exec hq
  intro c
  by_cases hev : ∃ a x y, ev = .retry a ∧ (s.pc a).release? a.client = some (x, .retryReq y)
  · obtain ⟨a, x, y, rfl, hrel⟩ := hev
    have hheard : s.heard (.event (.retry a)) r = Function.update r y true := by
      simp only [Sys.heard, ha, hrel]
    rw [hheard, Function.update_apply]
    cases hs with
    | @retry _ _ next n e e' hpc he hr =>
      rw [hrel] at hpc
      cases hpc
      rw [Sys.setPc_ent, Sys.signal_ent, Sys.setClient_ent]
      split_ifs with hc
      · unfold Client.retryHandler at hr
        split at hr
        case h_1 => cases hr
        case h_2 =>
          cases hr
          simp
      · exact hh c
  · rw [Sys.heard_eq ha hev, hh c]
    obtain hme | hw := hs.message c
    · rw [hme]
    generalize hme : (q.ent c).message = msg at hw
    cases hw with
    | @wake a n hpc hqa =>
      have hin : s.inAcquire (.wake a) =
          some (a, n, s.entry a.client >>= (Client.wake · .retry)) := by
        simp only [Sys.inAcquire, hpc]
      rw [Sys.asker_of_req hin hq hqa] at ha
      cases ha
    | @reply a n hpc hqa =>
      have hin : s.inAcquire (.reply a) = some
        (a, n, s.entry a.client >>= (Client.blockUntilGotReply · .retry)) := by
        simp only [Sys.inAcquire, hpc]
      rw [Sys.asker_of_req hin hq hqa] at ha
      cases ha
    | @gaveBack a n hpc =>
      have hfront : s.Front a n := .inl (by rw [hpc]; rfl)
      simp [h.message_ne_retry hfront (by simp [hpc, Pc.Refused])]
    | @revoke a n tgt ret hpc =>
      have hne : (s.ent c).message ≠ .retry := h.revoked_message hpc
      simp [hne]
    | @retry a x next hrel => exact absurd ⟨a, x, c, rfl, hrel⟩ hev

theorem Custody.heard (h : Custody s g) (hh : Heard s r) (hm : Harmless s mv)
    (hq : s.move mv = some (.ok q)) :
    Heard q (s.heard mv r) := by
  obtain ⟨g', hg'⟩ := h.move hm hq
  cases ha : s.asker mv with
  | some a =>
    rw [show s.heard mv r = Function.update r a.client false by simp only [Sys.heard, ha]]
    exact hg'.heard_asker hh hq ha
  | none =>
    cases mv with
    | event ev => exact h.heard_event hh hq ha
    | spurious a =>
      rw [(hm.spurious hq).1] at ha
      cases ha

/-- What a run of harmless moves keeps. -/
theorem custody_reachable {x : Sys × (String → Bool)} (hx : Reachable Unused (Moves Harmless) x) :
    (∃ g, Custody x.1 g) ∧ Heard x.1 x.2 := by
  refine hx.invariant (I := fun x => (∃ g, Custody x.1 g) ∧ Heard x.1 x.2) ?_ ?_
  · rintro x rfl
    exact ⟨⟨{}, custody_init⟩, fun c => by simp [Sys.ent]⟩
  · rintro x x' ⟨⟨g, hg⟩, hh⟩ ⟨mv, q, hm, hq, rfl⟩
    exact ⟨hg.move hm hq, hg.heard hh hm hq⟩

/-! ## Waits that must not end without a signal -/

/-- A thread behind others goes on in place of the front: it finds the lock in use by a thread of
its client. -/
theorem Custody.queued_breaks (h : Custody s g) (hpc : s.pc a = .waiting .queued n false)
    (hst : (s.ent a.client).state ≠ .acquiring ∧ (s.ent a.client).state ≠ .releasing ∧
      (s.ent a.client).state ≠ .none) (hq : s.move (.spurious a) = some (.ok q)) : ¬ Robust s r
        (.spurious a) q := by
  intro hrob
  obtain ⟨-, htl, hhd⟩ := h.queues.behind a n hpc
  simp only [Sys.move, hpc] at hq
  obtain ⟨e, x, he, hx, hres⟩ := Sys.resume_ok (Option.some.inj hq)
  have hent := Sys.ent_eq (Sys.entry_ok he)
  cases hs : e.state with
  | locked =>
    have hx' := hx
    simp only [Client.wake, hs, Except.ok.injEq] at hx
    subst hx
    have hret : s.returner (.spurious a) = some (a, n) := by
      simp only [Sys.returner, Sys.runs, hpc, he, bind, Except.bind, hx']
    have hfront := (hrob.front a n hret).1
    rw [Sys.queue, show q.client a.client = some e by cases hres; simp] at hfront
    exact hhd (hent ▸ hfront)
  | free =>
    rw [(h.entries.free _ (by rw [hent, hs])).2] at htl
    cases htl
  | _ => simp [hent, hs] at hst

/-- A thread that waits for a `retry` asks again, although none has come. -/
theorem Custody.retry_breaks (h : Custody s g) (hh : Heard s r)
    (hpc : s.pc a = .waiting .retry n false)
    (hst : (s.ent a.client).state = .acquiring) (hq : s.move (.spurious a) = some (.ok q)) :
    ¬ Robust s r (.spurious a) q := by
  intro hrob
  have hp := h.pc a
  rw [hpc] at hp
  simp only [Sys.move, hpc] at hq
  obtain ⟨e, x, he, hx, -⟩ := Sys.resume_ok (Option.some.inj hq)
  have hent := Sys.ent_eq (Sys.entry_ok he)
  have hask : s.asker (.spurious a) = some a := by
    simp only [Sys.asker, Sys.runs, hpc, he, bind, Except.bind, Client.wake,
      Client.blockUntilGotLoop]
    simp [← hent, hst]
  exact hp.2.2 ((hh _).mp (hrob.again a ⟨hask, .inl ⟨n, false, hpc⟩⟩))

end Moves

section Main

/-- A thread behind others asks for the lock in place of the front. -/
def Early (s : Sys) : Move → Prop
  | .event _ => False
  | .spurious a => (∃ n, s.pc a = .waiting .queued n false) ∧ (s.ent a.client).state = .none

/-- **Waits that end without a signal.** In every run whose moves are all harmless, `acquire`
returns `OK` to the front of the queue only, when no other thread holds the lock, and a request is
repeated only after a `retry`. The first move that is not harmless breaks this at once, unless a
thread behind others then asks for the lock itself. -/
theorem robust_iff {x : Sys × (String → Bool)} (hx : Reachable Unused (Moves Harmless) x)
    {mv : Move} {q : Sys}
    (hq : x.1.move mv = some (.ok q)) : Robust x.1 x.2 mv q ↔ Harmless x.1 mv ∨ Early x.1 mv := by
  obtain ⟨⟨g, hg⟩, hh⟩ := custody_reachable hx
  constructor
  · intro hrob
    by_contra hno
    obtain ⟨hm, he⟩ := not_or.mp hno
    cases mv with
    | event ev => exact hm trivial
    | spurious a =>
      cases hpc : x.1.pc a with
      | waiting w n sig =>
        cases w with
        | queued =>
          cases sig with
          | true => simp [Sys.move, hpc] at hq
          | false =>
            refine hg.queued_breaks hpc ⟨?_, ?_, fun hn => he ⟨⟨n, hpc⟩, hn⟩⟩ hq hrob
            · exact fun hs => hm ⟨fun _ _ => .inl hs, by simp [hpc]⟩
            · exact fun hs => hm ⟨fun _ _ => .inr hs, by simp [hpc]⟩
        | retry =>
          cases sig with
          | true => simp [Sys.move, hpc] at hq
          | false =>
            refine hg.retry_breaks hh hpc ?_ hq hrob
            by_contra hs
            exact hm ⟨by simp [hpc], fun _ _ => hs⟩
        | released => exact hm ⟨by simp [hpc], by simp [hpc]⟩
      | _ => exact hm ⟨by simp [hpc], by simp [hpc]⟩
  · rintro (hm | he)
    · exact hg.robust hh hm hq
    · cases mv with
      | event ev => exact he.elim
      | spurious a =>
        obtain ⟨⟨n, hpc⟩, hst⟩ := he
        simp only [Sys.move, hpc] at hq
        obtain ⟨e, y, he, hy, -⟩ := Sys.resume_ok (Option.some.inj hq)
        have hwake : Client.wake e .queued = .ok ({ e with state := .acquiring }, .call) := by
          simp only [Client.wake, ← Sys.ent_eq (Sys.entry_ok he), hst]
          rfl
        have hruns : x.1.runs (.spurious a) =
            some (a, n, .ok ({ e with state := .acquiring }, .call)) := by
          simp only [Sys.runs, hpc, he, bind, Except.bind, hwake]
        constructor
        · intro b m hr
          simp only [Sys.returner, hruns] at hr
          cases hr
        · rintro b ⟨hb, hor⟩
          simp only [Sys.asker, hruns, Option.some.injEq] at hb
          subst hb
          obtain ⟨m, b, hp⟩ | ⟨m, hp⟩ := hor <;> simp [hpc] at hp

/-- A run of moves from the start. -/
def Sys.moves (x : Sys × (String → Bool)) : List Move → Option (Sys × (String → Bool))
  | [] => some x
  | mv :: mvs =>
    match x.1.move mv with
    | some (.ok q) => moves (q, x.1.heard mv x.2) mvs
    | _ => none

theorem reachable_of_moves {may : Sys → Move → Prop} {mvs : List Move}
    (hmay : ∀ s, ∀ mv ∈ mvs, may s mv)
    {x y : Sys × (String → Bool)} (hx : Reachable Unused (Moves may) x)
    (hy : Sys.moves x mvs = some y) :
    Reachable Unused (Moves may) y := by
  induction mvs generalizing x with
  | nil =>
    cases hy
    exact hx
  | cons mv mvs ih =>
    simp only [Sys.moves] at hy
    split at hy
    case h_1 q hq =>
      exact ih (fun s m hm => hmay s m (List.mem_cons_of_mem _ hm))
        (hx.next ⟨mv, q, hmay _ mv (List.mem_cons_self ..), hq, rfl⟩) hy
    case h_2 => cases hy

/-- What can be seen of a move after a run, computed. -/
theorem exists_of_moves (may : Sys → Move → Prop) (mvs : List Move) (mv : Move) {β : Type}
    (see : Sys × (String → Bool) → Sys → β) {v : β} (hmay : ∀ s, ∀ mv ∈ mvs, may s mv)
    (h : ((Sys.moves ({}, fun _ => false) mvs).bind fun x =>
      match x.1.move mv with
      | some (.ok q) => some (see x q)
      | _ => none) = some v) :
    ∃ x q, Reachable Unused (Moves may) x ∧ x.1.move mv = some (.ok q) ∧ see x q = v := by
  obtain ⟨x, hx, hv⟩ := Option.bind_eq_some_iff.mp h
  split at hv
  case h_1 q hq => exact ⟨x, q, reachable_of_moves hmay (.start rfl) hx, hq, Option.some.inj hv⟩
  case h_2 => cases hv

/-- A thread of the first client gets the lock and keeps it; then one of the second client is
refused. -/
def refusedRun : List Move :=
  [.event (.acquire ⟨"127.0.0.1:1", 0⟩ 0), .event (.serve ⟨"127.0.0.1:1", 0⟩),
    .event (.reply ⟨"127.0.0.1:1", 0⟩),
    .event (.acquire ⟨"127.0.0.1:2", 0⟩ 0), .event (.serve ⟨"127.0.0.1:2", 0⟩),
    .event (.sendRevoke ⟨"127.0.0.1:2", 0⟩), .event (.revoke ⟨"127.0.0.1:2", 0⟩),
    .event (.reply ⟨"127.0.0.1:2", 0⟩)]

/-- After `refusedRun` the first client's lock has gone to the second one and comes back;
meanwhile its third thread has asked for it in place of its second. -/
def overtakingRun : List Move :=
  [.event (.wake ⟨"127.0.0.1:2", 0⟩), .event (.serve ⟨"127.0.0.1:2", 0⟩),
    .event (.reply ⟨"127.0.0.1:2", 0⟩),
    .event (.serve ⟨"127.0.0.1:1", 2⟩), .event (.sendRevoke ⟨"127.0.0.1:1", 2⟩),
    .event (.revoke ⟨"127.0.0.1:1", 2⟩), .event (.release ⟨"127.0.0.1:2", 0⟩),
    .event (.serve ⟨"127.0.0.1:2", 0⟩), .event (.retry ⟨"127.0.0.1:2", 0⟩),
    .event (.reply ⟨"127.0.0.1:1", 2⟩), .event (.serve ⟨"127.0.0.1:1", 2⟩)]

/-- A thread waits for a lock on its way back, and asks for it before it is there. -/
theorem robust_iff_released : ∃ x q, Reachable Unused (Moves Harmless) x ∧
    x.1.move (.spurious ⟨"127.0.0.1:1", 1⟩) = some (.ok q) ∧
    Robust x.1 x.2 (.spurious ⟨"127.0.0.1:1", 1⟩) q := by
  obtain ⟨x, q, hx, hq, hpc⟩ := exists_of_moves Harmless
    [.event (.acquire ⟨"127.0.0.1:1", 0⟩ 0), .event (.serve ⟨"127.0.0.1:1", 0⟩),
      .event (.reply ⟨"127.0.0.1:1", 0⟩),
      .event (.release ⟨"127.0.0.1:1", 0⟩), .event (.acquire ⟨"127.0.0.1:2", 0⟩ 0),
      .event (.serve ⟨"127.0.0.1:2", 0⟩), .event (.sendRevoke ⟨"127.0.0.1:2", 0⟩),
      .event (.revoke ⟨"127.0.0.1:2", 0⟩), .event (.acquire ⟨"127.0.0.1:1", 1⟩ 0)]
    (.spurious ⟨"127.0.0.1:1", 1⟩) (fun x _ => x.1.pc ⟨"127.0.0.1:1", 1⟩) (by simp [Harmless])
    (v := .waiting .released ⟨1, 0⟩ false) (by decide)
  exact ⟨x, q, hx, hq, (robust_iff hx hq).mpr (.inl ⟨by simp [hpc], by simp [hpc]⟩)⟩

/-- **Waits without a loop are not robust.** A thread behind others returns with the lock that the
front holds; a refused one asks again without a `retry`; and a thread that asks for the lock from
behind gets it, although it is not the front. -/
theorem spurious_breaks :
    (∃ x q, Reachable Unused (Moves fun _ _ => True) x ∧
      x.1.move (.spurious ⟨"127.0.0.1:1", 1⟩) = some (.ok q) ∧
      x.1.returner (.spurious ⟨"127.0.0.1:1", 1⟩) = some (⟨"127.0.0.1:1", 1⟩, ⟨1, 0⟩) ∧
      (q.queue "127.0.0.1:1").head? = some ⟨0, 0⟩ ∧
      q.held ⟨"127.0.0.1:1", 0⟩ = some ⟨0, 0⟩ ∧ q.held ⟨"127.0.0.1:1", 1⟩ = some ⟨1, 0⟩ ∧
      ¬ Robust x.1 x.2 (.spurious ⟨"127.0.0.1:1", 1⟩) q) ∧
    (∃ x q, Reachable Unused (Moves fun _ _ => True) x ∧
      x.1.move (.spurious ⟨"127.0.0.1:2", 0⟩) = some (.ok q) ∧
      x.1.pc ⟨"127.0.0.1:2", 0⟩ = .waiting .retry ⟨0, 0⟩ false ∧
      x.1.asker (.spurious ⟨"127.0.0.1:2", 0⟩) = some ⟨"127.0.0.1:2", 0⟩ ∧
        x.2 "127.0.0.1:2" = false ∧
      ¬ Robust x.1 x.2 (.spurious ⟨"127.0.0.1:2", 0⟩) q) ∧
    ∃ x q y q', Reachable Unused (Moves Harmless) x ∧ Early x.1 (.spurious ⟨"127.0.0.1:1", 2⟩) ∧
      x.1.move (.spurious ⟨"127.0.0.1:1", 2⟩) = some (.ok q) ∧
        Sys.moves (q, fun _ => false) overtakingRun = some y ∧
      y.1.move (.event (.reply ⟨"127.0.0.1:1", 2⟩)) = some (.ok q') ∧
      y.1.returner (.event (.reply ⟨"127.0.0.1:1", 2⟩)) = some (⟨"127.0.0.1:1", 2⟩, ⟨2, 0⟩) ∧
      (q'.queue "127.0.0.1:1").head? = some ⟨1, 0⟩ := by
  refine ⟨?_, ?_, ?_⟩
  · obtain ⟨x, q, hx, hq, hsee⟩ := exists_of_moves (fun _ _ => True)
      [.event (.acquire ⟨"127.0.0.1:1", 0⟩ 0), .event (.serve ⟨"127.0.0.1:1", 0⟩),
        .event (.reply ⟨"127.0.0.1:1", 0⟩), .event (.acquire ⟨"127.0.0.1:1", 1⟩ 0)]
      (.spurious ⟨"127.0.0.1:1", 1⟩)
      (fun x q => (x.1.returner (.spurious ⟨"127.0.0.1:1", 1⟩), (q.queue "127.0.0.1:1").head?,
        q.held ⟨"127.0.0.1:1", 0⟩, q.held ⟨"127.0.0.1:1", 1⟩)) (fun _ _ _ => trivial)
      (v := (some (⟨"127.0.0.1:1", 1⟩, ⟨1, 0⟩), some ⟨0, 0⟩, some ⟨0, 0⟩, some ⟨1, 0⟩)) (by decide)
    simp only [Prod.mk.injEq] at hsee
    obtain ⟨hret, hhd, h₀, h₁⟩ := hsee
    refine ⟨x, q, hx, hq, hret, hhd, h₀, h₁, fun hrob => ?_⟩
    have hfront := (hrob.front _ _ hret).1
    rw [hhd] at hfront
    cases hfront
  · obtain ⟨x, q, hx, hq, hsee⟩ :=
      exists_of_moves (fun _ _ => True) refusedRun (.spurious ⟨"127.0.0.1:2", 0⟩)
      (fun x _ => (x.1.pc ⟨"127.0.0.1:2", 0⟩, x.1.asker (.spurious ⟨"127.0.0.1:2", 0⟩),
        x.2 "127.0.0.1:2"))
      (fun _ _ _ => trivial)
      (v := (.waiting .retry ⟨0, 0⟩ false, some ⟨"127.0.0.1:2", 0⟩, false)) (by decide)
    simp only [Prod.mk.injEq] at hsee
    obtain ⟨hpc, hask, hr⟩ := hsee
    refine ⟨x, q, hx, hq, hpc, hask, hr, fun hrob => ?_⟩
    rw [hrob.again _ ⟨hask, .inl ⟨_, _, hpc⟩⟩] at hr
    cases hr
  · obtain ⟨x, q, hx, hq, hsee⟩ := exists_of_moves Harmless (refusedRun ++
        [.event (.acquire ⟨"127.0.0.1:1", 1⟩ 0), .event (.acquire ⟨"127.0.0.1:1", 2⟩ 0),
          .event (.release ⟨"127.0.0.1:1", 0⟩), .event (.serve ⟨"127.0.0.1:1", 0⟩),
          .event (.retry ⟨"127.0.0.1:1", 0⟩), .event (.reply ⟨"127.0.0.1:1", 0⟩)])
        (.spurious ⟨"127.0.0.1:1", 2⟩)
      (fun x q => (decide (x.1.pc ⟨"127.0.0.1:1", 2⟩ = .waiting .queued ⟨2, 0⟩ false ∧
          (x.1.ent "127.0.0.1:1").state = .none),
        (Sys.moves (q, fun _ => false) overtakingRun).bind fun y =>
          match y.1.move (.event (.reply ⟨"127.0.0.1:1", 2⟩)) with
          | some (.ok q') => some (y.1.returner (.event (.reply ⟨"127.0.0.1:1", 2⟩)),
              (q'.queue "127.0.0.1:1").head?)
          | _ => none)) (by simp [refusedRun, Harmless])
      (v := (true, some (some (⟨"127.0.0.1:1", 2⟩, ⟨2, 0⟩), some ⟨1, 0⟩))) (by decide)
    simp only [Prod.mk.injEq, decide_eq_true_iff] at hsee
    obtain ⟨⟨hpc, hst⟩, hlate⟩ := hsee
    obtain ⟨y, hy, hv⟩ := Option.bind_eq_some_iff.mp hlate
    split at hv
    case h_1 q' hq' =>
      simp only [Option.some.injEq, Prod.mk.injEq] at hv
      exact ⟨x, q, y, q', hx, ⟨⟨_, hpc⟩, hst⟩, hq, hy, hq', hv⟩
    case h_2 => cases hv

end Main

end Yfs.Lock
