import Yfs.Lock.Preservation
import Yfs.Lock.Steps

/-!
# Safety of the caching lock service

All lock ids together, and what holds in every state any run can reach:

- `mutual_exclusion`: no two threads hold a lock, neither of one client nor of two;
- `client_server_agreement`: a client that counts a lock as its own is the server's
  owner of it, and no section ever faults;
- `no_lost_message`: a revocation in progress is always on its way to the owner or
  noted there, a sleeping thread is always known to the server, and the message slot
  loses nothing.
-/

namespace Yfs.Lock

open Client (QueuingThread Wait)

/-- The service: one `Sys` for every lock id. -/
abbrev State := LockId → Sys

/-- The thread that starts a call with this event. -/
def Event.caller : Event → Option Thread
  | .acquire a _ | .release a => some a
  | _ => none

/-- A thread that starts a call is in no other call, whatever the lock id. -/
def State.MayCall (s : State) (ev : Event) : Prop :=
  ∀ a, ev.caller = some a → ∀ lid, (s lid).pc a = .idle

/-- No lock id was ever used. -/
def Init (s : State) : Prop := ∀ lid, s lid = {}

/-- One section runs, for one lock id. -/
def Step (s s' : State) : Prop :=
  ∃ lid ev q, s.MayCall ev ∧ (s lid).exec ev = some (.ok q) ∧ s' = Function.update s lid q

/-- The thread is between a return of `OK` from `acquire` and its next `release`. -/
def Sys.Holds (s : Sys) (a : Thread) : Prop := ∃ n, s.held a = some n

/-- Run events one after another; `none` if one is not possible or faults. -/
def Sys.run (s : Sys) : List Event → Option Sys
  | [] => some s
  | ev :: evs =>
    match s.exec ev with
    | some (.ok q) => q.run evs
    | _ => none

/-- **The invariant holds in every reachable state**, for every lock id. -/
theorem inv_reachable {s : State} (h : Reachable Init Step s) (lid : LockId) :
    ∃ g, Inv (s lid) g := by
  have hc := Reachable.component (I := fun q : Sys => q = {})
    (S := fun q q' : Sys => ∃ ev, q.exec ev = some (.ok q'))
    (fun s s' hs => by
      obtain ⟨lid, ev, q, -, hq, rfl⟩ := hs
      exact ⟨lid, q, ⟨ev, hq⟩, rfl⟩) h lid
  refine hc.invariant (I := fun q => ∃ g, Inv q g) ?_ ?_
  · rintro q rfl
    exact ⟨{}, inv_init⟩
  · rintro q q' ⟨g, hg⟩ ⟨ev, hq⟩
    obtain ⟨s', g', hs', hg'⟩ := hg.exec_ok hq
    cases hs'
    exact ⟨g', hg'⟩

/-- A thread that starts a call for the only lock id in use may do so: `exec` has checked it. -/
theorem mayCall_of_exec (lid : LockId) {q : Sys} {ev : Event} {r : Except Fault Sys}
    (h : q.exec ev = some r) :
    State.MayCall (Function.update (fun _ => {}) lid q) ev := by
  intro a ha lid'
  by_cases hl : lid' = lid
  · subst hl
    rw [Function.update_self]
    cases ev <;> simp only [Event.caller] at ha <;> cases ha
    · by_contra hne
      simp [Sys.exec, hne] at h
    · cases hp : q.pc a <;> simp [Sys.exec, hp] at h
      rfl
  · rw [Function.update_of_ne hl]

/-- A state of one lock id that a run gets to is a reachable state of the service. -/
theorem reachable_of_run (lid : LockId) {evs : List Event} {q : Sys}
    (h : Sys.run {} evs = some q) :
    Reachable Init Step (Function.update (fun _ => {}) lid q) := by
  have hgen : ∀ evs (q₀ : Sys), Reachable Init Step (Function.update (fun _ => {}) lid q₀) →
      q₀.run evs = some q → Reachable Init Step (Function.update (fun _ => {}) lid q) := by
    intro evs
    induction evs with
    | nil =>
      intro q₀ h₀ hq
      cases hq
      exact h₀
    | cons ev evs ih =>
      intro q₀ h₀ hq
      simp only [Sys.run] at hq
      split at hq
      case h_1 q₁ hex =>
        exact ih q₁ (h₀.next ⟨lid, ev, q₁, mayCall_of_exec lid hex, by simpa using hex, by simp⟩) hq
      case h_2 => cases hq
  refine hgen evs {} (.start fun lid' => ?_) h
  by_cases hl : lid' = lid
  · rw [hl, Function.update_self]
  · rw [Function.update_of_ne hl]

/-! ## Mutual exclusion -/

/-- The lock is held once: the clients of two holders are the server's owner, hence one client,
whose queue has one front. -/
theorem Inv.held_unique {s : Sys} {g : Ghost} (h : Inv s g) {a b : Thread} {n m : QueuingThread}
    (ha : s.held a = some n) (hb : s.held b = some m) : a = b := by
  obtain ⟨hnt, e, he, hhd, hs⟩ := h.held a n ha
  obtain ⟨hmt, e', he', hhd', hs'⟩ := h.held b m hb
  have hoa := h.owner_eq (c := a.client) (by simp [h.stage_of_locked he (.inl hs), Stage.IsOwner])
  have hob := h.owner_eq (c := b.client) (by simp [h.stage_of_locked he' (.inl hs'), Stage.IsOwner])
  have hcl : a.client = b.client := hoa.1.symm.trans hob.1
  rw [← hcl, he] at he'
  cases he'
  rw [hhd] at hhd'
  cases hhd'
  exact Thread.ext hcl (hnt.symm.trans hmt)

/-- **Mutual exclusion**: in no reachable state two threads, of one client or of
two, hold the same lock. -/
theorem mutual_exclusion {s : State} (h : Reachable Init Step s) (lid : LockId)
    {a b : Thread} (ha : (s lid).Holds a) (hb : (s lid).Holds b) : a = b := by
  obtain ⟨g, hg⟩ := inv_reachable h lid
  obtain ⟨n, hn⟩ := ha
  obtain ⟨m, hm⟩ := hb
  exact hg.held_unique hn hm

/-- Two clients contend for a lock: the first gets it, the second asks, the server
revokes, the first gives it back, the second is told to retry and gets it. -/
def handOverRun (a b : Thread) : List Event :=
  [.acquire a 0, .serve a, .reply a, .acquire b 0, .serve b, .sendRevoke b, .revoke b, .reply b,
    .release a, .serve a, .retry a, .reply a, .wake b, .serve b, .reply b]

/-- After the hand-over only the second client's thread holds the lock. -/
theorem mutual_exclusion_handOver :
    ∃ s, Reachable Init Step s ∧ (s 1).Holds ⟨"127.0.0.1:2", 0⟩ ∧
      ∀ a, (s 1).Holds a → a = ⟨"127.0.0.1:2", 0⟩ := by
  have hrun : (Sys.run {} (handOverRun ⟨"127.0.0.1:1", 0⟩ ⟨"127.0.0.1:2", 0⟩)).map
      (·.held ⟨"127.0.0.1:2", 0⟩) = some (some ⟨0, 0⟩) := by decide
  obtain ⟨q, hq, hh⟩ := Option.map_eq_some_iff.mp hrun
  have hr := reachable_of_run 1 hq
  have hb : ((Function.update (fun _ => {}) 1 q : State) 1).Holds ⟨"127.0.0.1:2", 0⟩ := by
    rw [Function.update_self]
    exact ⟨_, hh⟩
  exact ⟨_, hr, hb, fun a ha => mutual_exclusion hr 1 ha hb⟩

/-! ## Agreement, and no failing assertion -/

/-- **Client and server agree, and nothing faults**: a client whose entry is `LOCKED`
or `FREE` is the owner in the server's entry, which is `LOCKED` or `REVOKING`; and no
section run in a reachable state fails an `assert`, takes `begin()` of an empty set or
`front()` of an empty list, or misses its entry. -/
theorem client_server_agreement {s : State} (h : Reachable Init Step s) (lid : LockId) :
    (∀ c e, (s lid).client c = some e → e.state = .locked ∨ e.state = .free →
      ∃ se, (s lid).server = some se ∧ se.owner = c ∧
        (se.state = .locked ∨ se.state = .revoking)) ∧
    ∀ ev f, (s lid).exec ev ≠ some (.error f) := by
  obtain ⟨g, hg⟩ := inv_reachable h lid
  constructor
  · intro c e he hs
    obtain ⟨ho, hne⟩ := hg.owner_eq (c := c) (by simp [hg.stage_of_locked he hs, Stage.IsOwner])
    cases hse : (s lid).server with
    | none => simp [hse, ← ho] at hne
    | some se =>
      have hsv := hg.server
      rw [hse] at ho hsv
      refine ⟨se, rfl, ho, ?_⟩
      cases hst : se.state with
      | none => exact absurd ((hsv.none_ok hst).1.symm.trans ho).symm hne
      | locked => exact .inl rfl
      | revoking => exact .inr rfl
      | retrying => exact absurd ((hsv.retrying_ok hst).1.symm.trans ho).symm hne
  · intro ev f hf
    obtain ⟨s', g', hs', -⟩ := hg.exec_ok hf
    cases hs'

/-- The hand-over ends in a state where the second client's entry is `LOCKED`. -/
theorem client_server_agreement_handOver :
    ∃ s, Reachable Init Step s ∧
      (∃ e, (s 1).client "127.0.0.1:2" = some e ∧ e.state = .locked) ∧
      ∃ se, (s 1).server = some se ∧ se.owner = "127.0.0.1:2" ∧
        (se.state = .locked ∨ se.state = .revoking) := by
  have hrun : (Sys.run {} (handOverRun ⟨"127.0.0.1:1", 0⟩ ⟨"127.0.0.1:2", 0⟩)).map
      (·.client "127.0.0.1:2") = some (some ⟨.locked, .empty, [⟨0, 0⟩]⟩) := by decide
  obtain ⟨q, hq, hc⟩ := Option.map_eq_some_iff.mp hrun
  have hr := reachable_of_run 1 hq
  have he : ((Function.update (fun _ => {}) 1 q : State) 1).client "127.0.0.1:2" =
      some ⟨.locked, .empty, [⟨0, 0⟩]⟩ := by
    rw [Function.update_self]
    exact hc
  exact ⟨_, hr, ⟨_, he, rfl⟩, (client_server_agreement hr 1).1 _ _ he (.inl rfl)⟩

/-! ## No lost message -/

/-- A revocation in progress is under way: the call is about to be made or on its
way, the owner has noted it, or the owner's `release` request is on its way. -/
def Sys.RevokeUnderWay (s : Sys) (owner : String) : Prop :=
  (∃ a n, s.pc a = .acquiring n .revSend ∨ ∃ ret, s.pc a = .acquiring n (.revReq owner ret)) ∨
  (∃ e, s.client owner = some e ∧ e.message = .revoke) ∨
  ∃ e a, s.client owner = some e ∧ e.state = .releasing ∧
    (s.pc a).release? a.client = some (owner, .req)

/-- The server knows that the client sleeps: it is in `waitingClients`, or it is
`retryingClient` and the `retry` call is still to be executed. -/
def Sys.KnownToSleep (s : Sys) (c : String) : Prop :=
  ∃ se, s.server = some se ∧
    (c ∈ se.waitingClients ∨
      se.retryingClient = c ∧ ∃ b x, (s.pc b).release? b.client = some (x, .retryReq c))

/-- The event consumes the message `m` in the slot of client `c`: a `RETRY` when the
front thread of `blockUntilGot` asks again because of it, a `REVOKE` when `release`
returns from the call it made because of it. -/
def Sys.Consumes (s : Sys) (ev : Event) (q : Sys) (c : String) : Client.Message → Prop
  | .empty => False
  | .retry => ∃ a n, a.client = c ∧ q.pc a = .acquiring n .req ∧
      (ev = .reply a ∧ s.pc a = .acquiring n (.rep .retry) ∨
        ev = .wake a ∧ s.pc a = .waiting .retry n true)
  | .revoke => ∃ a n, a.client = c ∧ ev = .reply a ∧ s.pc a = .releasing n .rep

/-- A section of `acquire` writes its own client's entry only. -/
theorem Sys.resume_client {s q : Sys} {a : Thread} {n : QueuingThread}
    {r : Except Fault (Client.LockEntry × Client.Next)} (h : s.resume a n r = .ok q) :
    ∃ e next, r = .ok (e, next) ∧ (∀ c, q.client c = (s.setClient a.client e).client c) ∧
      (next = .call → q.pc a = .acquiring n .req) := by
  cases r with
  | error f => cases h
  | ok r =>
    obtain ⟨e, next⟩ := r
    simp only [Sys.resume, Except.ok.injEq] at h
    subst h
    refine ⟨e, next, rfl, fun c => ?_, ?_⟩
    · cases next <;> rfl
    · rintro rfl
      simp

/-- A step changes a message slot that is not empty only by consuming its message. -/
theorem Inv.exec_message {s : Sys} {g : Ghost} (h : Inv s g) {ev : Event} {q : Sys}
    (hq : s.exec ev = some (.ok q)) {c : String} {e e' : Client.LockEntry}
    (he : s.client c = some e) (he' : q.client c = some e') (hm : e.message ≠ .empty) :
    e'.message = e.message ∨ e'.message = .empty ∧ s.Consumes ev q c e.message := by
  have hmsg := (Sys.steps_of_exec hq).message c
  rw [Sys.ent_eq he, Sys.ent_eq he'] at hmsg
  obtain hsame | hw := hmsg
  · exact .inl hsame
  generalize hme : e'.message = msg at hw
  cases hw with
  | @wake a n hpc hqa =>
    have hp := h.pc a
    rw [hpc] at hp
    obtain ⟨-, e₀, he₀, -, -, hst⟩ := hp
    have hen := h.entry a.client
    rw [hst, he] at hen
    obtain ⟨e₁, he₁, -, hret, -⟩ := hen
    cases he₁
    rw [hret]
    exact .inr ⟨rfl, a, n, rfl, hqa, .inr ⟨rfl, hpc⟩⟩
  | @reply a n hpc hqa =>
    have hp := h.pc a
    rw [hpc] at hp
    obtain ⟨-, -, href⟩ := hp
    simp only [AcqOk] at href
    have hen := h.entry a.client
    rw [he] at hen
    have hret : e.message = .retry := by
      cases hst : g.stage a.client <;> simp_all [Stage.Refused, EntryOk]
    rw [hret]
    exact .inr ⟨rfl, a, n, rfl, hqa, .inl ⟨rfl, hpc⟩⟩
  | @gaveBack a n hpc =>
    have hp := h.pc a
    rw [hpc] at hp
    obtain ⟨-, ⟨e₀, he₀, -, -, hrev⟩, -⟩ := hp
    rw [he] at he₀
    cases he₀
    rw [hrev]
    exact .inr ⟨rfl, a, n, rfl, rfl, hpc⟩
  | @revoke a n tgt ret hpc =>
    -- the slot of the client that is about to be revoked is empty
    obtain ⟨hrev, htgt, -⟩ := h.revoke_target hpc
    exact absurd ((h.server.rev_some a hrev).2.2.1 e (htgt ▸ he)) hm
  | @retry a x next hrel =>
    -- so is the slot of the client that is about to be told to retry
    obtain ⟨-, hnx⟩ : g.stage x = .returned a ∧ g.stage c = .retryWait a :=
      h.returning_of_release hrel
    have hen := h.entry c
    rw [hnx, he] at hen
    obtain ⟨e₀, he₀, -, hempty, -⟩ := hen
    cases he₀
    exact absurd hempty hm

/-- **No lost revoke, no lost wake-up, no lost message**: in every reachable state a
`REVOKING` entry has its revocation under way, a thread asleep in `blockUntilGot` is known
to the server, and no step changes a message slot in use but by consuming the message. -/
theorem no_lost_message {s : State} (h : Reachable Init Step s) (lid : LockId) :
    (∀ se, (s lid).server = some se → se.state = .revoking →
      (s lid).RevokeUnderWay se.owner) ∧
    (∀ a n, (s lid).pc a = .waiting .retry n false → (s lid).KnownToSleep a.client) ∧
    ∀ ev q, (s lid).exec ev = some (.ok q) → ∀ c e e', (s lid).client c = some e →
      q.client c = some e' → e.message ≠ .empty →
        e'.message = e.message ∨ e'.message = .empty ∧ (s lid).Consumes ev q c e.message := by
  obtain ⟨g, hg⟩ := inv_reachable h lid
  have hsv := hg.server
  refine ⟨?_, ?_, fun ev q hq c e e' he he' hm => hg.exec_message hq he he' hm⟩
  · intro se hse hrk
    rw [hse] at hsv
    simp only [Option.getD_some] at hsv
    cases hrev : g.rev with
    | some a =>
      obtain ⟨-, -, -, n, p, hp, hor⟩ := hsv.rev_some a hrev
      refine .inl ⟨a, n, ?_⟩
      rcases hor with rfl | ⟨ret, rfl⟩
      · exact .inl hp
      · exact .inr ⟨ret, hp⟩
    | none =>
      rcases hsv.rev_none hrev hrk with ⟨e, he, hme, -⟩ | ⟨b, hb⟩
      · exact .inr (.inl ⟨e, he, hme⟩)
      · have hen := hg.entry se.owner
        rw [hb] at hen
        obtain ⟨e, he, hes⟩ := hen
        exact .inr (.inr ⟨e, b, he, hes, (hsv.returning_ok _ b hb).2.2⟩)
  · intro a n hpc
    have hp := hg.pc a
    rw [hpc] at hp
    obtain ⟨-, e, he, -, -, hst⟩ := hp
    cases hse : (s lid).server with
    | none =>
      -- the entry the server would make knows nobody
      rw [hse] at hsv
      rcases hst with hst | ⟨b, hst⟩
      · simpa using (hsv.waiting_iff _).mp hst
      · obtain ⟨hr, hne⟩ := (hsv.retrying_iff a.client).mp (by simp [hst, Stage.IsRetrying])
        exact absurd hr hne
    | some se =>
      rw [hse] at hsv
      simp only [Option.getD_some] at hsv
      refine ⟨se, hse, ?_⟩
      rcases hst with hst | ⟨b, hst⟩
      · exact .inl ((hsv.waiting_iff _).mp hst)
      · obtain ⟨hr, -⟩ := (hsv.retrying_iff a.client).mp (by simp [hst, Stage.IsRetrying])
        exact .inr ⟨hr.symm, b, hsv.retryWait_ok _ b hst⟩

/-- In the middle of the hand-over the server revokes, the owner's slot holds the
`REVOKE`, and the second client's thread sleeps. -/
theorem no_lost_message_handOver :
    ∃ s, Reachable Init Step s ∧
      (∃ se, (s 1).server = some se ∧ se.state = .revoking ∧ (s 1).RevokeUnderWay se.owner) ∧
      (s 1).pc ⟨"127.0.0.1:2", 0⟩ = .waiting .retry ⟨0, 0⟩ false ∧
      (s 1).KnownToSleep "127.0.0.1:2" := by
  have hrun : (Sys.run {} ((handOverRun ⟨"127.0.0.1:1", 0⟩ ⟨"127.0.0.1:2", 0⟩).take 8)).map
      (fun q => (q.server, q.pc ⟨"127.0.0.1:2", 0⟩)) =
        some (some ⟨"127.0.0.1:1", "", {"127.0.0.1:2"}, .revoking⟩,
          .waiting .retry ⟨0, 0⟩ false) := by decide
  obtain ⟨q, hq, hsp⟩ := Option.map_eq_some_iff.mp hrun
  obtain ⟨hsv, hpc⟩ := Prod.mk.inj hsp
  have hr := reachable_of_run 1 hq
  have hsv' : ((Function.update (fun _ => {}) 1 q : State) 1).server =
      some ⟨"127.0.0.1:1", "", {"127.0.0.1:2"}, .revoking⟩ := by
    rw [Function.update_self]
    exact hsv
  have hpc' : ((Function.update (fun _ => {}) 1 q : State) 1).pc ⟨"127.0.0.1:2", 0⟩ =
      .waiting .retry ⟨0, 0⟩ false := by
    rw [Function.update_self]
    exact hpc
  have hno := no_lost_message hr 1
  exact ⟨_, hr, ⟨_, hsv', rfl, hno.1 _ hsv' rfl⟩, hpc', hno.2.1 _ _ hpc'⟩

end Yfs.Lock
