import Yfs.Lock.Steps

/-!
# Where the lock is

`Lock.Invariant` needs a signal for every wait that ends. The weaker invariant here
(`Custody`) does not: it follows the one token that the lock is, from the server's answer
`OK` to the `release` call that brings it back, and says of the entries only what a
thread can rely on whose wait for a `RELEASING` lock ends at any time.
-/

namespace Yfs.Lock

open Client (QueuingThread Wait)

/-- Where the lock is. -/
inductive Token where
  /-- at the server -/
  | nobody
  /-- an `OK` is on its way to this thread -/
  | granted (a : Thread)
  /-- at this client -/
  | kept (c : String)
  /-- on its way back from this client, in the activity `b` -/
  | returning (b : Thread) (c : String)

/-- The server's `owner`. -/
def Token.owner : Token → String
  | nobody => ""
  | granted a => a.client
  | kept c => c
  | returning _ c => c

/-- The client has the lock, or will get it. -/
def Token.Given : Token → Prop
  | granted _ | kept _ => True
  | _ => False

/-- Where the lock is, the activity that was told to call `revoke`, and the one that was told to
call `retry`. -/
structure Books where
  tok : Token := .nobody
  rev : Option Thread := none
  told : Option Thread := none

/-- The server has answered, or will answer, `RETRY`. -/
def Pc.Refused : Pc → Prop
  | .waiting .retry _ _ | .acquiring _ .revSend | .acquiring _ (.revReq _ .retry)
  | .acquiring _ (.revRel _ _ _) | .acquiring _ (.rep .retry) => True
  | _ => False

/-- The node of a thread that has come to the front of its queue. -/
def Pc.node? : Pc → Option QueuingThread
  | .waiting .queued _ false | .idle => none
  | .waiting _ n _ | .acquiring n _ | .releasing n _ => some n

@[simp, grind =] theorem Pc.signal_refused {p : Pc} {n : QueuingThread} :
    (p.signal n).Refused ↔ p.Refused := by
  cases p with
  | waiting w m b => cases w <;> rfl
  | _ => rfl

@[simp] theorem Pc.signal_release? {p : Pc} {n : QueuingThread} {c : String} :
    (p.signal n).release? c = p.release? c := by
  cases p <;> rfl

namespace Sys

/-- A thread of the client waits for a `retry`, or will. -/
def Refused (s : Sys) (c : String) : Prop := ∃ a, a.client = c ∧ (s.pc a).Refused

/-- A thread of the client has the lock. -/
def HeldBy (s : Sys) (c : String) : Prop := ∃ a n, a.client = c ∧ s.held a = some n

/-- A thread of the client has called `release` and gives the lock back to the server. -/
def GivesBack (s : Sys) (c : String) : Prop := ∃ a n p, a.client = c ∧ s.pc a = .releasing n p

/-- The server owes the client a `retry`, or waits for its second request. -/
def Asked (s : Sys) (c : String) : Prop := c ∈ s.srv.waitingClients ∨ c = s.srv.retryingClient

/-- The thread with this node has come to the front of its queue. -/
def Front (s : Sys) (a : Thread) (n : QueuingThread) : Prop :=
  (s.pc a).node? = some n ∨ s.held a = some n

end Sys

/-- The activity `a` is to call `retry` at client `x`. -/
structure Told (s : Sys) (g : Books) (a : Thread) (x : String) : Prop where
  told : g.told = some a
  state : s.srv.state = .retrying
  next : s.srv.retryingClient = x
  message : (s.ent x).message ≠ .retry
  refused : s.Refused x

/-- The activity `a` is to call `revoke` at the owner. -/
structure Pending (s : Sys) (g : Books) (a : Thread) : Prop where
  rev : g.rev = some a
  state : s.srv.state = .revoking
  given : g.tok.Given
  message : (s.ent s.srv.owner).message ≠ .revoke

/-- A `release` call of client `x` that the server has executed but that has not come back: if the
client has got the lock again, it has been asked to give it back already. -/
structure Stale (s : Sys) (g : Books) (x : String) : Prop where
  kept : g.tok = .kept x → (s.ent x).message = .revoke ∧ s.HeldBy x
  granted : ∀ b, g.tok = .granted b → b.client = x →
    (∃ n t, s.pc b = .acquiring n (.revReq t .ok)) ∨ (s.ent x).message = .revoke

/-- What a `release` call of client `x` in the activity `a` says. -/
def RelRelies (s : Sys) (g : Books) (a : Thread) (x : String) : RelPhase → Prop
  | .req => g.tok = .returning a x
  | .retryReq y => Told s g a y ∧ Stale s g x
  | .rep => Stale s g x

/-- What the thread `a` relies on. -/
def Relies (s : Sys) (g : Books) (a : Thread) : Pc → Prop
  | .idle | .waiting .queued _ false => True
  | .waiting .queued _ true => (s.ent a.client).state = .locked → g.tok = .kept a.client
  | .waiting .released _ _ => g.tok ≠ .kept a.client
  | .waiting .retry _ sig => g.tok ≠ .kept a.client ∧ s.Asked a.client ∧
    if sig then (s.ent a.client).message = .retry ∨ (s.ent a.client).state = .none
    else (s.ent a.client).message ≠ .retry
  | .acquiring _ .req => g.tok ≠ .kept a.client ∧ (s.ent a.client).message ≠ .retry
  | .acquiring _ .revSend =>
    g.tok ≠ .kept a.client ∧ s.Asked a.client ∧ Pending s g a ∧ s.srv.owner ≠ a.client
  | .acquiring _ (.revReq t .ok) => g.tok = .granted a ∧ Pending s g a ∧ t = s.srv.owner
  | .acquiring _ (.revReq t .retry) => g.tok ≠ .kept a.client ∧ s.Asked a.client ∧ Pending s g a ∧
    t = s.srv.owner ∧ t ≠ a.client
  | .acquiring _ (.revRel t ret p) =>
    g.tok ≠ .kept a.client ∧ s.Asked a.client ∧ ret = .retry ∧ t ≠ a.client ∧
    RelRelies s g a t p
  | .acquiring _ (.rep .ok) => g.tok = .granted a
  | .acquiring _ (.rep .retry) => g.tok ≠ .kept a.client ∧ s.Asked a.client
  | .releasing _ p => RelRelies s g a a.client p

/-- The server's entry. -/
structure ServerAgrees (s : Sys) (g : Books) : Prop where
  owner : s.srv.owner = g.tok.owner
  nobody : g.tok.owner = "" → g.tok = .nobody
  none_ok : s.srv.state = .none → s.srv.retryingClient = "" ∧ s.srv.waitingClients = ∅
  locked_ok : s.srv.state = .locked → s.srv.retryingClient = "" ∧
    s.srv.waitingClients = ∅ ∧ g.tok.Given ∧
    (s.ent s.srv.owner).message ≠ .revoke
  revoking_ok : s.srv.state = .revoking → s.srv.retryingClient = ""
  retrying_ok : s.srv.state = .retrying → g.tok = .nobody ∧
    s.srv.retryingClient ∉ s.srv.waitingClients
  waiting_ok : ∀ c ∈ s.srv.waitingClients, (s.ent c).message ≠ .retry ∧ s.Refused c

/-- The clients' entries. -/
structure EntriesAgree (s : Sys) (g : Books) : Prop where
  granted : ∀ a, g.tok = .granted a →
    ∃ n, s.pc a = .acquiring n (.rep .ok) ∨ ∃ t, s.pc a = .acquiring n (.revReq t .ok)
  kept : ∀ c, g.tok = .kept c → (s.ent c).state = .free ∨
    (s.ent c).state = .locked ∧ (s.ent c).threads ≠ [] ∨ s.HeldBy c
  retry : ∀ c, (s.ent c).message = .retry → s.Refused c
  revoke : ∀ c, (s.ent c).message = .revoke → g.tok.Given ∧ g.tok.owner = c ∨ s.GivesBack c
  free : ∀ c, (s.ent c).state = .free → g.tok = .kept c ∧ (s.ent c).threads = []
  held : ∀ a n, s.held a = some n → g.tok = .kept a.client

/-- The queues. -/
structure Queued (s : Sys) : Prop where
  named : ∀ a, s.pc a ≠ .idle → a.client ≠ ""
  front : ∀ a n, s.Front a n → n.tid = a.tid ∧ (s.ent a.client).threads.head? = some n
  behind : ∀ a n, s.pc a = .waiting .queued n false → n.tid = a.tid ∧
    n ∈ (s.ent a.client).threads.tail ∧
    (s.ent a.client).threads.head? ≠ some n
  held : ∀ a n, s.held a = some n → (s.pc a).node? = none

/-- **The invariant**, for one lock id. -/
structure Custody (s : Sys) (g : Books) : Prop where
  queues : Queued s
  server : ServerAgrees s g
  entries : EntriesAgree s g
  pc : ∀ a, Relies s g a (s.pc a)

theorem custody_init : Custody {} {} := by
  refine ⟨⟨?_, ?_, ?_, ?_⟩, ⟨?_, ?_, ?_, ?_, ?_, ?_, ?_⟩, ⟨?_, ?_, ?_, ?_, ?_, ?_⟩,
    fun a => trivial⟩ <;>
    simp [Sys.ent, Sys.srv, Sys.Front, Pc.node?, Token.owner]

variable {s s' : Sys} {g g' : Books} {a b : Thread} {n m : QueuingThread}
  {e : Client.LockEntry} {p : Pc}

/-- One thread is at the front. -/
theorem Queued.unique (h : Queued s) (ha : s.Front a n) (hb : s.Front b m)
    (hc : b.client = a.client) :
    b = a := by
  obtain ⟨hta, hha⟩ := h.front a n ha
  obtain ⟨htb, hhb⟩ := h.front b m hb
  rw [hc, hha] at hhb
  cases hhb
  exact Thread.ext hc (htb.symm.trans hta)

/-- The other threads of the client stand behind it. -/
theorem Queued.others (h : Queued s) (ha : s.Front a n) (hb : b ≠ a) (hc : b.client = a.client) :
    (s.pc b).node? = none ∧ s.held b = none := by
  constructor
  · cases hn : (s.pc b).node? with
    | none => rfl
    | some m => exact absurd (h.unique ha (.inl hn) hc) hb
  · cases hn : s.held b with
    | none => rfl
    | some m => exact absurd (h.unique ha (.inr hn) hc) hb

/-- A thread that is not at the front relies on nothing. -/
theorem Relies.of_behind (h : p.node? = none) : Relies s g b p := by
  cases p with
  | idle => trivial
  | waiting w n sig =>
    cases w with
    | queued =>
      cases sig with
      | false => trivial
      | true => cases h
    | released => cases h
    | retry => cases h
  | acquiring => cases h
  | releasing => cases h

/-- Nobody is at the front of an empty queue. -/
theorem Queued.empty (h : Queued s) (hth : (s.ent a.client).threads = []) :
    (s.pc a).node? = none ∧ s.held a = none := by
  constructor
  · cases hn : (s.pc a).node? with
    | none => rfl
    | some m => simpa [hth] using (h.front a m (.inl hn)).2
  · cases hn : s.held a with
    | none => rfl
    | some m => simpa [hth] using (h.front a m (.inr hn)).2

/-- A thread keeps what it relies on. -/
theorem Relies.frame (h : Relies s g b p)
    (hlock : ∀ n, p = .waiting .queued n true → (s'.ent b.client).state = .locked →
      (s.ent b.client).state = .locked)
    (hsig : ∀ n, p = .waiting .retry n true →
      (s.ent b.client).message = .retry ∨ (s.ent b.client).state = .none →
      (s'.ent b.client).message = .retry ∨ (s'.ent b.client).state = .none)
    (hretry : (∃ n, p = .waiting .retry n false) ∨ (∃ n, p = .acquiring n .req) →
      (s.ent b.client).message ≠ .retry → (s'.ent b.client).message ≠ .retry)
    (hasked : s.Asked b.client → s'.Asked b.client)
    (hkept : g'.tok = .kept b.client ↔ g.tok = .kept b.client)
    (hgr : g.tok = .granted b → g'.tok = .granted b)
    (hret : ∀ x, g.tok = .returning b x → g'.tok = .returning b x)
    (hpend : Pending s g b → Pending s' g' b ∧ s'.srv.owner = s.srv.owner)
    (htold : ∀ y, Told s g b y → Told s' g' b y)
    (hstale : ∀ x, x = b.client ∨ s.Asked b.client ∧ x ≠ b.client → Stale s g x → Stale s' g' x) :
    Relies s' g' b p := by
  have hrel : ∀ {x q}, x = b.client ∨ s.Asked b.client ∧ x ≠ b.client → RelRelies s g b x q →
      RelRelies s' g' b x q := by
    intro x q hx hq
    cases q with
    | req => exact hret x hq
    | retryReq y => exact ⟨htold y hq.1, hstale x hx hq.2⟩
    | rep => exact hstale x hx hq
  have hk : g.tok ≠ .kept b.client → g'.tok ≠ .kept b.client := fun hn hk => hn (hkept.mp hk)
  cases p with
  | idle => trivial
  | waiting w n sig =>
    cases w with
    | released => exact hk h
    | queued =>
      cases sig with
      | false => trivial
      | true => exact fun hl => hkept.mpr (h (hlock n rfl hl))
    | retry =>
      obtain ⟨h₁, h₂, h₃⟩ := h
      refine ⟨hk h₁, hasked h₂, ?_⟩
      cases sig with
      | false => exact hretry (.inl ⟨n, rfl⟩) h₃
      | true => exact hsig n rfl h₃
  | acquiring n q =>
    cases q with
    | req => exact ⟨hk h.1, hretry (.inr ⟨n, rfl⟩) h.2⟩
    | revSend =>
      obtain ⟨h₁, h₂, h₃, h₄⟩ := h
      obtain ⟨h₃, ho⟩ := hpend h₃
      exact ⟨hk h₁, hasked h₂, h₃, ho ▸ h₄⟩
    | revReq t ret =>
      cases ret with
      | ok =>
        obtain ⟨h₁, h₂, h₃⟩ := h
        obtain ⟨h₂, ho⟩ := hpend h₂
        exact ⟨hgr h₁, h₂, ho ▸ h₃⟩
      | retry =>
        obtain ⟨h₁, h₂, h₃, h₄, h₅⟩ := h
        obtain ⟨h₃, ho⟩ := hpend h₃
        exact ⟨hk h₁, hasked h₂, h₃, ho ▸ h₄, h₅⟩
    | revRel t ret q =>
      obtain ⟨h₁, h₂, h₃, h₄, h₅⟩ := h
      exact ⟨hk h₁, hasked h₂, h₃, h₄, hrel (.inr ⟨h₂, h₄⟩) h₅⟩
    | rep ret =>
      cases ret with
      | ok => exact hgr h
      | retry => exact ⟨hk h.1, hasked h.2⟩
  | releasing n q => exact hrel (.inl rfl) h

theorem Pc.Refused.node (h : p.Refused) : ∃ n, p.node? = some n := by
  cases p with
  | idle => cases h
  | waiting w n sig =>
    cases w with
    | retry => exact ⟨n, rfl⟩
    | queued => cases h
    | released => cases h
  | acquiring n q => exact ⟨n, rfl⟩
  | releasing n q => exact ⟨n, rfl⟩

/-- A thread that was, or will be, refused has not got the lock. -/
theorem Relies.refused (h : Relies s g a p) (hp : p.Refused) : g.tok ≠ .kept a.client := by
  cases p with
  | idle => cases hp
  | waiting w n sig =>
    cases w with
    | retry => exact h.1
    | _ => cases hp
  | acquiring n q =>
    cases q with
    | req => cases hp
    | revSend => exact h.1
    | revReq t ret =>
      cases ret with
      | ok => cases hp
      | retry => exact h.1
    | revRel t ret q => exact h.1
    | rep ret =>
      cases ret with
      | ok => cases hp
      | retry => exact h.1
  | releasing n q => cases hp

/-- If its client was, or will be, refused, it is the thread at the front. -/
theorem Queued.refused (h : Queued s) (ha : s.Front a n) (hr : s.Refused a.client) :
    (s.pc a).Refused := by
  obtain ⟨b, hbc, hb⟩ := hr
  obtain ⟨m, hm⟩ := hb.node
  exact h.unique ha (.inl hm) hbc ▸ hb

/-- If its client gives the lock back, it is the thread at the front that does so. -/
theorem Queued.givesBack (h : Queued s) (ha : s.Front a n) (hr : s.GivesBack a.client) :
    ∃ m q, s.pc a = .releasing m q := by
  obtain ⟨b, m, q, hbc, hb⟩ := hr
  have hfb : s.Front b m := .inl (by rw [hb]; rfl)
  exact ⟨m, q, h.unique ha hfb hbc ▸ hb⟩

/-- If its client has the lock, it is the thread at the front that holds it. -/
theorem Queued.heldBy (h : Queued s) (ha : s.Front a n) (hr : s.HeldBy a.client) :
    s.held a = some n := by
  obtain ⟨b, m, hbc, hb⟩ := hr
  have hba := h.unique ha (.inr hb) hbc
  subst hba
  have h₁ := (h.front b m (.inr hb)).2
  rw [(h.front b n ha).2] at h₁
  rw [hb, h₁]

/-- If an `OK` is on its way to its client, it is on its way to it. -/
theorem Custody.granted_eq (h : Custody s g) (ha : s.Front a n) (hb : g.tok = .granted b)
    (hc : b.client = a.client) : b = a := by
  obtain ⟨m, hm⟩ := h.entries.granted b hb
  have hfb : s.Front b m := by
    refine .inl ?_
    obtain hm | ⟨t, hm⟩ := hm <;> rw [hm] <;> rfl
  exact h.queues.unique ha hfb hc

/-- Nobody who has the lock, or will get it, was refused. -/
theorem Custody.not_refused (h : Custody s g) (hg : g.tok.Given) : ¬ s.Refused g.tok.owner := by
  rintro ⟨b, hb, hr⟩
  obtain ⟨n, hn⟩ := hr.node
  cases ht : g.tok with
  | granted a =>
    rw [ht] at hb
    have hba := h.granted_eq (.inl hn) ht hb.symm
    obtain ⟨m, hm | ⟨t, hm⟩⟩ := h.entries.granted a ht <;> rw [← hba, hm] at hr <;> exact hr
  | kept c =>
    rw [ht] at hb
    exact (h.pc b).refused hr (hb ▸ ht)
  | _ => simp [ht, Token.Given] at hg

/-- There is no `RETRY` for a client whose front was not refused. -/
theorem Custody.message_ne_retry (h : Custody s g) (ha : s.Front a n) (hr : ¬ (s.pc a).Refused) :
    (s.ent a.client).message ≠ .retry :=
  fun hm => hr (h.queues.refused ha (h.entries.retry _ hm))

/-- What `pthread_cond_signal` does to a thread. -/
theorem Sys.signal_pc (s : Sys) (c : String) (o : Option QueuingThread) (b : Thread) :
    (s.signal c o).pc b = s.pc b ∨ ∃ w m, b.client = c ∧ o = some m ∧ s.pc b = .waiting w m false ∧
      (s.signal c o).pc b = .waiting w m true := by
  cases o with
  | none => exact .inl rfl
  | some m =>
    rw [signal_some_pc]
    split_ifs with hc
    · cases hp : s.pc b with
      | waiting w k sig =>
        by_cases hk : k = m
        · cases sig with
          | true => exact .inl (by simp [Pc.signal])
          | false => exact .inr ⟨w, m, hc, rfl, by rw [hk], by simp [Pc.signal, hk]⟩
        · exact .inl (by simp [Pc.signal, hk])
      | _ => exact .inl rfl
    · exact .inl rfl

theorem Queued.not_held (h : Queued s) (hn : (s.pc a).node? = some n) : s.held a = none := by
  cases ho : s.held a with
  | none => rfl
  | some m => simp [h.held a m ho] at hn

/-- The phase of a `release` call is that of a thread at the front, which was refused if it is
behind a `revoke` call. -/
theorem Pc.setRelease_spec {c x : String} {q : RelPhase} (q' : RelPhase)
    (h : p.release? c = some (x, q)) :
    ((p.setRelease q').node? = p.node? ∧ p ≠ .idle) ∧ ((p.setRelease q').Refused ↔ p.Refused) ∧
      (∀ m r, p = .releasing m r → p.setRelease q' = .releasing m q') ∧
      ∀ w m sig, p.setRelease q' ≠ .waiting w m sig := by
  cases p with
  | idle => cases h
  | waiting => cases h
  | acquiring n r =>
    cases r with
    | revRel t ret r => exact ⟨⟨rfl, nofun⟩, Iff.rfl, nofun, nofun⟩
    | _ => cases h
  | releasing n r =>
    refine ⟨⟨rfl, nofun⟩, Iff.rfl, fun m r hr => ?_, nofun⟩
    cases hr
    rfl

/-- What an activity in a `release` call relies on. -/
theorem Relies.release {x : String} {q : RelPhase} (h : Relies s g a p)
    (hr : p.release? a.client = some (x, q)) :
    RelRelies s g a x q := by
  cases p with
  | idle => cases hr
  | waiting => cases hr
  | acquiring n r =>
    cases r with
    | revRel t ret r =>
      cases hr
      exact h.2.2.2.2
    | _ => cases hr
  | releasing n r =>
    cases hr
    exact h

/-- Whoever is signalled at the front of its queue is in one of the two other waits. -/
theorem Queued.signal_head (h : Queued s) (c : String) (b : Thread) :
    (s.signal c (s.ent c).threads.head?).pc b = s.pc b ∨ ∃ w m, w ≠ Wait.queued ∧ b.client = c ∧
      s.pc b = .waiting w m false ∧
        (s.signal c (s.ent c).threads.head?).pc b = .waiting w m true := by
  obtain hs | ⟨w, m, hc, ho, hb, hs⟩ := s.signal_pc c (s.ent c).threads.head? b
  · exact .inl hs
  · refine .inr ⟨w, m, ?_, hc, hb, hs⟩
    rintro rfl
    exact (h.behind b m hb).2.2 (hc ▸ ho)

end Yfs.Lock
