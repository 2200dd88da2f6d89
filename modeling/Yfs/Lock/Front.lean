import Yfs.Lock.Token

/-!
# The token and the thread at the front

The sections of `acquire`, and the first one of `release`: the thread that runs one is the
front of its client's queue before it or after it, and touches nothing but its client's entry.
-/

namespace Yfs.Lock

open Client (QueuingThread Wait)

variable {s s' : Sys} {g : Books} {a b : Thread} {n m : QueuingThread}
  {e : Client.LockEntry} {p : Pc}

/-- The state after a section of client `a.client` that the thread `a` runs. -/
structure Section (s s' : Sys) (a : Thread) (e : Client.LockEntry) (p : Pc)
    (o : Option QueuingThread) :
    Prop where
  srv : s'.srv = s.srv
  ent : ∀ x, s'.ent x = if x = a.client then e else s.ent x
  pc : ∀ b, s'.pc b = if b = a then p else s.pc b
  held : ∀ b, s'.held b = if b = a then o else s.held b

/-- What a thread at the front does with the lock in a section: nothing, it takes it, or it starts
to give it back. -/
inductive Takes (s : Sys) (g : Books) (a : Thread)
    (n : QueuingThread) : Pc → Option QueuingThread → Token →
    Prop where
  | keeps {p o} (hgr : g.tok ≠ .granted a) (ho : o = some n ↔ g.tok = .kept a.client) :
    Takes s g a n p o g.tok
  | got (hgr : g.tok = .granted a) (hpc : s.pc a = .acquiring n (.rep .ok)) :
    Takes s g a n .idle (some n) (.kept a.client)
  | givesBack (hk : g.tok = .kept a.client) (hm : (s.ent a.client).message = .revoke) :
    Takes s g a n (.releasing n .req) none (.returning a a.client)

theorem Section.returnOK :
    Section s (((s.setClient a.client e).setPc a .idle).setHeld a (some n)) a e .idle
    (some n) :=
  ⟨rfl, fun x => by simp, fun b => by simp, fun b => by simp⟩

theorem Section.goesOn (hh : s.held a = none) :
    Section s ((s.setClient a.client e).setPc a p) a e p none := by
  refine ⟨rfl, fun x => by simp, fun b => by simp, fun b => ?_⟩
  split_ifs with hb
  · exact hb ▸ hh
  · rfl

/-- A section that a thread at the front runs on its client's entry, with what it does to the
queue and to the message. -/
structure AtFront (s : Sys) (g : Books) (a : Thread) (n : QueuingThread)
    (e : Client.LockEntry) (p : Pc) (o : Option QueuingThread) (t : Token) : Prop where
  others : ∀ b, b ≠ a → b.client = a.client → (s.pc b).node? = none ∧ s.held b = none
  named : a.client ≠ ""
  tid : n.tid = a.tid
  head : e.threads.head? = some n
  tail : ∀ m ∈ (s.ent a.client).threads.tail, m ∈ e.threads.tail
  node : p.node? = some n ∧ o = none ∨ p = .idle ∧ o = some n
  message : e.message = (s.ent a.client).message ∨ (s.ent a.client).message = .retry ∧
    e.message = .empty
  refused : (s.pc a).Refused → p.Refused ∨ (s.ent a.client).message = .retry
  retry : e.message = .retry → p.Refused
  stays : ∀ m q, s.pc a ≠ .releasing m q
  state : e.state ≠ .free
  takes : Takes s g a n p o t

theorem AtFront.queues {o : Option QueuingThread} {t : Token}
    (ha : AtFront s g a n e p o t) (h : Queued s) (hs : Section s s' a e p o) : Queued s' := by
  have hfront : ∀ b m, s'.Front b m → b = a ∧ m = n ∨ b.client ≠ a.client ∧ s.Front b m := by
    intro b m hb
    simp only [Sys.Front, hs.pc, hs.held] at hb
    by_cases hba : b = a
    · subst hba
      refine .inl ⟨rfl, ?_⟩
      obtain ⟨hn, ho⟩ | ⟨hn, ho⟩ := ha.node
      · simpa [hn, ho, eq_comm] using hb
      · simpa [hn, ho, eq_comm, Pc.node?] using hb
    · simp only [hba, if_false] at hb
      refine .inr ⟨fun hc => ?_, hb⟩
      obtain ⟨h₁, h₂⟩ := ha.others b hba hc
      simp [h₁, h₂] at hb
  constructor
  case named =>
    intro b hb
    rw [hs.pc] at hb
    split_ifs at hb with hba
    · exact hba ▸ ha.named
    · exact h.named b hb
  case front =>
    intro b m hb
    obtain ⟨rfl, rfl⟩ | ⟨hc, hb⟩ := hfront b m hb
    · exact ⟨ha.tid, by rw [hs.ent, if_pos rfl, ha.head]⟩
    · rw [hs.ent, if_neg hc]
      exact h.front b m hb
  case behind =>
    intro b m hb
    rw [hs.pc] at hb
    split_ifs at hb with hba
    · obtain ⟨hn, -⟩ | ⟨hn, -⟩ := ha.node <;> simp [hb, Pc.node?] at hn
    · obtain ⟨h₁, h₂, h₃⟩ := h.behind b m hb
      rw [hs.ent]
      split_ifs with hc
      · refine ⟨h₁, ha.tail m (hc ▸ h₂), fun hm => hba (Thread.ext hc ?_)⟩
        rw [ha.head] at hm
        cases hm
        exact h₁.symm.trans ha.tid
      · exact ⟨h₁, h₂, h₃⟩
  case held =>
    intro b m hb
    rw [hs.held] at hb
    rw [hs.pc]
    split_ifs at hb ⊢ with hba
    · obtain ⟨-, ho⟩ | ⟨hn, -⟩ := ha.node
      · rw [ho] at hb
        cases hb
      · rw [hn]
        rfl
    · exact h.held b m hb

/-- Whoever was, or will be, refused is so after it, if no `RETRY` came. -/
theorem AtFront.keeps_refused {o : Option QueuingThread} {t : Token} {x : String}
    (ha : AtFront s g a n e p o t)
    (hs : Section s s' a e p o) (hm : (s.ent x).message ≠ .retry) (hx : s.Refused x) :
    s'.Refused x := by
  obtain ⟨b, hbx, hb⟩ := hx
  refine ⟨b, hbx, ?_⟩
  rw [hs.pc]
  split_ifs with hba
  · subst hba
    exact (ha.refused hb).resolve_right (hbx ▸ hm)
  · exact hb

/-- It leaves no new `RETRY`. -/
theorem AtFront.keeps_message {o : Option QueuingThread} {t : Token} {x : String}
    (ha : AtFront s g a n e p o t) (hs : Section s s' a e p o) (hm : (s.ent x).message ≠ .retry) :
    (s'.ent x).message = (s.ent x).message := by
  rw [hs.ent]
  split_ifs with hc
  · subst hc
    exact ha.message.resolve_right fun h => hm h.1
  · rfl

theorem AtFront.owner {o : Option QueuingThread} {t : Token} (ha : AtFront s g a n e p o t) :
    t.owner = g.tok.owner := by
  obtain ⟨-, -⟩ | ⟨hgr, -⟩ | ⟨hk, -⟩ := ha.takes
  · rfl
  · rw [hgr]
    rfl
  · rw [hk]
    rfl

/-- The client still has the lock, unless it was asked to give it back. -/
theorem AtFront.given {o : Option QueuingThread} {t : Token} (ha : AtFront s g a n e p o t)
    (hg : g.tok.Given) (hm : (s.ent g.tok.owner).message ≠ .revoke) : t.Given := by
  obtain ⟨-, -⟩ | ⟨-, -⟩ | ⟨hk, hme⟩ := ha.takes
  · exact hg
  · trivial
  · rw [hk] at hm
    exact absurd hme hm

/-- It leaves no new `REVOKE`. -/
theorem AtFront.keeps_revoke {o : Option QueuingThread} {t : Token} {x : String}
    (ha : AtFront s g a n e p o t) (hs : Section s s' a e p o) (hx : (s.ent x).message ≠ .revoke) :
    (s'.ent x).message ≠ .revoke := by
  rw [hs.ent]
  split_ifs with hc
  · subst hc
    obtain hm | ⟨-, hm⟩ := ha.message <;> rw [hm]
    · exact hx
    · exact nofun
  · exact hx

theorem AtFront.server {o : Option QueuingThread} {t : Token} (ha : AtFront s g a n e p o t)
    (h : ServerAgrees s g)
    (hs : Section s s' a e p o) : ServerAgrees s' { g with tok := t } := by
  constructor
  case owner => rw [hs.srv, h.owner, ha.owner]
  case nobody =>
    intro ho
    have hn := h.nobody (ha.owner ▸ ho)
    obtain ⟨-, -⟩ | ⟨hgr, -⟩ | ⟨hk, -⟩ := ha.takes
    · exact hn
    · simp [hgr] at hn
    · simp [hk] at hn
  case none_ok => exact hs.srv ▸ h.none_ok
  case locked_ok =>
    rw [hs.srv]
    intro hst
    obtain ⟨h₁, h₂, h₃, h₄⟩ := h.locked_ok hst
    exact ⟨h₁, h₂, ha.given h₃ (h.owner ▸ h₄), ha.keeps_revoke hs h₄⟩
  case revoking_ok => exact hs.srv ▸ h.revoking_ok
  case retrying_ok =>
    rw [hs.srv]
    intro hst
    obtain ⟨h₁, h₂⟩ := h.retrying_ok hst
    refine ⟨?_, h₂⟩
    obtain ⟨-, -⟩ | ⟨hgr, -⟩ | ⟨hk, -⟩ := ha.takes
    · exact h₁
    · simp [hgr] at h₁
    · simp [hk] at h₁
  case waiting_ok =>
    rw [hs.srv]
    intro c hc
    obtain ⟨h₁, h₂⟩ := h.waiting_ok c hc
    exact ⟨ha.keeps_message hs h₁ ▸ h₁, ha.keeps_refused hs h₁ h₂⟩

/-- The other clients see no difference. -/
theorem AtFront.kept_iff {o : Option QueuingThread} {t : Token} {c : String}
    (ha : AtFront s g a n e p o t) (hc : c ≠ a.client) : t = .kept c ↔ g.tok = .kept c := by
  obtain ⟨-, -⟩ | ⟨hgr, -⟩ | ⟨hk, -⟩ := ha.takes
  · rfl
  · simp [hgr, hc.symm]
  · simp [hk, hc.symm]

/-- If its client has the lock then, it has it. -/
theorem AtFront.holds {o : Option QueuingThread} {t : Token} (ha : AtFront s g a n e p o t) :
    o = some n ↔ t = .kept a.client := by
  obtain ⟨-, ho⟩ | ⟨-, -⟩ | ⟨-, -⟩ := ha.takes
  · exact ho
  · simp
  · simp

theorem AtFront.entries {o : Option QueuingThread} {t : Token} (ha : AtFront s g a n e p o t)
    (h : EntriesAgree s g) (hs : Section s s' a e p o) : EntriesAgree s' { g with tok := t } := by
  have hne : ∀ {b c}, c ≠ a.client → b.client = c → b ≠ a := fun hc hbc hba => hc (hba ▸ hbc.symm)
  constructor
  case granted =>
    intro b hb
    obtain ⟨hgr, -⟩ | ⟨-, -⟩ | ⟨-, -⟩ := ha.takes
    · have hba : b ≠ a := fun hba => hgr (hba ▸ hb)
      simp only [hs.pc, hba, if_false]
      exact h.granted b hb
    · cases hb
    · cases hb
  case kept =>
    intro c hc
    by_cases hca : c = a.client
    · subst hca
      exact .inr (.inr ⟨a, n, rfl, by rw [hs.held, if_pos rfl, ha.holds.mpr hc]⟩)
    · rw [hs.ent, if_neg hca]
      obtain h₁ | h₂ | ⟨b, m, hbc, hb⟩ := h.kept c ((ha.kept_iff hca).mp hc)
      · exact .inl h₁
      · exact .inr (.inl h₂)
      · exact .inr (.inr ⟨b, m, hbc, by rw [hs.held, if_neg (hne hca hbc), hb]⟩)
  case retry =>
    intro c hc
    rw [hs.ent] at hc
    split_ifs at hc with hca
    · refine ⟨a, hca.symm, ?_⟩
      rw [hs.pc, if_pos rfl]
      exact ha.retry hc
    · obtain ⟨b, hbc, hb⟩ := h.retry c hc
      refine ⟨b, hbc, ?_⟩
      rwa [hs.pc, if_neg (hne hca hbc)]
  case revoke =>
    intro c hc
    have hold : (s.ent c).message = .revoke := by
      rw [hs.ent] at hc
      split_ifs at hc with hca
      · subst hca
        obtain hm | ⟨-, hm⟩ := ha.message
        · rw [← hm, hc]
        · rw [hm] at hc
          cases hc
      · exact hc
    obtain ⟨hg, ho⟩ | ⟨b, m, q, hbc, hb⟩ := h.revoke c hold
    · obtain ⟨-, -⟩ | ⟨hgr, -⟩ | ⟨hk, -⟩ := ha.takes
      · exact .inl ⟨hg, ho⟩
      · exact .inl ⟨trivial, by rw [← ho, hgr]; rfl⟩
      · refine .inr ⟨a, n, .req, ?_, by rw [hs.pc, if_pos rfl]⟩
        rw [← ho, hk]
        rfl
    · have hba : b ≠ a := fun hba => ha.stays m q (hba ▸ hb)
      exact .inr ⟨b, m, q, hbc, by rw [hs.pc, if_neg hba, hb]⟩
  case free =>
    intro c hc
    rw [hs.ent] at hc ⊢
    split_ifs at hc ⊢ with hca
    · exact absurd hc ha.state
    · obtain ⟨h₁, h₂⟩ := h.free c hc
      exact ⟨(ha.kept_iff hca).mpr h₁, h₂⟩
  case held =>
    intro b m hb
    rw [hs.held] at hb
    split_ifs at hb with hba
    · subst hba
      obtain ⟨-, ho⟩ | ⟨-, ho⟩ := ha.node
      · rw [ho] at hb
        cases hb
      · exact ha.holds.mp ho
    · have hc : b.client ≠ a.client := fun hc => by simpa [hb] using (ha.others b hba hc).2
      exact (ha.kept_iff hc).mpr (h.held b m hb)

/-- A `release` call on its way is as stale as before. -/
theorem AtFront.stale {o : Option QueuingThread} {t : Token} {x : String}
    (ha : AtFront s g a n e p o t)
    (hs : Section s s' a e p o) (hx : Stale s g x) : Stale s' { g with tok := t } x := by
  have hm : (s.ent x).message = .revoke → (s'.ent x).message = .revoke := by
    intro hm
    rw [hs.ent]
    split_ifs with hc
    · subst hc
      obtain hm' | ⟨hm', -⟩ := ha.message
      · rw [hm', hm]
      · rw [hm] at hm'
        cases hm'
    · exact hm
  constructor
  case kept =>
    intro hk
    by_cases hxa : x = a.client
    · subst hxa
      refine ⟨hm ?_, a, n, rfl, by rw [hs.held, if_pos rfl, ha.holds.mpr hk]⟩
      obtain ⟨-, -⟩ | ⟨hgr, hpc⟩ | ⟨-, -⟩ := ha.takes
      · exact (hx.kept hk).1
      · obtain ⟨m, y, hy⟩ | hme := hx.granted a hgr rfl
        · simp [hpc] at hy
        · exact hme
      · cases hk
    · obtain ⟨h₁, b, m, hbx, hb⟩ := hx.kept ((ha.kept_iff hxa).mp hk)
      refine ⟨hm h₁, b, m, hbx, ?_⟩
      rw [hs.held, if_neg (fun hba : b = a => hxa (hba ▸ hbx.symm)), hb]
  case granted =>
    intro b hb hbx
    obtain ⟨hgr, -⟩ | ⟨-, -⟩ | ⟨-, -⟩ := ha.takes
    · have hba : b ≠ a := fun hba => hgr (hba ▸ hb)
      rw [hs.pc, if_neg hba]
      exact (hx.granted b hb hbx).imp_right hm
    · cases hb
    · cases hb

theorem AtFront.pcs {o : Option QueuingThread} {t : Token} (ha : AtFront s g a n e p o t)
    (h : Custody s g)
    (hs : Section s s' a e p o) (hp : Relies s' { g with tok := t } a p) (b : Thread) :
    Relies s' { g with tok := t } b (s'.pc b) := by
  rw [hs.pc]
  split_ifs with hba
  · exact hba ▸ hp
  by_cases hc : b.client = a.client
  · exact Relies.of_behind (ha.others b hba hc).1
  refine (h.pc b).frame ?_ ?_ ?_ ?_ (ha.kept_iff hc) ?_ ?_ ?_ ?_ (fun x _ => ha.stale hs)
  · rw [hs.ent, if_neg hc]
    exact fun _ _ => id
  · rw [hs.ent, if_neg hc]
    exact fun _ _ => id
  · rw [hs.ent, if_neg hc]
    exact fun _ => id
  · exact fun hask => by rwa [Sys.Asked, hs.srv]
  · intro hb
    obtain ⟨-, -⟩ | ⟨hgr, -⟩ | ⟨hk, -⟩ := ha.takes
    · exact hb
    · rw [hgr] at hb
      cases hb
      exact absurd rfl hba
    · simp [hk] at hb
  · intro x hb
    obtain ⟨-, -⟩ | ⟨hgr, -⟩ | ⟨hk, -⟩ := ha.takes
    · exact hb
    · simp [hgr] at hb
    · simp [hk] at hb
  · rintro ⟨h₁, h₂, h₃, h₄⟩
    refine ⟨⟨h₁, hs.srv ▸ h₂, ha.given h₃ (h.server.owner ▸ h₄), ?_⟩, by rw [hs.srv]⟩
    rw [hs.srv]
    exact ha.keeps_revoke hs h₄
  · rintro y ⟨h₁, h₂, h₃, h₄, h₅⟩
    exact ⟨h₁, hs.srv ▸ h₂, hs.srv ▸ h₃, ha.keeps_message hs h₄ ▸ h₄, ha.keeps_refused hs h₄ h₅⟩

/-- **A section that a thread at the front runs.** -/
theorem Custody.atFront (h : Custody s g) {o : Option QueuingThread} {t : Token}
    (ha : AtFront s g a n e p o t)
    (hs : Section s s' a e p o) (hp : Relies s' { g with tok := t } a p) :
    Custody s' { g with tok := t } :=
  ⟨ha.queues h.queues hs, ha.server h.server hs, ha.entries h.entries hs, ha.pcs h hs hp⟩

/-! ## The sections of `acquire` -/

/-- `acquire` with an empty queue. -/
theorem Custody.first (h : Custody s g) (hpc : s.pc a = .idle) (hne : a.client ≠ "")
    (htid : n.tid = a.tid)
    (hth : (s.ent a.client).threads = []) {r : Client.LockEntry × Client.Next}
    (hr : Client.acquire (s.ent a.client) n = .ok r) (hq : s.resume a n (.ok r) = .ok s') :
    Custody s' g := by
  have hemp : ∀ b, b.client = a.client → (s.pc b).node? = none ∧ s.held b = none :=
    fun b hb => h.queues.empty (hb ▸ hth)
  have hm : (s.ent a.client).message ≠ .retry := by
    intro hm
    obtain ⟨b, hb, hbr⟩ := h.entries.retry _ hm
    obtain ⟨m, hbm⟩ := hbr.node
    simp [(hemp b hb).1] at hbm
  have hgr : g.tok ≠ .granted a := by
    intro hgr
    obtain ⟨m, hm | ⟨t, hm⟩⟩ := h.entries.granted a hgr <;> simp [hpc] at hm
  have hk : (s.ent a.client).state ≠ .free → g.tok ≠ .kept a.client := by
    intro hst hk
    obtain h₁ | ⟨-, h₂⟩ | ⟨b, m, hb, hbm⟩ := h.entries.kept _ hk
    · exact hst h₁
    · exact h₂ hth
    · simp [(hemp b hb).2] at hbm
  have hfr : ∀ st p o, (p.node? = some n ∧ o = none ∨ p = .idle ∧ o = some n) →
      (o = some n ↔ g.tok = .kept a.client) → st ≠ Client.LockState.free →
      AtFront s g a n ⟨st, (s.ent a.client).message, [n]⟩ p o g.tok := fun st p o hno ho hst =>
    ⟨fun b _ hb => hemp b hb, hne, htid, rfl,
      by simp [hth], hno, .inl rfl, by simp [hpc, Pc.Refused],
      fun hr => absurd hr hm, by simp [hpc], hst, .keeps hgr ho⟩
  have hheld := (hemp a rfl).2
  unfold Client.acquire Client.blockUntilGot Client.blockUntilGotLoop at hr
  rw [if_pos hth] at hr
  cases hst : (s.ent a.client).state with
  | free =>
    simp only [hst, Except.ok.injEq] at hr
    subst hr
    cases hq
    have ho := (h.entries.free _ hst).1
    exact h.atFront (hfr .locked .idle (some n) (.inr ⟨rfl, rfl⟩) (by simp [ho]) nofun)
      .returnOK trivial
  | none =>
    simp only [hst, if_pos, Except.ok.injEq] at hr
    subst hr
    cases hq
    have hk := hk (by simp [hst])
    have hp : Relies ((s.setClient a.client ⟨.acquiring, (s.ent a.client).message, [n]⟩).setPc a
      (.acquiring n .req)) g a
        (.acquiring n .req) := ⟨hk, by simpa using hm⟩
    exact h.atFront (hfr .acquiring (.acquiring n .req) none (.inl ⟨rfl, rfl⟩) (by simp [hk]) nofun)
      (.goesOn hheld) hp
  | acquiring | releasing | locked =>
    simp only [hst, Except.ok.injEq] at hr
    subst hr
    cases hq
    have hk := hk (by simp [hst])
    rw [← hst]
    exact h.atFront
      (hfr _ (.waiting .released n false) none (.inl ⟨rfl, rfl⟩) (by simp [hk]) (by simp [hst]))
      (.goesOn hheld) hk

/-- The sections that follow the first one leave the queue as it is. -/
theorem Custody.front (h : Custody s g) (hn : (s.pc a).node? = some n) (p : Pc)
    (st : Client.LockState) {msg : Client.Message} {o : Option QueuingThread} {t : Token}
    (hno : p.node? = some n ∧ o = none ∨ p = .idle ∧ o = some n)
    (hmsg : msg = (s.ent a.client).message ∨ (s.ent a.client).message = .retry ∧ msg = .empty)
    (href : (s.pc a).Refused → p.Refused ∨ (s.ent a.client).message = .retry)
    (hre : msg = .retry → p.Refused)
    (hrel : ∀ m q, s.pc a ≠ .releasing m q) (hst : st ≠ .free) (ht : Takes s g a n p o t) :
    AtFront s g a n ⟨st, msg, (s.ent a.client).threads⟩ p o t := by
  obtain ⟨htid, hhd⟩ := h.queues.front a n (.inl hn)
  have hne : s.pc a ≠ .idle := by
    intro hp
    rw [hp] at hn
    cases hn
  exact ⟨fun b => h.queues.others (.inl hn), h.queues.named a hne, htid, hhd, fun m => id,
    hno, hmsg, href, hre, hrel, hst, ht⟩

/-- A thread at the front that has not got the lock yet. -/
theorem Custody.keeps (h : Custody s g) (hpc : ∀ m, s.pc a ≠ .acquiring m (.rep .ok))
    (hpc' : ∀ m t, s.pc a ≠ .acquiring m (.revReq t .ok)) (hk : g.tok ≠ .kept a.client) :
    Takes s g a n p none g.tok := by
  refine .keeps (fun hgr => ?_) (by simp [hk])
  obtain ⟨m, hm | ⟨t, hm⟩⟩ := h.entries.granted a hgr
  · exact hpc m hm
  · exact hpc' m t hm

/-- A wait for a lock on its way back ends, at whatever time. -/
theorem Custody.wakeReleased (h : Custody s g) {sig : Bool}
    (hpc : s.pc a = .waiting .released n sig)
    {r : Client.LockEntry × Client.Next} (hr : Client.wake (s.ent a.client) .released = .ok r)
    (hq : s.resume a n (.ok r) = .ok s') : Custody s' g := by
  have hn : (s.pc a).node? = some n := by
    rw [hpc]
    rfl
  have hk : g.tok ≠ .kept a.client := by
    have hp := h.pc a
    rwa [hpc] at hp
  have hm : (s.ent a.client).message ≠ .retry :=
    h.message_ne_retry (.inl hn) (by simp [hpc, Pc.Refused])
  unfold Client.wake Client.blockUntilGot Client.blockUntilGotLoop at hr
  simp only [if_pos, Except.ok.injEq] at hr
  subst hr
  cases hq
  have ha := h.front hn (.acquiring n .req) .acquiring (.inl ⟨rfl, rfl⟩) (.inl rfl)
    (by simp [hpc, Pc.Refused])
    (fun hr => absurd hr hm) (by simp [hpc]) nofun (h.keeps (by simp [hpc]) (by simp [hpc]) hk)
  exact h.atFront ha (.goesOn (h.queues.not_held hn)) ⟨hk, by simpa using hm⟩

/-- The thread behind goes on when it was signalled. -/
theorem Custody.wakeQueued (h : Custody s g) (hpc : s.pc a = .waiting .queued n true)
    {r : Client.LockEntry × Client.Next} (hr : Client.wake (s.ent a.client) .queued = .ok r)
    (hq : s.resume a n (.ok r) = .ok s') : Custody s' g := by
  have hn : (s.pc a).node? = some n := by
    rw [hpc]
    rfl
  have hp := h.pc a
  rw [hpc] at hp
  have hm : (s.ent a.client).message ≠ .retry :=
    h.message_ne_retry (.inl hn) (by simp [hpc, Pc.Refused])
  have hhd := (h.queues.front a n (.inl hn)).2
  unfold Client.wake Client.blockUntilGot Client.blockUntilGotLoop at hr
  cases hst : (s.ent a.client).state with
  | free => simp [(h.entries.free _ hst).2] at hhd
  | locked =>
    simp only [hst, Except.ok.injEq] at hr
    subst hr
    cases hq
    have hgr : g.tok ≠ .granted a := by simp [hp hst]
    have ha := h.front hn .idle (s.ent a.client).state (.inr ⟨rfl, rfl⟩) (.inl rfl)
      (by simp [hpc, Pc.Refused])
      (fun hr => absurd hr hm) (by simp [hpc]) (by simp [hst]) (.keeps hgr (by simp [hp hst]))
    exact h.atFront ha .returnOK trivial
  | none =>
    simp only [hst, if_pos, Except.ok.injEq] at hr
    subst hr
    cases hq
    have hk : g.tok ≠ .kept a.client := by
      intro hk
      obtain h₁ | ⟨h₂, -⟩ | h₃ := h.entries.kept _ hk
      · simp [hst] at h₁
      · simp [hst] at h₂
      · have hh := h.queues.heldBy (.inl hn) h₃
        rw [h.queues.not_held hn] at hh
        cases hh
    have ha := h.front hn (.acquiring n .req) .acquiring (.inl ⟨rfl, rfl⟩) (.inl rfl)
      (by simp [hpc, Pc.Refused])
      (fun hr => absurd hr hm) (by simp [hpc]) nofun (h.keeps (by simp [hpc]) (by simp [hpc]) hk)
    exact h.atFront ha (.goesOn (h.queues.not_held hn)) ⟨hk, by simpa using hm⟩
  | acquiring | releasing => simp [hst] at hr

/-- A thread that waits for a `retry` asks again. -/
theorem Custody.wakeRetry (h : Custody s g) (hpc : s.pc a = .waiting .retry n true)
    {r : Client.LockEntry × Client.Next} (hr : Client.wake (s.ent a.client) .retry = .ok r)
    (hq : s.resume a n (.ok r) = .ok s') : Custody s' g ∧ (s.ent a.client).message = .retry := by
  have hn : (s.pc a).node? = some n := by
    rw [hpc]
    rfl
  have hp := h.pc a
  rw [hpc] at hp
  obtain ⟨hk, -, hor⟩ := hp
  unfold Client.wake Client.blockUntilGotLoop at hr
  dsimp only at hr
  split_ifs at hr with hst
  cases hr
  cases hq
  have hm : (s.ent a.client).message = .retry := hor.resolve_right (by simp [hst])
  have ha := h.front hn (.acquiring n .req) (s.ent a.client).state (.inl ⟨rfl, rfl⟩)
    (.inr ⟨hm, rfl⟩)
    (fun _ => .inr hm) nofun (by simp [hpc]) (by simp [hst])
      (h.keeps (by simp [hpc]) (by simp [hpc]) hk)
  exact ⟨h.atFront ha (.goesOn (h.queues.not_held hn)) ⟨hk, by simp⟩, hm⟩

/-- The answer of the server comes. -/
theorem Custody.reply (h : Custody s g) {ret : Status} (hpc : s.pc a = .acquiring n (.rep ret))
    {r : Client.LockEntry × Client.Next}
    (hr : Client.blockUntilGotReply (s.ent a.client) ret = .ok r)
    (hq : s.resume a n (.ok r) = .ok s') :
    (∃ g', Custody s' g') ∧ (r.2 = .call → (s.ent a.client).message = .retry) := by
  have hn : (s.pc a).node? = some n := by
    rw [hpc]
    rfl
  have hp := h.pc a
  rw [hpc] at hp
  have hhd := (h.queues.front a n (.inl hn)).2
  have hst : (s.ent a.client).state ≠ .free := by
    intro hst
    simp [(h.entries.free _ hst).2] at hhd
  unfold Client.blockUntilGotReply Client.blockUntilGotLoop at hr
  cases ret with
  | ok =>
    cases hr
    cases hq
    have hm : (s.ent a.client).message ≠ .retry :=
      h.message_ne_retry (.inl hn) (by simp [hpc, Pc.Refused])
    have ha := h.front hn .idle .locked (.inr ⟨rfl, rfl⟩) (.inl rfl) (by simp [hpc, Pc.Refused])
      (fun hr => absurd hr hm) (by simp [hpc]) (by simp) (.got hp hpc)
    exact ⟨⟨_, h.atFront ha .returnOK trivial⟩, by simp⟩
  | retry =>
    obtain ⟨hk, hask⟩ := hp
    have ht : ∀ {p}, Takes s g a n p none g.tok := h.keeps (by simp [hpc]) (by simp [hpc]) hk
    dsimp only at hr
    split_ifs at hr with hm hac
    · cases hr
      cases hq
      have ha := h.front hn (.waiting .retry n false) (s.ent a.client).state (.inl ⟨rfl, rfl⟩)
        (.inl rfl)
        (fun _ => .inl trivial) (by simp [hm]) (by simp [hpc]) hst ht
      have hp' : Relies
        ((s.setClient a.client (s.ent a.client)).setPc a (.waiting .retry n false)) g a
          (.waiting .retry n false) := ⟨hk, hask, by simp [hm]⟩
      exact ⟨⟨_, h.atFront ha (.goesOn (h.queues.not_held hn)) hp'⟩, by simp⟩
    · cases hr
      cases hq
      have hm : (s.ent a.client).message = .retry := by
        cases hme : (s.ent a.client).message with
        | empty => exact absurd hme hm
        | retry => rfl
        | revoke =>
          obtain ⟨hg, ho⟩ | hgb := h.entries.revoke _ hme
          · cases ht' : g.tok with
            | granted b =>
              rw [ht'] at ho
              have hba := h.granted_eq (.inl hn) ht' ho
              obtain ⟨m, hm | ⟨t, hm⟩⟩ := h.entries.granted b ht' <;> simp [hba, hpc] at hm
            | kept c =>
              rw [ht'] at ho
              exact absurd (ho ▸ ht') hk
            | _ => simp [ht', Token.Given] at hg
          · obtain ⟨m, q, hmq⟩ := h.queues.givesBack (.inl hn) hgb
            simp [hpc] at hmq
      have ha := h.front hn (.acquiring n .req) (s.ent a.client).state (.inl ⟨rfl, rfl⟩)
        (.inr ⟨hm, rfl⟩)
        (fun _ => .inr hm) (by simp) (by simp [hpc]) hst ht
      exact ⟨⟨_, h.atFront ha (.goesOn (h.queues.not_held hn)) ⟨hk, by simp⟩⟩, fun _ => hm⟩

/-- `release` of a lock that was asked back. -/
theorem Custody.giveBack (h : Custody s g) (hpc : s.pc a = .idle) (hh : s.held a = some n)
    (hm : (s.ent a.client).message = .revoke) :
    Custody (((s.setClient a.client
      { s.ent a.client with state := .releasing }).setHeld a none).setPc a (.releasing n .req))
      { g with tok := .returning a a.client } := by
  obtain ⟨htid, hhd⟩ := h.queues.front a n (.inr hh)
  have hk := h.entries.held a n hh
  have hne : a.client ≠ "" := by
    intro hc
    have ht := h.server.nobody (by rw [hk]; exact hc)
    rw [hk] at ht
    cases ht
  have ha : AtFront s g a n { s.ent a.client with state := .releasing } (.releasing n .req) none
      (.returning a a.client) :=
    ⟨fun b => h.queues.others (.inr hh), hne, htid, hhd, fun m => id, .inl ⟨rfl, rfl⟩, .inl rfl,
      by simp [hpc, Pc.Refused], by simp [hm], by simp [hpc], nofun, .givesBack hk hm⟩
  exact h.atFront ha ⟨rfl, fun x => by simp, fun b => by simp, fun b => by simp⟩ rfl

end Yfs.Lock
