import Yfs.Lock.Token

/-!
# The token and the calls between the parties

The sections that leave the lock where it is: a thread goes to the end of its queue, the front
leaves it, a handler runs at another client. Only `revoke_handler` at a `FREE` entry sends the
lock back.
-/

namespace Yfs.Lock

open Client (QueuingThread Wait)

variable {s s' : Sys} {g : Books} {a b : Thread} {n m : QueuingThread}
  {e : Client.LockEntry} {p : Pc}

/-! ## Steps that leave the lock where it is -/

/-- A step that leaves the lock and the server where they are. A `RETRY` comes to a client only
when the server counts it no more as waiting, a `REVOKE` only while it has the lock. -/
structure Quiet (s s' : Sys) (g : Books) : Prop where
  srv : s'.srv = s.srv
  refused : ∀ c, s.Refused c → s'.Refused c
  retry : ∀ c, (s'.ent c).message = .retry → (s.ent c).message = .retry ∨
    c ∉ s.srv.waitingClients ∧ s.Refused c
  revoke : ∀ c, (s'.ent c).message = .revoke → (s.ent c).message = .revoke ∧
    (s.GivesBack c → s'.GivesBack c) ∨
    s.srv.state = .revoking ∧ g.tok.Given ∧ g.tok.owner = c
  asked : g.tok.Given → (s.ent g.tok.owner).message = .revoke →
    (s'.ent g.tok.owner).message = .revoke
  granted : ∀ b, g.tok = .granted b → s'.pc b = s.pc b ∨
    (∃ n, s'.pc b = .acquiring n (.rep .ok)) ∧ (s'.ent b.client).message = .revoke
  kept : ∀ c, g.tok = .kept c → (s'.ent c).state = .free ∨ (s'.ent c).state = .locked ∧
    (s'.ent c).threads ≠ [] ∨
    s'.HeldBy c
  heldBy : ∀ c, g.tok = .kept c → (s.ent c).message = .revoke → s.HeldBy c → s'.HeldBy c
  free : ∀ c, (s'.ent c).state = .free → g.tok = .kept c ∧ (s'.ent c).threads = []
  held : ∀ b n, s'.held b = some n → s.held b = some n

theorem Quiet.server (hq : Quiet s s' g) (h : ServerAgrees s g) : ServerAgrees s' g := by
  obtain ⟨h₁, h₂, h₃, h₄, h₅, h₆, h₇⟩ := h
  rw [← hq.srv] at h₁ h₃ h₅ h₆
  refine ⟨h₁, h₂, h₃, ?_, h₅, h₆, ?_⟩
  · rw [hq.srv]
    intro hst
    obtain ⟨hr, hw, hg, hm⟩ := h₄ hst
    refine ⟨hr, hw, hg, fun hm' => ?_⟩
    obtain ⟨hm', -⟩ | ⟨hst', -⟩ := hq.revoke _ hm'
    · exact hm hm'
    · simp [hst] at hst'
  · rw [hq.srv]
    intro c hc
    obtain ⟨hm, hr⟩ := h₇ c hc
    refine ⟨fun hm' => ?_, hq.refused c hr⟩
    obtain hm' | ⟨hc', -⟩ := hq.retry c hm'
    · exact hm hm'
    · exact hc' hc

theorem Quiet.entries (hq : Quiet s s' g) (h : EntriesAgree s g) : EntriesAgree s' g := by
  refine ⟨?_, hq.kept, ?_, ?_, hq.free, fun b n hb => h.held b n (hq.held b n hb)⟩
  · intro b hb
    obtain hpc | ⟨⟨n, hpc⟩, -⟩ := hq.granted b hb
    · rw [hpc]
      exact h.granted b hb
    · exact ⟨n, .inl hpc⟩
  · intro c hc
    obtain hm | ⟨-, hr⟩ := hq.retry c hc
    · exact hq.refused c (h.retry c hm)
    · exact hq.refused c hr
  · intro c hc
    obtain ⟨hm, hgb⟩ | ⟨-, hg⟩ := hq.revoke c hc
    · exact (h.revoke c hm).imp_right hgb
    · exact .inl hg

theorem Quiet.stale (hq : Quiet s s' g) {x : String} (hx : Stale s g x) : Stale s' g x := by
  constructor
  · intro hk
    obtain ⟨hm, hh⟩ := hx.kept hk
    have ha := hq.asked (by rw [hk]; trivial)
    rw [hk] at ha
    exact ⟨ha hm, hq.heldBy x hk hm hh⟩
  · rintro b hb rfl
    obtain hpc | ⟨-, hm⟩ := hq.granted b hb
    · rw [hpc]
      refine (hx.granted b hb rfl).imp_right fun hm => ?_
      have ha := hq.asked (by rw [hb]; trivial)
      rw [hb] at ha
      exact ha hm
    · exact .inr hm

/-- What another thread relies on. -/
theorem Quiet.pc (hq : Quiet s s' g) (h : Relies s g b p)
    (hlock : ∀ n, p = .waiting .queued n true → (s'.ent b.client).state = .locked →
      (s.ent b.client).state = .locked)
    (hsig : ∀ n, p = .waiting .retry n true →
      (s.ent b.client).message = .retry ∨ (s.ent b.client).state = .none →
      (s'.ent b.client).message = .retry ∨ (s'.ent b.client).state = .none)
    (hretry : (∃ n, p = .waiting .retry n false) ∨ (∃ n, p = .acquiring n .req) →
      (s.ent b.client).message ≠ .retry → (s'.ent b.client).message ≠ .retry)
    (hpend : Pending s g b → (s'.ent s.srv.owner).message ≠ .revoke)
    (htold : ∀ y, Told s g b y → (s'.ent y).message ≠ .retry) : Relies s' g b p := by
  refine h.frame hlock hsig hretry ?_ Iff.rfl id (fun _ => id) ?_ ?_ fun x _ => hq.stale
  · exact fun ha => by rwa [Sys.Asked, hq.srv]
  · intro hp
    refine ⟨⟨hp.rev, hq.srv ▸ hp.state, hp.given, ?_⟩, by rw [hq.srv]⟩
    rw [hq.srv]
    exact hpend hp
  · intro y ht
    exact ⟨ht.told, hq.srv ▸ ht.state, hq.srv ▸ ht.next, htold y ht, hq.refused y ht.refused⟩

/-- The queues of a step that moves nobody in them. -/
theorem Queued.same (h : Queued s) (hth : ∀ c, (s'.ent c).threads = (s.ent c).threads)
    (hheld : s'.held = s.held)
    (hn : ∀ b, (s'.pc b).node? = (s.pc b).node?) (hi : ∀ b, s'.pc b ≠ .idle → s.pc b ≠ .idle)
    (hb : ∀ b n, s'.pc b = .waiting .queued n false → s.pc b = .waiting .queued n false) :
    Queued s' := by
  constructor
  · exact fun b hb => h.named b (hi b hb)
  · intro b n hf
    rw [Sys.Front, hn, hheld] at hf
    rw [hth]
    exact h.front b n hf
  · intro b n hpc
    rw [hth]
    exact h.behind b n (hb b n hpc)
  · intro b n hh
    rw [hheld] at hh
    rw [hn]
    exact h.held b n hh

/-- `acquire` behind other threads. -/
theorem Custody.enqueue (h : Custody s g) (hpc : s.pc a = .idle) (hne : a.client ≠ "")
    (htid : n.tid = a.tid)
    (hth : (s.ent a.client).threads ≠ []) (hnew : n ∉ (s.ent a.client).threads) :
    Custody ((s.setClient a.client
      { s.ent a.client with threads := (s.ent a.client).threads ++ [n] }).setPc a
      (.waiting .queued n false)) g := by
  generalize hs' : (s.setClient a.client
    { s.ent a.client with threads := (s.ent a.client).threads ++ [n] }).setPc a
    (.waiting .queued n false) = s'
  have hsrv : s'.srv = s.srv := hs' ▸ rfl
  have hheld : s'.held = s.held := hs' ▸ rfl
  have hpcs : ∀ b, s'.pc b = if b = a then .waiting .queued n false else s.pc b :=
    fun b => by simp [← hs']
  have hent : ∀ x, (s'.ent x).state = (s.ent x).state ∧ (s'.ent x).message = (s.ent x).message ∧
      (s'.ent x).threads =
        if x = a.client then (s.ent x).threads ++ [n] else (s.ent x).threads := by
    intro x
    rw [← hs', Sys.setPc_ent, Sys.setClient_ent]
    split_ifs with hx
    · exact ⟨by rw [hx], by rw [hx], by rw [hx]⟩
    · exact ⟨rfl, rfl, rfl⟩
  have hidle : ∀ {b}, s.pc b ≠ .idle → s'.pc b = s.pc b := by
    intro b hb
    rw [hpcs, if_neg]
    rintro rfl
    exact hb hpc
  have hfree : ∀ {c}, (s.ent c).state = .free → (s'.ent c).threads = (s.ent c).threads := by
    intro c hc
    rw [(hent c).2.2, if_neg]
    rintro rfl
    exact hth (h.entries.free _ hc).2
  have hquiet : Quiet s s' g := by
    refine ⟨hsrv, ?_, fun c hc => .inl ((hent c).2.1 ▸ hc), ?_, ?_, ?_, ?_, ?_, ?_, ?_⟩
    · rintro c ⟨b, hb, hr⟩
      refine ⟨b, hb, ?_⟩
      rwa [hidle]
      intro hi
      simp [hi, Pc.Refused] at hr
    · intro c hc
      refine .inl ⟨(hent c).2.1 ▸ hc, ?_⟩
      rintro ⟨b, m, q, hb, hr⟩
      exact ⟨b, m, q, hb, by rw [hidle (by simp [hr]), hr]⟩
    · exact fun _ hm => (hent _).2.1.trans hm
    · intro b hb
      refine .inl (hidle ?_)
      obtain ⟨m, hm | ⟨t, hm⟩⟩ := h.entries.granted b hb <;> simp [hm]
    · intro c hc
      rw [(hent c).1]
      obtain h₁ | ⟨h₁, h₂⟩ | h₃ := h.entries.kept c hc
      · exact .inl h₁
      · refine .inr (.inl ⟨h₁, ?_⟩)
        rw [(hent c).2.2]
        split_ifs
        · simp
        · exact h₂
      · refine .inr (.inr ?_)
        rwa [Sys.HeldBy, hheld]
    · intro c _ _ hh
      rwa [Sys.HeldBy, hheld]
    · intro c hc
      rw [(hent c).1] at hc
      rw [hfree hc]
      exact h.entries.free c hc
    · exact fun b m hb => hheld ▸ hb
  refine ⟨⟨?_, ?_, ?_, ?_⟩, hquiet.server h.server, hquiet.entries h.entries, ?_⟩
  · intro b hb
    by_cases hba : b = a
    · exact hba ▸ hne
    · rw [hpcs, if_neg hba] at hb
      exact h.queues.named b hb
  · intro b m hb
    have hf : s.Front b m := by
      rw [Sys.Front, hheld, hpcs] at hb
      split_ifs at hb with hba
      · exact .inr (hb.resolve_left fun he => by cases he)
      · exact hb
    obtain ⟨h₁, h₂⟩ := h.queues.front b m hf
    refine ⟨h₁, ?_⟩
    rw [(hent _).2.2]
    split_ifs with hc
    · rw [List.head?_append_of_ne_nil _ (by simpa [hc] using hth), h₂]
    · exact h₂
  · intro b m hb
    rw [(hent _).2.2]
    rw [hpcs] at hb
    obtain ⟨k, ks, hks⟩ := List.exists_cons_of_ne_nil hth
    split_ifs at hb with hba
    · cases hb
      subst hba
      rw [if_pos rfl]
      refine ⟨htid, by simp [hks], fun hhd => hnew ?_⟩
      rw [List.head?_append_of_ne_nil _ hth] at hhd
      exact List.mem_of_mem_head? hhd
    · obtain ⟨h₁, h₂, h₃⟩ := h.queues.behind b m hb
      split_ifs with hc
      · rw [hc] at h₂ h₃
        rw [hc, List.head?_append_of_ne_nil _ hth, List.tail_append_of_ne_nil hth]
        exact ⟨h₁, List.mem_append_left _ h₂, h₃⟩
      · exact ⟨h₁, h₂, h₃⟩
  · intro b m hb
    rw [hpcs]
    split_ifs
    · rfl
    · exact h.queues.held b m (hheld ▸ hb)
  · intro b
    rw [hpcs]
    split_ifs
    · trivial
    · refine hquiet.pc (h.pc b) ?_ ?_ ?_ ?_ ?_
      · exact fun _ _ => by rw [(hent _).1]; exact id
      · exact fun _ _ => by rw [(hent _).1, (hent _).2.1]; exact id
      · exact fun _ => by rw [(hent _).2.1]; exact id
      · exact fun hp => by rw [(hent _).2.1]; exact hp.message
      · exact fun y ht => by rw [(hent _).2.1]; exact ht.message

/-- The front leaves the queue, and signals the next one, if there is one. -/
theorem Custody.hands (h : Custody s g) (hf : s.Front a n) (hacq : ∀ m q, s.pc a ≠ .acquiring m q)
    (hwait : ∀ w m sig, s.pc a ≠ .waiting w m sig) (hsrv : s'.srv = s.srv)
    (hent : ∀ x, s'.ent x = if x = a.client then e else s.ent x)
    (hheld : ∀ b, s'.held b = if b = a then none else s.held b)
    (hpc : ∀ b, s'.pc b = if b = a then .idle else (s.signal a.client e.threads.head?).pc b)
    (hth : e.threads = (s.ent a.client).threads.tail) (hm : e.message = .empty)
    (hst : g.tok = .kept a.client ∧ (s.ent a.client).message ≠ .revoke ∧
        (e.state = .free ∧ e.threads = [] ∨ e.state = .locked ∧ e.threads ≠ []) ∨
      g.tok ≠ .kept a.client ∧ e.state = .none) : Custody s' g := by
  have hnr : ¬ (s.pc a).Refused := by
    cases hp : s.pc a with
    | idle => exact id
    | waiting w m sig => exact absurd hp (hwait w m sig)
    | acquiring m q => exact absurd hp (hacq m q)
    | releasing m q => exact id
  have hgr : ∀ b, g.tok = .granted b → b.client ≠ a.client := by
    intro b hb hc
    have hba := h.granted_eq hf hb hc
    subst hba
    obtain ⟨m, hm | ⟨t, hm⟩⟩ := h.entries.granted b hb <;> exact hacq m _ hm
  -- the others of its client stand behind it; the first of them is signalled
  have hback : ∀ b, b ≠ a → b.client = a.client → s'.pc b = s.pc b ∧ (s.pc b).node? = none ∧
        (∀ m, s.pc b = .waiting .queued m false → e.threads.head? ≠ some m) ∨
      ∃ m, s.pc b = .waiting .queued m false ∧ e.threads.head? = some m ∧
        s'.pc b = .waiting .queued m true := by
    intro b hba hc
    obtain ⟨hn, -⟩ := h.queues.others hf hba hc
    rw [hpc, if_neg hba]
    obtain hs | ⟨w, m, -, ho, hb, hs⟩ := s.signal_pc a.client e.threads.head? b
    · refine .inl ⟨hs, hn, fun m hb ho => ?_⟩
      rw [ho, Sys.signal_some_pc, if_pos hc, hb] at hs
      simp [Pc.signal] at hs
    · cases w with
      | queued => exact .inr ⟨m, hb, ho, hs⟩
      | _ => simp [hb, Pc.node?] at hn
  have hfar : ∀ b, b.client ≠ a.client → s'.pc b = s.pc b := by
    intro b hc
    rw [hpc, if_neg (fun hba : b = a => hc (hba ▸ rfl))]
    obtain hs | ⟨w, m, hc', -⟩ := s.signal_pc a.client e.threads.head? b
    · exact hs
    · exact absurd hc' hc
  have hquiet : Quiet s s' g := by
    refine ⟨hsrv, ?_, ?_, ?_, ?_, ?_, ?_, ?_, ?_, ?_⟩
    · rintro c ⟨b, hb, hr⟩
      have hc : b.client ≠ a.client := fun hc => hnr (h.queues.refused hf ⟨b, hc, hr⟩)
      exact ⟨b, hb, by rwa [hfar b hc]⟩
    · intro c hc
      rw [hent] at hc
      split_ifs at hc with hca
      · simp [hm] at hc
      · exact .inl hc
    · intro c hc
      rw [hent] at hc
      split_ifs at hc with hca
      · simp [hm] at hc
      · refine .inl ⟨hc, ?_⟩
        rintro ⟨b, m, q, hb, hr⟩
        exact ⟨b, m, q, hb, by rw [hfar b (hb ▸ hca), hr]⟩
    · intro hg hme
      have hca : g.tok.owner ≠ a.client := by
        intro hca
        rw [hca] at hme
        cases ht : g.tok with
        | granted b => exact hgr b ht (by rwa [ht] at hca)
        | kept c =>
          rw [ht] at hca
          subst hca
          obtain ⟨-, hm', -⟩ | ⟨hk, -⟩ := hst
          · exact hm' hme
          · exact hk ht
        | _ => simp [ht, Token.Given] at hg
      rwa [hent, if_neg hca]
    · exact fun b hb => .inl (hfar b (hgr b hb))
    · intro c hc
      rw [hent]
      split_ifs with hca
      · subst hca
        obtain ⟨-, -, hf | hl⟩ | ⟨hk, -⟩ := hst
        · exact .inl hf.1
        · exact .inr (.inl hl)
        · exact absurd hc hk
      · obtain h₁ | h₂ | ⟨b, m, hb, hh⟩ := h.entries.kept c hc
        · exact .inl h₁
        · exact .inr (.inl h₂)
        · refine .inr (.inr ⟨b, m, hb, ?_⟩)
          rw [hheld, if_neg (fun hba : b = a => hca (hba ▸ hb.symm)), hh]
    · rintro c hc hm' ⟨b, m, hb, hh⟩
      refine ⟨b, m, hb, ?_⟩
      rw [hheld, if_neg, hh]
      rintro rfl
      subst hb
      obtain ⟨-, hm', -⟩ | ⟨hk, -⟩ := hst
      · exact hm' ‹_›
      · exact hk hc
    · intro c hc
      rw [hent] at hc ⊢
      split_ifs at hc ⊢ with hca
      · subst hca
        obtain ⟨hk, -, ⟨-, hnil⟩ | ⟨hl, -⟩⟩ | ⟨-, hn⟩ := hst
        · exact ⟨hk, hnil⟩
        · simp [hl] at hc
        · simp [hn] at hc
      · exact h.entries.free c hc
    · intro b m hb
      rw [hheld] at hb
      split_ifs at hb
      exact hb
  have hqueues : Queued s' := by
    constructor
    case named =>
      intro b hb hc
      by_cases hba : b = a
      · rw [hpc, if_pos hba] at hb
        exact hb rfl
      · refine h.queues.named b (fun hi => hb ?_) hc
        rw [hpc, if_neg hba]
        obtain hs | ⟨w, m, -, -, hp, -⟩ := s.signal_pc a.client e.threads.head? b
        · rw [hs, hi]
        · simp [hp] at hi
    case front =>
      intro b m hb
      have hba : b ≠ a := by
        rintro rfl
        simp [Sys.Front, hpc, hheld, Pc.node?] at hb
      rw [Sys.Front, hheld, if_neg hba] at hb
      rw [hent]
      split_ifs with hc
      · obtain ⟨-, hh⟩ := h.queues.others hf hba hc
        obtain ⟨hs, hn, -⟩ | ⟨k, hk, hhd, hs⟩ := hback b hba hc
        · simp [hs, hn, hh] at hb
        · have hmk : m = k := by simpa [hs, hh, Pc.node?, eq_comm] using hb
          subst hmk
          exact ⟨(h.queues.behind b m hk).1, hhd⟩
      · rw [hfar b hc] at hb
        exact h.queues.front b m hb
    case behind =>
      intro b m hb
      have hba : b ≠ a := by
        rintro rfl
        simp [hpc] at hb
      rw [hent]
      split_ifs with hc
      · obtain ⟨hs, -, hhd⟩ | ⟨k, -, -, hs⟩ := hback b hba hc
        · rw [hs] at hb
          obtain ⟨h₁, h₂, -⟩ := h.queues.behind b m hb
          rw [hc, ← hth] at h₂
          refine ⟨h₁, ?_, hhd m hb⟩
          have hhd := hhd m hb
          cases hes : e.threads with
          | nil => simp [hes] at h₂
          | cons k ks =>
            rw [hes] at h₂ hhd
            exact (List.mem_cons.mp h₂).resolve_left fun hmk => hhd (by rw [hmk]; rfl)
        · simp [hs] at hb
      · rw [hfar b hc] at hb
        exact h.queues.behind b m hb
    case held =>
      intro b m hb
      rw [hheld] at hb
      split_ifs at hb with hba
      have hc : b.client ≠ a.client := fun hc => by simpa [hb] using (h.queues.others hf hba hc).2
      rw [hfar b hc]
      exact h.queues.held b m hb
  refine ⟨hqueues, hquiet.server h.server, hquiet.entries h.entries, ?_⟩
  intro b
  by_cases hba : b = a
  · rw [hpc, if_pos hba]
    trivial
  by_cases hc : b.client = a.client
  · obtain ⟨hs, hn, -⟩ | ⟨k, -, hhd, hs⟩ := hback b hba hc
    · rw [hs]
      exact .of_behind hn
    · rw [hs]
      intro hl
      rw [hent, if_pos hc] at hl
      rw [hc]
      obtain ⟨hk, -⟩ | ⟨-, hn⟩ := hst
      · exact hk
      · simp [hn] at hl
  · rw [hfar b hc]
    refine hquiet.pc (h.pc b) ?_ ?_ ?_ ?_ ?_
    · exact fun _ _ => by rw [hent, if_neg hc]; exact id
    · exact fun _ _ => by rw [hent, if_neg hc]; exact id
    · exact fun _ => by rw [hent, if_neg hc]; exact id
    · intro hp
      rw [hent]
      split_ifs
      · simp [hm]
      · exact hp.message
    · intro y ht
      rw [hent]
      split_ifs
      · simp [hm]
      · exact ht.message

/-- A section that an activity runs at another client: it moves nobody in a queue. -/
structure Calls (s s' : Sys) (g : Books) (a : Thread) : Prop where
  srv : s'.srv = s.srv
  held : s'.held = s.held
  node : (s'.pc a).node? = (s.pc a).node? ∧ s.pc a ≠ .idle
  pc : ∀ b, b ≠ a → s'.pc b = s.pc b ∨ ∃ w m, w ≠ Wait.queued ∧ s.pc b = .waiting w m false ∧
    s'.pc b = .waiting w m true ∧
      ((s'.ent b.client).message = .retry ∨ (s'.ent b.client).state = .none)
  refused : (s.pc a).Refused → (s'.pc a).Refused
  releasing : ∀ m q, s.pc a = .releasing m q → ∃ q', s'.pc a = .releasing m q'
  waiting : ∀ w m sig, s'.pc a ≠ .waiting w m sig
  threads : ∀ x, (s'.ent x).threads = (s.ent x).threads
  state : ∀ x, (s'.ent x).state = (s.ent x).state ∨ (s'.ent x).state = .none ∧
    (g.tok = .kept x → s.HeldBy x)
  granted : g.tok = .granted a → (∃ n, s'.pc a = .acquiring n (.rep .ok)) ∧
    (s'.ent a.client).message = .revoke
  message : ∀ x, (s'.ent x).message = (s.ent x).message ∨
    (s'.ent x).message = .retry ∧ x ∉ s.srv.waitingClients ∧ s.Refused x ∧ ¬ g.tok.Given ∧
      g.told = some a ∨
    (s'.ent x).message = .revoke ∧ s.srv.state = .revoking ∧ g.tok.Given ∧
      g.tok.owner = x ∧ g.rev = some a
  asleep : ∀ b m, s'.pc b = .waiting .retry m false → (s'.ent b.client).message = .retry →
    (s.ent b.client).message = .retry

theorem Calls.same (hc : Calls s s' g a) {b : Thread}
    (hb : ∀ w m, s.pc b ≠ .waiting w m false) (hba : b ≠ a) :
    s'.pc b = s.pc b := by
  obtain hs | ⟨w, m, -, hw, -⟩ := hc.pc b hba
  · exact hs
  · exact absurd hw (hb w m)

theorem Calls.quiet (hc : Calls s s' g a) (h : EntriesAgree s g) : Quiet s s' g := by
  have hheld : ∀ {c}, s.HeldBy c → s'.HeldBy c := fun hh => by rwa [Sys.HeldBy, hc.held]
  refine ⟨hc.srv, ?_, ?_, ?_, ?_, ?_, ?_, fun c _ _ => hheld, ?_, fun b m hb => hc.held ▸ hb⟩
  · rintro c ⟨b, hb, hr⟩
    refine ⟨b, hb, ?_⟩
    by_cases hba : b = a
    · subst hba
      exact hc.refused hr
    obtain hs | ⟨w, m, -, hw, hw', -⟩ := hc.pc b hba
    · rwa [hs]
    · rw [hw] at hr
      rw [hw']
      cases w with
      | retry => trivial
      | _ => exact hr
  · intro c hm
    obtain hs | ⟨-, h₁, h₂, -⟩ | ⟨hr, -⟩ := hc.message c
    · exact .inl (hs ▸ hm)
    · exact .inr ⟨h₁, h₂⟩
    · simp [hr] at hm
  · intro c hm
    obtain hs | ⟨hr, -⟩ | ⟨-, h₁, h₂, h₃, -⟩ := hc.message c
    · refine .inl ⟨hs ▸ hm, ?_⟩
      rintro ⟨b, m, q, hb, hr⟩
      by_cases hba : b = a
      · subst hba
        obtain ⟨q', hq'⟩ := hc.releasing m q hr
        exact ⟨b, m, q', hb, hq'⟩
      · exact ⟨b, m, q, hb, by rw [hc.same (by simp [hr]) hba, hr]⟩
    · simp [hr] at hm
    · exact .inr ⟨h₁, h₂, h₃⟩
  · intro hg hm
    obtain hs | ⟨-, -, -, hn, -⟩ | ⟨hr, -⟩ := hc.message g.tok.owner
    · rw [hs, hm]
    · exact absurd hg hn
    · exact hr
  · intro b hb
    by_cases hba : b = a
    · subst hba
      exact .inr (hc.granted hb)
    · refine .inl (hc.same ?_ hba)
      obtain ⟨m, hm | ⟨t, hm⟩⟩ := h.granted b hb <;> simp [hm]
  · intro c hk
    rw [hc.threads]
    obtain hs | ⟨-, hh⟩ := hc.state c
    · rw [hs]
      exact (h.kept c hk).imp_right (Or.imp_right hheld)
    · exact .inr (.inr (hheld (hh hk)))
  · intro c hst
    rw [hc.threads]
    obtain hs | ⟨hn, -⟩ := hc.state c
    · exact h.free c (hs ▸ hst)
    · simp [hn] at hst

theorem Custody.calls (h : Custody s g) (hc : Calls s s' g a) (hp : Relies s' g a (s'.pc a)) :
    Custody s' g := by
  have hquiet := hc.quiet h.entries
  have hqueues : Queued s' := by
    refine h.queues.same hc.threads hc.held ?_ ?_ ?_
    · intro b
      by_cases hba : b = a
      · exact hba ▸ hc.node.1
      obtain hs | ⟨w, m, hw, hb, hb', -⟩ := hc.pc b hba
      · rw [hs]
      · rw [hb, hb']
        cases w with
        | queued => exact absurd rfl hw
        | _ => rfl
    · intro b hb
      by_cases hba : b = a
      · exact hba ▸ hc.node.2
      obtain hs | ⟨w, m, -, hb', -⟩ := hc.pc b hba
      · rwa [hs] at hb
      · simp [hb']
    · intro b m hb
      by_cases hba : b = a
      · exact absurd (hba ▸ hb) (hc.waiting _ _ _)
      obtain hs | ⟨w, k, -, -, hb', -⟩ := hc.pc b hba
      · rwa [hs] at hb
      · simp [hb'] at hb
  refine ⟨hqueues, hquiet.server h.server, hquiet.entries h.entries, fun b => ?_⟩
  by_cases hba : b = a
  · exact hba ▸ hp
  have hpb := h.pc b
  obtain hs | ⟨w, m, hw, hb, hb', hor⟩ := hc.pc b hba
  · rw [hs]
    refine hquiet.pc hpb ?_ ?_ ?_ ?_ ?_
    · intro _ _ hl
      obtain hst | ⟨hn, -⟩ := hc.state b.client
      · rw [← hst, hl]
      · simp [hn] at hl
    · intro m hm hor
      obtain hme | ⟨hr, -⟩ | ⟨-, -, hg, ho, -⟩ := hc.message b.client
      · rw [hme]
        obtain hst | ⟨hn, -⟩ := hc.state b.client
        · rwa [hst]
        · exact .inr hn
      · exact .inl hr
      · -- a `REVOKE` comes only to a client that has the lock
        rw [hm] at hpb
        have hfb : s.Front b m := .inl (by rw [hm]; rfl)
        cases ht : g.tok with
        | granted b' =>
          have hbb := h.granted_eq hfb ht (by rwa [ht] at ho)
          obtain ⟨k, hk | ⟨t, hk⟩⟩ := h.entries.granted b' ht <;> simp [hbb, hm] at hk
        | kept c =>
          rw [ht] at ho
          exact absurd (ho ▸ ht) hpb.1
        | _ => simp [ht, Token.Given] at hg
    · intro hor hne hm
      obtain hme | ⟨-, -, hr, -⟩ | ⟨hr, -⟩ := hc.message b.client
      · exact hne (hme ▸ hm)
      · obtain ⟨m, hb⟩ | ⟨m, hb⟩ := hor
        · exact hne (hc.asleep b m (hs.trans hb) hm)
        · have hfb : s.Front b m := .inl (by rw [hb]; rfl)
          have := h.queues.refused hfb hr
          simp [hb, Pc.Refused] at this
      · simp [hr] at hm
    · intro hp hm
      obtain hme | ⟨hr, -⟩ | ⟨-, -, -, -, hr⟩ := hc.message s.srv.owner
      · exact hp.message (hme ▸ hm)
      · simp [hr] at hm
      · rw [hp.rev] at hr
        cases hr
        exact hba rfl
    · intro y ht hm
      obtain hme | ⟨-, -, -, -, hr⟩ | ⟨hr, -⟩ := hc.message y
      · exact ht.message (hme ▸ hm)
      · rw [ht.told] at hr
        cases hr
        exact hba rfl
      · simp [hr] at hm
  · rw [hb] at hpb
    rw [hb']
    cases w with
    | queued => exact absurd rfl hw
    | released => exact hpb
    | retry =>
      obtain ⟨h₁, h₂, -⟩ := hpb
      exact ⟨h₁, by rwa [Sys.Asked, hquiet.srv], hor⟩

/-- The server's handler makes its `revoke` call. -/
theorem Custody.sendRevoke (h : Custody s g) (hpc : s.pc a = .acquiring n .revSend) :
    Custody (s.setPc a (.acquiring n (.revReq s.srv.owner .retry))) g := by
  have hp := h.pc a
  rw [hpc] at hp
  obtain ⟨hk, hask, ⟨h₁, h₂, h₃, h₄⟩, hne⟩ := hp
  refine h.calls (a := a)
    ⟨rfl, rfl, ?_, ?_, ?_, ?_, ?_, fun _ => rfl, fun _ => .inl rfl, ?_, fun _ => .inl rfl,
      fun _ _ _ => id⟩ ?_
  · simp [hpc, Pc.node?]
  · exact fun b hb => .inl (by simp [hb])
  · intro
    rw [Sys.setPc_pc, if_pos rfl]
    trivial
  · simp [hpc]
  · simp
  · intro hgr
    obtain ⟨m, hm | ⟨t, hm⟩⟩ := h.entries.granted a hgr <;> simp [hpc] at hm
  · rw [Sys.setPc_pc, if_pos rfl]
    exact ⟨hk, hask, ⟨h₁, h₂, h₃, h₄⟩, rfl, hne⟩

/-- `revoke_handler` when the lock is in use. -/
theorem Custody.revokeLater (h : Custody s g) {t : String} {ret : Status}
    (hpc : s.pc a = .acquiring n (.revReq t ret))
    (hst : (s.ent t).state ≠ .free) :
    Custody ((s.setClient t { s.ent t with message := .revoke }).setPc a
      (.acquiring n (.rep ret))) g := by
  have hp := h.pc a
  rw [hpc] at hp
  generalize hs' : (s.setClient t { s.ent t with message := .revoke }).setPc a
    (.acquiring n (.rep ret)) = s'
  have hpcs : ∀ b, s'.pc b = if b = a then .acquiring n (.rep ret) else s.pc b :=
    fun b => by simp [← hs']
  have hent : ∀ x, (s'.ent x).threads = (s.ent x).threads ∧ (s'.ent x).state = (s.ent x).state ∧
      (s'.ent x).message = if x = t then .revoke else (s.ent x).message := by
    intro x
    rw [← hs', Sys.setPc_ent, Sys.setClient_ent]
    split_ifs with hx
    · exact ⟨by rw [hx], by rw [hx], rfl⟩
    · exact ⟨rfl, rfl, rfl⟩
  have hpend : Pending s g a ∧ t = s.srv.owner := by
    cases ret with
    | ok => exact hp.2
    | retry => exact ⟨hp.2.2.1, hp.2.2.2.1⟩
  obtain ⟨⟨h₁, h₂, h₃, h₄⟩, rfl⟩ := hpend
  refine h.calls (a := a)
    ⟨hs' ▸ rfl, hs' ▸ rfl, ?_, ?_, ?_, ?_, ?_, fun x => (hent x).1,
      fun x => .inl (hent x).2.1, ?_, ?_, ?_⟩ ?_
  · simp [hpcs, hpc, Pc.node?]
  · exact fun b hb => .inl (by rw [hpcs, if_neg hb])
  · intro hr
    rw [hpcs, if_pos rfl]
    cases ret with
    | ok => simp [hpc, Pc.Refused] at hr
    | retry => trivial
  · simp [hpc]
  · simp [hpcs]
  · intro hgr
    have ho : s.srv.owner = a.client := by rw [h.server.owner, hgr]; rfl
    cases ret with
    | ok => exact ⟨⟨n, by rw [hpcs, if_pos rfl]⟩, by rw [(hent _).2.2, if_pos ho.symm]⟩
    | retry => exact absurd ho hp.2.2.2.2
  · intro x
    rw [(hent x).2.2]
    split_ifs with hx
    · exact .inr (.inr ⟨rfl, h₂, h₃, by rw [hx, h.server.owner], h₁⟩)
    · exact .inl rfl
  · intro b m _ hm
    rw [(hent _).2.2] at hm
    split_ifs at hm
    exact hm
  · rw [hpcs, if_pos rfl]
    cases ret with
    | ok => exact hp.1
    | retry =>
      obtain ⟨hk, hask, -⟩ := hp
      exact ⟨hk, by rwa [Sys.Asked, ← hs']⟩

/-- `retry_handler`. -/
theorem Custody.retry (h : Custody s g) {x y : String}
    (hpc : (s.pc a).release? a.client = some (x, .retryReq y))
    (hm : (s.ent y).threads.head? = some m) :
    Custody (((s.setClient y { s.ent y with message := .retry }).signal y (some m)).setPc a
      ((s.pc a).setRelease .rep)) g := by
  generalize hs' : ((s.setClient y { s.ent y with message := .retry }).signal y (some m)).setPc a
    ((s.pc a).setRelease .rep) = s'
  have hpcs : ∀ b, b ≠ a → s'.pc b = (s.signal y (s.ent y).threads.head?).pc b := by
    intro b hb
    rw [hm, ← hs', Sys.setPc_pc, if_neg hb]
    rfl
  have hpca : s'.pc a = (s.pc a).setRelease .rep := by rw [← hs', Sys.setPc_pc, if_pos rfl]
  have hent : ∀ x, (s'.ent x).threads = (s.ent x).threads ∧ (s'.ent x).state = (s.ent x).state ∧
      (s'.ent x).message = if x = y then .retry else (s.ent x).message := by
    intro x
    rw [← hs', Sys.setPc_ent, Sys.signal_ent, Sys.setClient_ent]
    split_ifs with hx
    · exact ⟨by rw [hx], by rw [hx], rfl⟩
    · exact ⟨rfl, rfl, rfl⟩
  have hp := h.pc a
  obtain ⟨ht₁, ht₂, rfl, -, ht₅⟩ : Told s g a y := (hp.release hpc).1
  obtain ⟨hnone, hnw⟩ := h.server.retrying_ok ht₂
  obtain ⟨hnode, href, hre, hw⟩ := Pc.setRelease_spec .rep hpc
  have hcalls : Calls s s' g a := by
    refine ⟨hs' ▸ rfl, hs' ▸ rfl, hpca ▸ hnode, ?_, fun hr => hpca ▸ href.mpr hr,
      fun k q hk => ⟨.rep, hpca ▸ hre k q hk⟩,
      hpca ▸ hw, fun x => (hent x).1, fun x => .inl (hent x).2.1, by simp [hnone], ?_, ?_⟩
    · intro b hb
      rw [hpcs b hb]
      refine (h.queues.signal_head s.srv.retryingClient b).imp_right ?_
      rintro ⟨w, k, hwq, hc, hk, hk'⟩
      exact ⟨w, k, hwq, hk, hk', .inl (by rw [(hent _).2.2, if_pos hc])⟩
    · intro x
      rw [(hent x).2.2]
      split_ifs with hx
      · exact .inr (.inl ⟨rfl, hx ▸ hnw, hx ▸ ht₅, by simp [hnone, Token.Given], ht₁⟩)
      · exact .inl rfl
    · intro b k hb hme
      rw [(hent _).2.2] at hme
      split_ifs at hme with hc
      · have hba : b ≠ a := fun hba => hw _ _ _ (hpca ▸ hba ▸ hb)
        rw [hpcs b hba] at hb
        obtain hs | ⟨w, k', -, -, -, hk'⟩ := h.queues.signal_head s.srv.retryingClient b
        · have hfb : s.Front b k := .inl (by rw [← hs, hb]; rfl)
          have hhd := (h.queues.front b k hfb).2
          rw [hc, hm] at hhd
          cases hhd
          rw [hm, Sys.signal_some_pc, if_pos hc] at hb
          cases hpb : s.pc b with
          | waiting w k sig =>
            simp [hpb, Pc.signal] at hb
            exact absurd hb.2.1 hb.2.2.2
          | _ => simp [hpb, Pc.signal] at hb
        · simp [hk'] at hb
      · exact hme
  have hquiet := hcalls.quiet h.entries
  refine h.calls hcalls ?_
  rw [hpca]
  cases hpa : s.pc a with
  | acquiring n q =>
    cases q with
    | revRel t r q =>
      cases hpa ▸ hpc
      rw [hpa] at hp
      obtain ⟨h₁, h₂, h₃, h₄, -, h₆⟩ := hp
      exact ⟨h₁, by rwa [Sys.Asked, hquiet.srv], h₃, h₄, hquiet.stale h₆⟩
    | _ => simp [hpa, Pc.release?] at hpc
  | releasing n q =>
    cases hpa ▸ hpc
    rw [hpa] at hp
    exact hquiet.stale hp.2
  | _ => simp [hpa, Pc.release?] at hpc

/-- `revoke_handler` when its `release` call has returned. -/
theorem Custody.revokeReturns (h : Custody s g) {t : String} {ret : Status}
    (hpc : s.pc a = .acquiring n (.revRel t ret .rep)) :
    Custody (((s.setClient t { s.ent t with state := .none }).signal t
      (s.ent t).threads.head?).setPc a
      (.acquiring n (.rep ret))) g := by
  generalize hs' :
    ((s.setClient t { s.ent t with state := .none }).signal t (s.ent t).threads.head?).setPc a
    (.acquiring n (.rep ret)) = s'
  have hpcs : ∀ b, b ≠ a → s'.pc b = (s.signal t (s.ent t).threads.head?).pc b := by
    intro b hb
    rw [← hs', Sys.setPc_pc, if_neg hb]
    rfl
  have hpca : s'.pc a = .acquiring n (.rep ret) := by rw [← hs', Sys.setPc_pc, if_pos rfl]
  have hent : ∀ x, (s'.ent x).threads = (s.ent x).threads ∧ (s'.ent x).message = (s.ent x).message ∧
      (s'.ent x).state = if x = t then .none else (s.ent x).state := by
    intro x
    rw [← hs', Sys.setPc_ent, Sys.signal_ent, Sys.setClient_ent]
    split_ifs with hx
    · exact ⟨by rw [hx], by rw [hx], rfl⟩
    · exact ⟨rfl, rfl, rfl⟩
  have hp := h.pc a
  rw [hpc] at hp
  obtain ⟨hk, hask, rfl, hta, hst⟩ := hp
  refine h.calls (a := a)
    ⟨hs' ▸ rfl, hs' ▸ rfl, ?_, ?_, fun _ => hpca ▸ trivial, by simp [hpc], by simp [hpca],
    fun x => (hent x).1, ?_, ?_, fun x => .inl (hent x).2.1, ?_⟩ ?_
  · simp [hpca, hpc, Pc.node?]
  · intro b hb
    rw [hpcs b hb]
    refine (h.queues.signal_head t b).imp_right ?_
    rintro ⟨w, k, hwq, hc, hk, hk'⟩
    exact ⟨w, k, hwq, hk, hk', .inr (by rw [(hent _).2.2, if_pos hc])⟩
  · intro x
    rw [(hent x).2.2]
    split_ifs with hx
    · exact .inr ⟨rfl, fun hkx => (hst.kept (hx ▸ hkx)).2 |> (hx ▸ ·)⟩
    · exact .inl rfl
  · intro hgr
    obtain ⟨m, hm | ⟨t, hm⟩⟩ := h.entries.granted a hgr <;> simp [hpc] at hm
  · exact fun b m _ hm => (hent _).2.1 ▸ hm
  · rw [hpca]
    exact ⟨hk, by rwa [Sys.Asked, ← hs']⟩

/-- `revoke_handler` when the lock is free: it is on its way back. -/
theorem Custody.revokeFree (h : Custody s g) {t : String} {ret : Status}
    (hpc : s.pc a = .acquiring n (.revReq t ret))
    (hst : (s.ent t).state = .free) :
    Custody ((s.setClient t { s.ent t with state := .releasing }).setPc a
      (.acquiring n (.revRel t ret .req)))
      { g with tok := .returning a t } := by
  obtain ⟨hk, hth⟩ := h.entries.free t hst
  have hp := h.pc a
  rw [hpc] at hp
  have hret : ret = .retry := by
    cases ret with
    | ok =>
      have hgr := hp.1
      simp [hk] at hgr
    | retry => rfl
  subst hret
  obtain ⟨hka, hask, ⟨h₁, h₂, h₃, h₄⟩, rfl, hta⟩ := hp
  generalize hs' : (s.setClient s.srv.owner { s.ent s.srv.owner with state := .releasing }).setPc a
    (.acquiring n (.revRel s.srv.owner .retry .req)) = s'
  have hsrv : s'.srv = s.srv := hs' ▸ rfl
  have hheld : s'.held = s.held := hs' ▸ rfl
  have hpcs : ∀ b, s'.pc b =
      if b = a then .acquiring n (.revRel s.srv.owner .retry .req) else s.pc b :=
    fun b => by simp [← hs']
  have hent : ∀ x, (s'.ent x).threads = (s.ent x).threads ∧ (s'.ent x).message = (s.ent x).message ∧
      (s'.ent x).state = if x = s.srv.owner then .releasing else (s.ent x).state := by
    intro x
    rw [← hs', Sys.setPc_ent, Sys.setClient_ent]
    split_ifs with hx
    · exact ⟨by rw [hx], by rw [hx], rfl⟩
    · exact ⟨rfl, rfl, rfl⟩
  have hno : ∀ b m, s.held b ≠ some m := by
    intro b m hb
    have hkb := h.entries.held b m hb
    rw [hk] at hkb
    have hc : s.srv.owner = b.client := Token.kept.inj hkb
    rw [hc] at hth
    simpa [hb] using (h.queues.empty hth).2
  have href : ∀ c, s.Refused c → s'.Refused c := by
    rintro c ⟨b, hb, hr⟩
    refine ⟨b, hb, ?_⟩
    rw [hpcs]
    split_ifs
    · trivial
    · exact hr
  have hqueues : Queued s' := by
    refine h.queues.same (fun x => (hent x).1) hheld ?_ ?_ ?_
    · intro b
      rw [hpcs]
      split_ifs with hba
      · rw [hba, hpc]
        rfl
      · rfl
    · intro b hb
      rw [hpcs] at hb
      split_ifs at hb with hba
      · simp [hba, hpc]
      · exact hb
    · intro b m hb
      rw [hpcs] at hb
      split_ifs at hb
      exact hb
  have hserver : ServerAgrees s' { g with tok := .returning a s.srv.owner } := by
    have hnob : s.srv.owner ≠ "" := by
      intro ho
      have hn := h.server.nobody (h.server.owner ▸ ho)
      simp [hk] at hn
    refine ⟨by rw [hsrv]; rfl, fun ho => absurd ho hnob, ?_, ?_, ?_, ?_, ?_⟩ <;> rw [hsrv]
    · exact h.server.none_ok
    · simp [h₂]
    · exact h.server.revoking_ok
    · simp [h₂]
    · intro c hc
      obtain ⟨hm, hr⟩ := h.server.waiting_ok c hc
      exact ⟨(hent c).2.1 ▸ hm, href c hr⟩
  have hentries : EntriesAgree s' { g with tok := .returning a s.srv.owner } := by
    refine ⟨nofun, nofun, fun c hc => href c (h.entries.retry c ((hent c).2.1 ▸ hc)), ?_, ?_, ?_⟩
    · intro c hc
      rw [(hent c).2.1] at hc
      obtain ⟨-, ho⟩ | ⟨b, m, q, hb, hr⟩ := h.entries.revoke c hc
      · rw [← h.server.owner] at ho
        exact absurd (ho ▸ hc) h₄
      · refine .inr ⟨b, m, q, hb, ?_⟩
        rw [hpcs, if_neg, hr]
        rintro rfl
        simp [hpc] at hr
    · intro c hc
      rw [(hent c).2.2] at hc
      split_ifs at hc with hco
      have hkc := (h.entries.free c hc).1
      rw [hk] at hkc
      cases hkc
      exact absurd rfl hco
    · exact fun b m hb => absurd (hheld ▸ hb) (hno b m)
  refine ⟨hqueues, hserver, hentries, fun b => ?_⟩
  rw [hpcs]
  split_ifs with hba
  · subst hba
    exact ⟨nofun, by rwa [Sys.Asked, hsrv], rfl, hta, rfl⟩
  by_cases hc : b.client = s.srv.owner
  · exact .of_behind (h.queues.empty (hc ▸ hth)).1
  have hkc : g.tok ≠ .kept b.client := by
    rw [hk]
    exact fun hkb => hc (Token.kept.inj hkb).symm
  refine (h.pc b).frame ?_ ?_ ?_ ?_ ⟨nofun, fun hkb => absurd hkb hkc⟩ ?_ ?_ ?_ ?_
    (fun x _ _ => ⟨nofun, nofun⟩)
  · exact fun _ _ => by rw [(hent _).2.2, if_neg hc]; exact id
  · exact fun _ _ => by rw [(hent _).2.2, if_neg hc, (hent _).2.1]; exact id
  · exact fun _ => by rw [(hent _).2.1]; exact id
  · exact fun ha => by rwa [Sys.Asked, hsrv]
  · simp [hk]
  · simp [hk]
  · intro hp
    have hr := hp.rev
    rw [h₁] at hr
    cases hr
    exact absurd rfl hba
  · intro y ht
    have hst := ht.state
    simp [h₂] at hst

end Yfs.Lock
