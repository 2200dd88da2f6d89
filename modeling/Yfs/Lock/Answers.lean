import Yfs.Lock.Front
import Yfs.Lock.Calls

/-!
# The token and the server

The server's sections, and with them every step: the token keeps track of the lock
(`Custody.step`).
-/

namespace Yfs.Lock

open Client (QueuingThread Wait)

variable {s s' : Sys} {g : Books} {a b : Thread} {n m : QueuingThread}
  {e : Client.LockEntry} {p : Pc}

/-! ## The server's sections -/

/-- The state after the server has answered the activity `a`. -/
structure Answers (s s' : Sys) (a : Thread) (se : Server.LockEntry) (p : Pc) : Prop where
  srv : s'.srv = se
  ent : ∀ x, s'.ent x = s.ent x
  held : s'.held = s.held
  pc : ∀ b, s'.pc b = if b = a then p else s.pc b

theorem Answers.intro {se : Server.LockEntry} : Answers s ((s.setServer se).setPc a p) a se p :=
  ⟨rfl, fun _ => rfl, rfl, fun b => by simp⟩

theorem Answers.queues {se : Server.LockEntry} (hs : Answers s s' a se p) (h : Queued s)
    (hn : p.node? = (s.pc a).node? ∧ s.pc a ≠ .idle) (hw : ∀ w m sig, p ≠ .waiting w m sig) :
    Queued s' := by
  refine h.same (fun x => by rw [hs.ent]) hs.held ?_ ?_ ?_
  · intro b
    rw [hs.pc]
    split_ifs with hba
    · rw [hba, hn.1]
    · rfl
  · intro b hb
    rw [hs.pc] at hb
    split_ifs at hb with hba
    · exact hba ▸ hn.2
    · exact hb
  · intro b m hb
    rw [hs.pc] at hb
    split_ifs at hb with hba
    · exact absurd hb (hw _ _ _)
    · exact hb

theorem Answers.refused {se : Server.LockEntry} (hs : Answers s s' a se p)
    (hr : (s.pc a).Refused → p.Refused) {c : String} (hc : s.Refused c) : s'.Refused c := by
  obtain ⟨b, hb, hbr⟩ := hc
  refine ⟨b, hb, ?_⟩
  rw [hs.pc]
  split_ifs with hba
  · exact hr (hba ▸ hbr)
  · exact hbr

/-- No section of the server gives a client that has the lock anything else. -/
theorem Answers.entries {se : Server.LockEntry} {t : Token} {rev told : Option Thread}
    (hs : Answers s s' a se p)
    (h : EntriesAgree s g) (hr : (s.pc a).Refused → p.Refused)
    (hrel : ∀ m q, s.pc a = .releasing m q → ∃ q', p = .releasing m q')
    (hkept : ∀ c, t = .kept c ↔ g.tok = .kept c)
    (hgr : ∀ b, t = .granted b → ∃ n, s'.pc b = .acquiring n (.rep .ok) ∨ ∃ y,
      s'.pc b = .acquiring n (.revReq y .ok))
    (hgiven : g.tok.Given → t = g.tok) : EntriesAgree s' ⟨t, rev, told⟩ := by
  refine ⟨hgr, ?_, ?_, ?_, ?_, ?_⟩
  · intro c hc
    rw [hs.ent, Sys.HeldBy, hs.held]
    exact h.kept c ((hkept c).mp hc)
  · intro c hc
    exact hs.refused hr (h.retry c (hs.ent c ▸ hc))
  · intro c hc
    obtain ⟨hg, ho⟩ | ⟨b, m, q, hb, hbr⟩ := h.revoke c (hs.ent c ▸ hc)
    · exact .inl (hgiven hg ▸ ⟨hg, ho⟩)
    · by_cases hba : b = a
      · obtain ⟨q', hq'⟩ := hrel m q (hba ▸ hbr)
        exact .inr ⟨b, m, q', hb, by rw [hs.pc, if_pos hba, hq']⟩
      · exact .inr ⟨b, m, q, hb, by rw [hs.pc, if_neg hba, hbr]⟩
  · intro c hc
    rw [hs.ent] at hc ⊢
    obtain ⟨hk, hth⟩ := h.free c hc
    exact ⟨(hkept c).mpr hk, hth⟩
  · intro b m hb
    exact (hkept _).mpr (h.held b m (hs.held ▸ hb))

/-- The server makes a client wait: it has asked the owner, or asks it now. -/
theorem Custody.queueUp (h : Custody s g) {se : Server.LockEntry}
    {rev : Option Thread} {q : AcqPhase}
    (hpc : s.pc a = .acquiring n .req) (hs : Answers s s' a se (.acquiring n q))
    (how : se.owner = s.srv.owner) (hre : se.retryingClient = s.srv.retryingClient)
    (hwa : se.waitingClients = insert a.client s.srv.waitingClients)
    (hq : (s.srv.state = .revoking ∨ s.srv.state = .retrying ∧ a.client ≠ s.srv.retryingClient) ∧
        se.state = s.srv.state ∧ q = .rep .retry ∧ rev = g.rev ∨
      s.srv.state = .locked ∧ s.srv.owner ≠ a.client ∧ se.state = .revoking ∧
        q = .revSend ∧ rev = some a) :
    Custody s' { g with rev := rev } := by
  have hn : (s.pc a).node? = some n := by
    rw [hpc]
    rfl
  have hp := h.pc a
  rw [hpc] at hp
  obtain ⟨hk, hm⟩ := hp
  have hqr : (Pc.acquiring n q).Refused := by
    obtain ⟨-, -, rfl, -⟩ | ⟨-, -, -, rfl, -⟩ := hq <;> trivial
  have href : ∀ {c}, s.Refused c → s'.Refused c := hs.refused fun _ => hqr
  have hasked : ∀ {c}, s.Asked c → s'.Asked c := by
    intro c hc
    rw [Sys.Asked, hs.srv, hwa, hre]
    exact hc.imp_left (Finset.mem_insert_of_mem ·)
  have haska : s'.Asked a.client := by
    rw [Sys.Asked, hs.srv, hwa]
    exact .inl (Finset.mem_insert_self ..)
  have hbusy : se.state ≠ .none ∧ se.state ≠ .locked := by
    obtain ⟨hst | ⟨hst, -⟩, hse, -⟩ | ⟨-, -, hse, -⟩ := hq
    · simp [hse, hst]
    · simp [hse, hst]
    · simp [hse]
  have hserver : ServerAgrees s' { g with rev := rev } := by
    refine ⟨?_, h.server.nobody, ?_, ?_, ?_, ?_, ?_⟩ <;> rw [hs.srv]
    · rw [how, h.server.owner]
    · exact fun hse => absurd hse hbusy.1
    · exact fun hse => absurd hse hbusy.2
    · rw [hre]
      intro hst
      obtain ⟨-, hse, -⟩ | ⟨hst, -⟩ := hq
      · exact h.server.revoking_ok (hse ▸ hst)
      · exact (h.server.locked_ok hst).1
    · intro hst
      obtain ⟨hor, hse, -⟩ | ⟨-, -, hse, -⟩ := hq
      · rw [hse] at hst
        obtain ⟨htok, hnw⟩ := h.server.retrying_ok hst
        obtain hr | ⟨-, hne⟩ := hor
        · simp [hst] at hr
        · rw [hwa, hre, Finset.mem_insert]
          exact ⟨htok, fun hc => hc.elim (fun hc => hne hc.symm) hnw⟩
      · simp [hse] at hst
    · intro c hc
      rw [hs.ent]
      rw [hwa, Finset.mem_insert] at hc
      obtain rfl | hc := hc
      · exact ⟨hm, a, rfl, by rwa [hs.pc, if_pos rfl]⟩
      · obtain ⟨h₁, h₂⟩ := h.server.waiting_ok c hc
        exact ⟨h₁, href h₂⟩
  have hgr : ∀ b, g.tok = .granted b → b ≠ a := by
    rintro b hb rfl
    obtain ⟨m, hm | ⟨t, hm⟩⟩ := h.entries.granted b hb <;> simp [hpc] at hm
  have hentries : EntriesAgree s' { g with rev := rev } := by
    refine hs.entries h.entries (fun _ => hqr) (by simp [hpc]) (fun _ => Iff.rfl) ?_ (fun _ => rfl)
    intro b hb
    rw [hs.pc, if_neg (hgr b hb)]
    exact h.entries.granted b hb
  have hpend : ∀ b, Pending s g b → Pending s' { g with rev := rev } b ∧
      s'.srv.owner = s.srv.owner := by
    rintro b ⟨h₁, h₂, h₃, h₄⟩
    obtain ⟨-, hse, -, rfl⟩ | ⟨hst, -⟩ := hq
    · exact ⟨⟨h₁, by rw [hs.srv, hse, h₂], h₃, by rwa [hs.ent, hs.srv, how]⟩, by rw [hs.srv, how]⟩
    · simp [h₂] at hst
  refine ⟨hs.queues h.queues (by simp [hpc, Pc.node?]) (by simp), hserver, hentries, fun b => ?_⟩
  rw [hs.pc]
  split_ifs with hba
  · subst hba
    obtain ⟨-, -, rfl, -⟩ | ⟨hst, hne, hse, rfl, rfl⟩ := hq
    · exact ⟨hk, haska⟩
    · obtain ⟨-, -, hg, hmo⟩ := h.server.locked_ok hst
      refine ⟨hk, haska, ⟨rfl, by rw [hs.srv, hse], hg, ?_⟩, ?_⟩
      · rwa [hs.ent, hs.srv, how]
      · rwa [hs.srv, how]
  · refine (h.pc b).frame ?_ ?_ ?_ hasked Iff.rfl id (fun _ => id) (hpend b) ?_ ?_
    · exact fun _ _ => by rw [hs.ent]; exact id
    · exact fun _ _ => by rw [hs.ent]; exact id
    · exact fun _ => by rw [hs.ent]; exact id
    · rintro y ⟨h₁, h₂, h₃, h₄, h₅⟩
      refine ⟨h₁, ?_, by rw [hs.srv, hre, h₃], by rwa [hs.ent], href h₅⟩
      obtain ⟨-, hse, -⟩ | ⟨hst, -⟩ := hq
      · rw [hs.srv, hse, h₂]
      · simp [h₂] at hst
    · rintro x - ⟨h₁, h₂⟩
      constructor
      · intro hkx
        rw [hs.ent, Sys.HeldBy, hs.held]
        exact h₁ hkx
      · intro b hb hbx
        rw [hs.ent, hs.pc, if_neg (hgr b hb)]
        exact h₂ b hb hbx

/-- The server gives the lock to a client: whoever waits besides makes it ask for it at once. -/
theorem Custody.grant (h : Custody s g) {se : Server.LockEntry} {rev : Option Thread} {q : AcqPhase}
    (hpc : s.pc a = .acquiring n .req) (hs : Answers s s' a se (.acquiring n q))
    (htok : g.tok = .nobody)
      (hst : s.srv.state = .none ∨ s.srv.state = .retrying ∧ s.srv.retryingClient = a.client)
    (how : se.owner = a.client) (hre : se.retryingClient = "")
    (hwa : se.waitingClients = s.srv.waitingClients)
    (hq : s.srv.waitingClients = ∅ ∧ se.state = .locked ∧ q = .rep .ok ∧ rev = g.rev ∨
      se.state = .revoking ∧ q = .revReq a.client .ok ∧ rev = some a) :
    Custody s' { g with tok := .granted a, rev := rev } := by
  have hf : s.Front a n := .inl (by rw [hpc]; rfl)
  have hne : a.client ≠ "" := h.queues.named a (by simp [hpc])
  have hnr : ¬ (s.pc a).Refused := by simp [hpc, Pc.Refused]
  have href : ∀ {c}, s.Refused c → s'.Refused c := hs.refused fun hr => absurd hr hnr
  have hrev : (s.ent a.client).message ≠ .revoke := by
    intro hm
    obtain ⟨hg, -⟩ | hgb := h.entries.revoke _ hm
    · simp [htok, Token.Given] at hg
    · obtain ⟨m, q, hr⟩ := h.queues.givesBack hf hgb
      simp [hpc] at hr
  have hserver : ServerAgrees s' { g with tok := .granted a, rev := rev } := by
    refine ⟨?_, fun ho => absurd ho hne, ?_, ?_, ?_, ?_, ?_⟩ <;> rw [hs.srv]
    · exact how
    · obtain ⟨-, hse, -⟩ | ⟨hse, -⟩ := hq <;> simp [hse]
    · intro hl
      obtain ⟨hw, -⟩ | ⟨hse, -⟩ := hq
      · exact ⟨hre, by rw [hwa, hw], trivial, by rwa [hs.ent, how]⟩
      · simp [hse] at hl
    · exact fun _ => hre
    · obtain ⟨-, hse, -⟩ | ⟨hse, -⟩ := hq <;> simp [hse]
    · intro c hc
      rw [hs.ent]
      obtain ⟨h₁, h₂⟩ := h.server.waiting_ok c (hwa ▸ hc)
      exact ⟨h₁, href h₂⟩
  have hentries : EntriesAgree s' { g with tok := .granted a, rev := rev } := by
    refine hs.entries h.entries (fun hr => absurd hr hnr) (by simp [hpc]) (by simp [htok]) ?_ ?_
    · intro b hb
      cases hb
      rw [hs.pc, if_pos rfl]
      obtain ⟨-, -, rfl, -⟩ | ⟨-, rfl, -⟩ := hq
      · exact ⟨n, .inl rfl⟩
      · exact ⟨n, .inr ⟨_, rfl⟩⟩
    · simp [htok, Token.Given]
  refine ⟨hs.queues h.queues (by simp [hpc, Pc.node?]) (by simp), hserver, hentries, fun b => ?_⟩
  rw [hs.pc]
  split_ifs with hba
  · subst hba
    obtain ⟨-, -, rfl, -⟩ | ⟨hse, rfl, rfl⟩ := hq
    · rfl
    · exact ⟨rfl, ⟨rfl, by rw [hs.srv, hse], trivial, by rwa [hs.ent, hs.srv, how]⟩,
        by rw [hs.srv, how]⟩
  by_cases hc : b.client = a.client
  · exact .of_behind (h.queues.others hf hba hc).1
  by_cases hi : s.pc b = .idle
  · rw [hi]
    trivial
  have hbne := h.queues.named b hi
  -- the others that were refused are in `waitingClients`
  have hwait : s.Asked b.client → b.client ∈ s.srv.waitingClients := by
    intro ha
    refine ha.resolve_right fun hb => ?_
    obtain hst | ⟨-, hr⟩ := hst
    · exact hbne (hb.trans (h.server.none_ok hst).1)
    · exact hc (hb.trans hr)
  refine (h.pc b).frame ?_ ?_ ?_ ?_ (by simp [htok]) (by simp [htok]) (by simp [htok]) ?_ ?_ ?_
  · exact fun _ _ => by rw [hs.ent]; exact id
  · exact fun _ _ => by rw [hs.ent]; exact id
  · exact fun _ => by rw [hs.ent]; exact id
  · intro ha
    rw [Sys.Asked, hs.srv, hwa]
    exact .inl (hwait ha)
  · intro hp
    have hg := hp.given
    simp [htok, Token.Given] at hg
  · intro y ht
    have hy : y = a.client := by
      obtain hst | ⟨-, hr⟩ := hst
      · have hst' := ht.state
        simp [hst] at hst'
      · exact ht.next.symm.trans hr
    exact absurd (h.queues.refused hf (hy ▸ ht.refused)) hnr
  · rintro x hx -
    refine ⟨by simp, fun b' hb' hbx => ?_⟩
    cases hb'
    obtain ⟨hw, -⟩ | ⟨-, rfl, -⟩ := hq
    · obtain hxb | ⟨ha, -⟩ := hx
      · exact absurd (hbx.trans hxb).symm hc
      · have := hwait ha
        simp [hw] at this
    · exact .inl ⟨n, _, by rw [hs.pc, if_pos rfl]⟩

/-- The server takes the lock back. -/
theorem Custody.serveRelease (h : Custody s g) {se : Server.LockEntry} {x y : String}
    (hpc : (s.pc a).release? a.client = some (x, .req))
      (hs : Answers s s' a se ((s.pc a).setRelease (.retryReq y)))
    (hst : s.srv.state = .revoking) (hy : y ∈ s.srv.waitingClients) (how : se.owner = "")
      (hse : se.state = .retrying)
    (hre : se.retryingClient = y) (hwa : se.waitingClients = s.srv.waitingClients.erase y) :
    Custody s' { g with tok := .nobody, told := some a } := by
  have htok : g.tok = .returning a x := (h.pc a).release hpc
  obtain ⟨hnode, hra, hrel, hw⟩ := Pc.setRelease_spec (.retryReq y) hpc
  have href : ∀ {c}, s.Refused c → s'.Refused c := hs.refused hra.mpr
  have hserver : ServerAgrees s' { g with tok := .nobody, told := some a } := by
    refine ⟨?_, fun _ => rfl, ?_, ?_, ?_, ?_, ?_⟩ <;> rw [hs.srv]
    · exact how
    · simp [hse]
    · simp [hse]
    · simp [hse]
    · rw [hre, hwa]
      exact fun _ => ⟨rfl, by simp⟩
    · intro c hc
      rw [hs.ent]
      rw [hwa] at hc
      obtain ⟨h₁, h₂⟩ := h.server.waiting_ok c (Finset.mem_of_mem_erase hc)
      exact ⟨h₁, href h₂⟩
  have hentries : EntriesAgree s' { g with tok := .nobody, told := some a } := by
    refine hs.entries h.entries hra.mpr (fun m q hq => ⟨_, hrel m q hq⟩)
      (by simp [htok]) (by simp) ?_
    simp [htok, Token.Given]
  have hasked : ∀ {c}, c ≠ "" → s.Asked c → s'.Asked c := by
    intro c hne hc
    rw [Sys.Asked, hs.srv, hwa, hre]
    by_cases hcy : c = y
    · exact .inr hcy
    · exact .inl (Finset.mem_erase.mpr ⟨hcy, hc.resolve_right (h.server.revoking_ok hst ▸ hne)⟩)
  refine ⟨hs.queues h.queues hnode hw, hserver, hentries, fun b => ?_⟩
  have hstale : ∀ z, Stale s' { g with tok := .nobody, told := some a } z :=
    fun z => ⟨by simp, by simp⟩
  rw [hs.pc]
  by_cases hi : s.pc b = .idle
  · have hba : b ≠ a := by
      rintro rfl
      exact hnode.2 hi
    rw [if_neg hba, hi]
    trivial
  have hbne := h.queues.named b hi
  split_ifs with hba
  · have htold : Told s' { g with tok := .nobody, told := some a } a y := by
      obtain ⟨h₁, h₂⟩ := h.server.waiting_ok y hy
      exact ⟨rfl, by rw [hs.srv, hse], by rw [hs.srv, hre], by rwa [hs.ent], href h₂⟩
    subst hba
    have hp := h.pc b
    cases hpb : s.pc b with
    | acquiring n q =>
      cases q with
      | revRel t r q =>
        rw [hpb] at hp
        obtain ⟨-, h₂, h₃, h₄, -⟩ := hp
        exact ⟨by simp, hasked hbne h₂, h₃, h₄, htold, hstale _⟩
      | _ => simp [hpb, Pc.release?] at hpc
    | releasing n q => exact ⟨htold, hstale _⟩
    | _ => simp [hpb, Pc.release?] at hpc
  · refine (h.pc b).frame ?_ ?_ ?_ (hasked hbne) (by simp [htok]) (by simp [htok]) ?_ ?_ ?_
      (fun z _ _ => hstale z)
    · exact fun _ _ => by rw [hs.ent]; exact id
    · exact fun _ _ => by rw [hs.ent]; exact id
    · exact fun _ => by rw [hs.ent]; exact id
    · intro z hz
      rw [htok] at hz
      cases hz
      exact absurd rfl hba
    · intro hp
      have hg := hp.given
      simp [htok, Token.Given] at hg
    · intro z ht
      have hst' := ht.state
      simp [hst] at hst'

/-! ## Every step -/

/-- `release` hands the lock to the next thread of its client. -/
theorem Custody.leave (h : Custody s g) {e' : Client.LockEntry} {sig : Option QueuingThread}
    (hpc : s.pc a = .idle)
    (hh : s.held a = some n) (hr : Client.release (s.ent a.client) = .ok (e', some sig)) :
    Custody (((s.setClient a.client e').setHeld a none).signal a.client sig) g := by
  have hf : s.Front a n := .inr hh
  unfold Client.release at hr
  split_ifs at hr with hm
  · cases hr
  cases hfin : Client.releaseFinish { s.ent a.client with state := .free } false with
  | error f => simp [hfin, Except.map] at hr
  | ok x =>
    obtain ⟨ex, sx⟩ := x
    simp only [hfin, Except.map, Except.ok.injEq, Prod.mk.injEq, Option.some.injEq] at hr
    obtain ⟨rfl, rfl⟩ := hr
    obtain ⟨hth, rfl, hme, hst⟩ := releaseFinish_spec hfin
    have hempty : ex.message = .empty := by
      rw [hme]
      cases hms : (s.ent a.client).message with
      | empty => rfl
      | retry => exact absurd hms (h.message_ne_retry hf (by simp [hpc, Pc.Refused]))
      | revoke => exact absurd hms hm
    refine h.hands hf (by simp [hpc]) (by simp [hpc]) rfl (fun x => by simp)
      (fun b => by simp) ?_ hth hempty
      (.inl ⟨h.entries.held a n hh, hm, ?_⟩)
    · intro b
      split_ifs with hba
      · subst hba
        obtain hs | ⟨w, m, -, -, hw, -⟩ := s.signal_pc b.client ex.threads.head? b
        · exact hs.trans hpc
        · simp [hpc] at hw
      · rfl
    · obtain ⟨hth, hst⟩ | ⟨hth, hst⟩ := hst
      · exact .inl ⟨hst, hth⟩
      · exact .inr ⟨hst, hth⟩

/-- `release` when its call at the server has returned. -/
theorem Custody.gaveBack (h : Custody s g) {e' : Client.LockEntry} {sig : Option QueuingThread}
    (hpc : s.pc a = .releasing n .rep) (hr : Client.releaseReply (s.ent a.client) = .ok (e', sig)) :
    Custody (((s.setClient a.client e').signal a.client sig).setPc a .idle) g := by
  have hf : s.Front a n := .inl (by rw [hpc]; rfl)
  have hstale := h.pc a
  rw [hpc] at hstale
  have hk : g.tok ≠ .kept a.client := by
    intro hk
    have hh := h.queues.heldBy hf (hstale.kept hk).2
    have hn := h.queues.held a n hh
    simp [hpc, Pc.node?] at hn
  obtain ⟨hth, rfl, hme, hst⟩ := releaseFinish_spec hr
  refine h.hands hf (by simp [hpc]) (by simp [hpc]) rfl (fun x => by simp) (fun b => ?_)
    (fun b => ?_) hth hme
    (.inr ⟨hk, ?_⟩)
  · change s.held b = _
    split_ifs with hba
    · exact h.queues.not_held (by rw [hba, hpc]; rfl)
    · rfl
  · rw [Sys.setPc_pc]
    rfl
  · obtain ⟨-, hst⟩ | ⟨-, hst⟩ := hst
    · exact hst
    · exact hst

/-- The server's section of an `acquire` call. -/
theorem Custody.serveAcquire (h : Custody s g) {se : Server.LockEntry} {next : Server.Next}
    (hpc : s.pc a = .acquiring n .req) (hr : Server.acquire s.server a.client = .ok (se, next)) :
    ∃ g', Custody ((s.setServer se).setPc a (.acquiring n next.phase)) g' := by
  unfold Server.acquire at hr
  rw [show s.server.getD {} = s.srv from rfl] at hr
  dsimp only at hr
  cases hst : s.srv.state with
  | none =>
    simp only [hst] at hr
    split_ifs at hr with ho
    cases hr
    have htok := h.server.nobody (by rw [← h.server.owner]; simpa using ho)
    obtain ⟨hre, hwa⟩ := h.server.none_ok hst
    exact ⟨_, h.grant hpc .intro htok (.inl hst) rfl hre rfl (.inl ⟨hwa, rfl, rfl, rfl⟩)⟩
  | locked =>
    simp only [hst] at hr
    split_ifs at hr with hw ho hc
    cases hr
    exact ⟨_, h.queueUp hpc .intro rfl rfl rfl (.inr ⟨hst, hc, rfl, rfl, rfl⟩)⟩
  | revoking =>
    simp only [hst] at hr
    split_ifs at hr with hw
    cases hr
    exact ⟨_, h.queueUp hpc .intro rfl rfl rfl (.inl ⟨.inl hst, hst.symm, rfl, rfl⟩)⟩
  | retrying =>
    simp only [hst] at hr
    obtain ⟨htok, -⟩ := h.server.retrying_ok hst
    split_ifs at hr with hw hc hne
    · cases hr
      exact ⟨_, h.grant hpc .intro htok (.inr ⟨hst, hc.symm⟩) rfl rfl rfl (.inr ⟨rfl, rfl, rfl⟩)⟩
    · cases hr
      have hemp : s.srv.waitingClients = ∅ := Finset.not_nonempty_iff_eq_empty.mp hne
      exact ⟨_, h.grant hpc .intro htok (.inr ⟨hst, hc.symm⟩) rfl rfl rfl
        (.inl ⟨hemp, rfl, rfl, rfl⟩)⟩
    · cases hr
      exact ⟨_, h.queueUp hpc .intro rfl rfl rfl (.inl ⟨.inr ⟨hst, hc⟩, hst.symm, rfl, rfl⟩)⟩

/-- The server's section of a `release` call. -/
theorem Custody.serveReleased (h : Custody s g) {se : Server.LockEntry} {x next : String}
    (hpc : (s.pc a).release? a.client = some (x, .req))
    (hr : Server.release s.server x = .ok (se, next)) :
    ∃ g', Custody ((s.setServer se).setPc a ((s.pc a).setRelease (.retryReq next))) g' := by
  unfold Server.release at hr
  cases hs : s.server with
  | none => simp [hs] at hr
  | some e =>
    have hsrv : s.srv = e := by
      rw [Sys.srv, hs]
      rfl
    simp only [hs] at hr
    split_ifs at hr with hst ho hw
    cases hr
    exact ⟨_, h.serveRelease hpc .intro (by simpa [hsrv] using hst)
      (hsrv ▸ Finset.min'_mem _ hw) rfl rfl rfl
      (by rw [hsrv])⟩

/-- **Every step keeps track of the lock.** -/
theorem Custody.step (h : Custody s g) {ev : Event} {q : Sys} (hs : s.Steps ev q) :
    ∃ g', Custody q g' := by
  cases hs with
  | @acquire a addr r q hpc hne hnew hr hq =>
    by_cases hth : (s.ent a.client).threads = []
    · exact ⟨g, h.first hpc hne rfl hth hr hq⟩
    · change Client.acquire (s.ent a.client) _ = _ at hr
      unfold Client.acquire at hr
      rw [if_neg hth] at hr
      cases hr
      cases hq
      exact ⟨g, h.enqueue hpc hne rfl hth hnew⟩
  | @wake a w n e r q hpc he hr hq =>
    rw [← Sys.ent_eq he] at hr
    cases w with
    | released => exact ⟨g, h.wakeReleased hpc hr hq⟩
    | queued => exact ⟨g, h.wakeQueued hpc hr hq⟩
    | retry => exact ⟨g, (h.wakeRetry hpc hr hq).1⟩
  | @release a n e e' hpc hh he hr =>
    rw [← Sys.ent_eq he] at hr
    unfold Client.release at hr
    split_ifs at hr with hm
    · cases hr
      exact ⟨_, h.giveBack hpc hh hm⟩
    · obtain ⟨x, -, hx⟩ := map_eq_ok (congrArg some hr)
      cases hx
  | leave hpc hh he hr => exact ⟨g, h.leave hpc hh (Sys.ent_eq he ▸ hr)⟩
  | serveAcquire hpc hr => exact h.serveAcquire hpc hr
  | serveRelease hpc hr => exact h.serveReleased hpc hr
  | sendRevoke hpc => exact ⟨g, h.sendRevoke hpc⟩
  | @revoke a n tgt ret e hpc he =>
    rw [← Sys.ent_eq he]
    unfold Client.revokeHandler
    by_cases hst : (s.ent tgt).state = .free
    · simp only [hst, if_true]
      exact ⟨_, h.revokeFree hpc hst⟩
    · simp only [hst, if_false]
      exact ⟨g, h.revokeLater hpc hst⟩
  | @retry a x next n e e' hpc he hr =>
    rw [← Sys.ent_eq he] at hr
    unfold Client.retryHandler at hr
    split at hr
    case h_1 => cases hr
    case h_2 m rest hth =>
      cases hr
      exact ⟨g, h.retry hpc (by rw [hth]; rfl)⟩
  | replyAcquire hpc he hr hq => exact (h.reply hpc (Sys.ent_eq he ▸ hr) hq).1
  | @replyRevoke a n tgt ret e hpc he =>
    rw [← Sys.ent_eq he]
    exact ⟨g, h.revokeReturns hpc⟩
  | replyRelease hpc he hr => exact ⟨g, h.gaveBack hpc (Sys.ent_eq he ▸ hr)⟩

end Yfs.Lock
