import Yfs.Lock.Invariant

/-!
# Every section keeps the invariant

One lemma for each section, with the state it leaves written out, and from these that no
step faults and each keeps `Inv` (`Inv.exec_ok`). A section changes one client's entry, or
the server's, and the pc of the activity that runs it; everybody else keeps their part by
`PcOk.frame` and `ServerOk.frame`. `Inv.own` and `Inv.serve` put the parts together for the
sections of a front thread (`OwnSection`) and for the server's `acquire`.
-/

namespace Yfs.Lock

open Client (QueuingThread Wait)

variable {s : Sys} {g : Ghost} {a b : Thread} {n : QueuingThread} {e : Client.LockEntry}

/-- An entry whose threads see no difference: the state is the same, a `REVOKE` stays,
the queue at most grew at its end. -/
structure Grows (e e' : Client.LockEntry) : Prop where
  state : e'.state = e.state
  message : e.message = .revoke → e'.message = .revoke
  head : ∀ m, e.threads.head? = some m → e'.threads.head? = some m
  tail : ∀ m ∈ e.threads.tail, m ∈ e'.threads.tail

theorem Grows.refl (e : Client.LockEntry) : Grows e e :=
  ⟨rfl, id, fun _ => id, fun _ => id⟩

theorem Grows.waitOk {e' : Client.LockEntry} {st : Stage} {w : Wait} {sig : Bool}
    (h : Grows e e') (hw : WaitOk e st n w sig) : WaitOk e' st n w sig := by
  obtain ⟨h₁, -, h₃, h₄⟩ := h
  have hhd : n ∈ e.threads.tail → ∃ m, e.threads.head? = some m := by
    cases e.threads <;> simp
  cases w <;> cases sig <;> grind [WaitOk]

/-- A thread nobody touches keeps its part of the invariant: its client's entry at
most grew, the client's stage is as before, so is the pending `revoke` if it carries
it, and so are the clients whose `release` or `retry` call it carries. A client that
waits may have become the one to retry. -/
theorem PcOk.frame {s' : Sys} {g' : Ghost} {p : Pc} (h : PcOk s g b p)
    (hc : ∀ e, s.client b.client = some e → ∃ e', s'.client b.client = some e' ∧ Grows e e')
    (hst : g'.stage b.client = g.stage b.client ∨
      g.stage b.client = .waiting ∧ ∃ c, g'.stage b.client = .retryWait c)
    (hrev : g.rev = some b →
      g'.rev = some b ∧ (s'.server.getD {}).owner = (s.server.getD {}).owner)
    (hx : ∀ x, g.stage x = .returning b ∨ g.stage x = .returned b ∨ g.stage x = .retryWait b →
      g'.stage x = g.stage x)
    (hm : ∀ x, g.stage x = .returning b ∨ g.stage x = .returned b →
      (∀ e, s.client x = some e → e.message = .empty) →
      ∀ e, s'.client x = some e → e.message = .empty) :
    PcOk s' g' b p := by
  have hrel : ∀ {x q}, RelOk g b x q → RelOk g' b x q := by
    intro x q hq
    cases q <;> grind [RelOk]
  have href : (g.stage b.client).Refused → (g'.stage b.client).Refused := by
    grind [Stage.Refused]
  cases p with
  | idle => trivial
  | waiting w n sig =>
    obtain ⟨hn, e, he, hw⟩ := h
    obtain ⟨e', he', hgr⟩ := hc e he
    refine ⟨hn, e', he', ?_⟩
    have hw' := hgr.waitOk hw
    cases w <;> cases sig <;> grind [WaitOk]
  | acquiring n p =>
    obtain ⟨hn, ⟨e, he, hhd, hs⟩, hp⟩ := h
    obtain ⟨e', he', hgr⟩ := hc e he
    refine ⟨hn, ⟨e', he', hgr.head n hhd, hgr.state.trans hs⟩, ?_⟩
    cases p with
    | revRel tgt ret q =>
      obtain ⟨hr, href', hmsg, hq⟩ := hp
      refine ⟨hr, href href', hm tgt ?_ hmsg, hrel hq⟩
      cases q <;> grind [RelOk]
    | revReq tgt ret => cases ret <;> grind [AcqOk]
    | rep ret => cases ret <;> grind [AcqOk]
    | req => grind [AcqOk]
    | revSend => grind [AcqOk]
  | releasing n p =>
    obtain ⟨hn, ⟨e, he, hhd, hs, hme⟩, hp⟩ := h
    obtain ⟨e', he', hgr⟩ := hc e he
    exact ⟨hn, ⟨e', he', hgr.head n hhd, hgr.state.trans hs, hgr.message hme⟩, hrel hp⟩

/-- The activity carries something somebody waits for: a `revoke` or `retry` call that
was not executed, or a `release` request. -/
def Pc.Carries : Pc → Prop
  | .acquiring _ .revSend | .acquiring _ (.revReq _ _) | .acquiring _ (.revRel _ _ .req)
  | .acquiring _ (.revRel _ _ (.retryReq _)) | .releasing _ .req
  | .releasing _ (.retryReq _) => True
  | _ => False

/-- `pthread_cond_signal` moves no activity that carries something. -/
theorem Pc.Carries.signal {p : Pc} (h : p.Carries) (n : QueuingThread) : p.signal n = p := by
  cases p <;> simp_all [Pc.Carries, Pc.signal]

/-- Neither does the signal of a section. -/
theorem Pc.Carries.signal_pc {c : String} {o : Option QueuingThread} (h : (s.pc b).Carries) :
    (s.signal c o).pc b = s.pc b := by
  cases o with
  | none => rfl
  | some n =>
    rw [Sys.signal_some_pc, h.signal n]
    exact ite_self _

/-- A `release` call that has not returned is carried. -/
theorem Pc.carries_of_release {p : Pc} {c x : String} {q : RelPhase}
    (h : p.release? c = some (x, q)) (hq : q ≠ .rep) : p.Carries := by
  cases p with
  | acquiring n p => cases p <;> cases q <;> simp_all [Pc.release?, Pc.Carries]
  | releasing n p => cases q <;> simp_all [Pc.release?, Pc.Carries]
  | _ => simp [Pc.release?] at h

/-- A signal reaches no idle thread. -/
@[simp] theorem Sys.signal_idle {c : String} {o : Option QueuingThread} (h : s.pc b = .idle) :
    (s.signal c o).pc b = .idle := by
  cases o <;> simp [h, Pc.signal]

/-- A signal reaches no thread of another client. -/
@[simp] theorem Sys.signal_other {c : String} {o : Option QueuingThread} (h : b.client ≠ c) :
    (s.signal c o).pc b = s.pc b := by
  cases o <;> simp [h]

/-- The server's part of the invariant after a step that leaves the server and the
activities that carry something alone, except for a `retry` call that it executes. -/
theorem ServerOk.frame {s' : Sys} {g' : Ghost} {se : Server.LockEntry} (h : ServerOk s g se)
    (hpc : ∀ b, (s.pc b).Carries → s'.pc b = s.pc b ∨
      ∃ x c, (s.pc b).release? b.client = some (x, .retryReq c) ∧ g'.stage c ≠ .retryWait b)
    (hrev : g'.rev = g.rev)
    (how : ∀ c, (g'.stage c = .granted ∨ g'.stage c = .owner) ↔
      (g.stage c = .granted ∨ g.stage c = .owner))
    (hre : ∀ c, (g'.stage c).IsRetrying ↔ (g.stage c).IsRetrying)
    (hwa : ∀ c, g'.stage c = .waiting ↔ g.stage c = .waiting)
    (hrt : ∀ c b, g'.stage c = .returning b ↔ g.stage c = .returning b)
    (hrw : ∀ c b, g'.stage c = .retryWait b → g.stage c = .retryWait b)
    (hm : ∀ c e', g.stage c = .granted ∨ g.stage c = .owner → s'.client c = some e' →
      ∃ e, s.client c = some e ∧ e'.message = e.message)
    (hs : ∀ c, (∃ e, s.client c = some e) → ∃ e, s'.client c = some e) :
    ServerOk s' g' se := by
  constructor
  case owner_iff =>
    intro c
    rw [← h.owner_iff c, Stage.isOwner_iff, Stage.isOwner_iff, how c]
    simp only [hrt]
  case retrying_iff => exact fun c => (hre c).trans (h.retrying_iff c)
  case waiting_iff => exact fun c => (hwa c).trans (h.waiting_iff c)
  case waiting_ne => exact h.waiting_ne
  case none_ok => exact h.none_ok
  case locked_ok => exact h.locked_ok
  case revoking_ok => exact h.revoking_ok
  case retrying_ok => exact h.retrying_ok
  case rev_some =>
    intro a ha
    obtain ⟨h₁, h₂, h₃, n, p, hp, hor⟩ := h.rev_some a (hrev ▸ ha)
    refine ⟨h₁, (how _).mpr h₂, ?_, n, p, ?_, hor⟩
    · intro e' he'
      obtain ⟨e, he, hme⟩ := hm _ e' h₂ he'
      rw [hme, h₃ e he]
    · have hcar : (s.pc a).Carries := by
        rcases hor with rfl | ⟨ret, rfl⟩ <;> simp [hp, Pc.Carries]
      rcases hpc a hcar with heq | ⟨x, c, hr, -⟩
      · rw [heq, hp]
      · rcases hor with rfl | ⟨ret, rfl⟩ <;> simp [hp, Pc.release?] at hr
  case rev_none =>
    intro hr hs'
    rcases h.rev_none (hrev ▸ hr) hs' with ⟨e, he, hme, hor⟩ | ⟨b, hb⟩
    · obtain ⟨e', he'⟩ := hs _ ⟨e, he⟩
      obtain ⟨e₀, he₀, hme'⟩ := hm _ e' hor he'
      rw [he] at he₀
      cases he₀
      exact Or.inl ⟨e', he', hme'.trans hme, (how _).mpr hor⟩
    · exact Or.inr ⟨b, (hrt _ _).mpr hb⟩
  case message_ok =>
    intro c e' he' hme' hor
    obtain ⟨e, he, hme⟩ := hm c e' ((how c).mp hor) he'
    exact h.message_ok c e he (hme ▸ hme') ((how c).mp hor)
  case returning_ok =>
    intro c b hb
    obtain ⟨h₁, h₂, h₃⟩ := h.returning_ok c b ((hrt c b).mp hb)
    refine ⟨h₁, hrev ▸ h₂, ?_⟩
    rcases hpc b (Pc.carries_of_release h₃ (by simp)) with heq | ⟨x, c', hr, -⟩
    · rw [heq]
      exact h₃
    · simp [h₃] at hr
  case retryWait_ok =>
    intro c b hb
    obtain ⟨x, hx⟩ := h.retryWait_ok c b (hrw c b hb)
    refine ⟨x, ?_⟩
    rcases hpc b (Pc.carries_of_release hx (by simp)) with heq | ⟨x', c', hr, hne⟩
    · rw [heq]
      exact hx
    · rw [hx] at hr
      cases hr
      exact absurd hb hne

/-- The `retry` calls that were not executed, after a step of an activity that carries
none of them and that makes no client one to retry. -/
theorem ServerOk.retryWait_frame {s' : Sys} {g' : Ghost} {se : Server.LockEntry}
    (h : ServerOk s g se) (ha : ∀ x c, (s.pc a).release? a.client ≠ some (x, .retryReq c))
    (hpc : ∀ b, b ≠ a → s'.pc b = s.pc b)
    (hst : ∀ c b, g'.stage c = .retryWait b → g.stage c = .retryWait b) (c : String) (b : Thread)
    (hb : g'.stage c = .retryWait b) :
    ∃ x, (s'.pc b).release? b.client = some (x, .retryReq c) := by
  obtain ⟨x, hx⟩ := h.retryWait_ok c b (hst c b hb)
  have hba : b ≠ a := by
    rintro rfl
    exact ha x c hx
  exact ⟨x, by rw [hpc b hba]; exact hx⟩

/-- A section of the front thread `a`, or of a thread that enters, on its own client's entry,
which becomes `d`: the queue at most grew at its end, nobody is signalled, and whatever the
other threads rely on is as before. -/
structure OwnSection (s : Sys) (g : Ghost) (a : Thread) (d : Client.LockEntry) (s' : Sys)
    (g' : Ghost) : Prop where
  front : ∀ e, s.client a.client = some e → ∀ m, e.threads.head? = some m → m.tid = a.tid
  pc : ∀ b, b ≠ a → s'.pc b = s.pc b
  held : ∀ b, b ≠ a → s'.held b = s.held b
  client : ∀ c, c ≠ a.client → s'.client c = s.client c
  entry : s'.client a.client = some d
  head : ∀ e, s.client a.client = some e →
    ∀ m, e.threads.head? = some m → d.threads.head? = some m
  tail : ∀ e, s.client a.client = some e → ∀ m ∈ e.threads.tail, m ∈ d.threads.tail
  server : s'.server = s.server
  rev : g'.rev = g.rev
  stage : ∀ c, c ≠ a.client → g'.stage c = g.stage c
  /-- the calls of other activities that this client is in -/
  calls : (g'.stage a.client = g.stage a.client ∧
      ∃ e, s.client a.client = some e ∧ d.message = e.message) ∨
    ∀ b, b ≠ a → g.stage a.client ≠ .returning b ∧ g.stage a.client ≠ .returned b ∧
      g.stage a.client ≠ .retryWait b

namespace Inv

/-- Only the front of a client's queue can be anything but idle or queued. -/
theorem behind_front (h : Inv s g)
    (hfr : ∀ e, s.client a.client = some e → ∀ m, e.threads.head? = some m → m.tid = a.tid)
    (hb : b.client = a.client) (hne : b ≠ a) :
    s.pc b = .idle ∨
      ∃ m e, s.pc b = .waiting .queued m false ∧ m.tid = b.tid ∧
        s.client a.client = some e ∧ m ∈ e.threads.tail ∧ e.threads.head? ≠ some m := by
  have hpc := h.pc b
  have hext : ∀ e, s.client b.client = some e →
      ∀ m, e.threads.head? = some m → m.tid ≠ b.tid := by
    intro e he m hm hmt
    exact hne (Thread.ext hb (hmt.symm.trans (hfr e (hb ▸ he) m hm)))
  cases hp : s.pc b with
  | idle => exact Or.inl rfl
  | waiting w m sig =>
    rw [hp] at hpc
    obtain ⟨hmt, e, he, hw⟩ := hpc
    cases w <;> cases sig <;> simp only [WaitOk] at hw
    case queued.false => exact Or.inr ⟨m, e, rfl, hmt, hb ▸ he, hw⟩
    all_goals exact absurd hmt (hext e he m hw.1)
  | acquiring m p =>
    rw [hp] at hpc
    obtain ⟨hmt, ⟨e, he, hm, -⟩, -⟩ := hpc
    exact absurd hmt (hext e he m hm)
  | releasing m p =>
    rw [hp] at hpc
    obtain ⟨hmt, ⟨e, he, hm, -⟩, -⟩ := hpc
    exact absurd hmt (hext e he m hm)

/-- The threads' part of the invariant after a section of the front thread. -/
theorem pc_own (h : Inv s g) {s' : Sys} {g' : Ghost} {d : Client.LockEntry}
    (ho : OwnSection s g a d s' g') (ha : PcOk s' g' a (s'.pc a)) :
    ∀ b, PcOk s' g' b (s'.pc b) := by
  intro b
  by_cases hb : b = a
  · exact hb ▸ ha
  rw [ho.pc b hb]
  by_cases hbc : b.client = a.client
  · rcases h.behind_front ho.front hbc hb with hp | ⟨m, e, hp, hmt, he, hm, hne⟩
    · rw [hp]
      trivial
    · rw [hp]
      refine ⟨hmt, d, hbc ▸ ho.entry, ho.tail e he m hm, ?_⟩
      cases hth : e.threads with
      | nil => simp [hth] at hm
      | cons f rest =>
        rw [ho.head e he f (by simp [hth])]
        simpa [hth] using hne
  · have hclient := ho.client
    have hstage := ho.stage
    have hcalls := ho.calls
    have hentry := ho.entry
    refine (h.pc b).frame (fun e he => ⟨e, (hclient _ hbc).trans he, .refl e⟩)
      (.inl (hstage _ hbc)) (fun hr => ⟨ho.rev ▸ hr, by rw [ho.server]⟩) ?_ ?_
    · grind
    · grind

/-- The entries' part of the invariant after a step that changed client `c` only. -/
theorem entry_own (h : Inv s g) {t : Sys} {g' : Ghost} {c : String}
    (hcl : ∀ x, x ≠ c → t.client x = s.client x)
    (hst : ∀ x, x ≠ c → g'.stage x = g.stage x)
    (hc : EntryOk (t.client c) (g'.stage c)) : ∀ x, EntryOk (t.client x) (g'.stage x) := by
  intro x
  by_cases hx : x = c
  · exact hx ▸ hc
  · rw [hcl x hx, hst x hx]
    exact h.entry x

/-- The invariant after a section of the front thread: what is left to show is about the
thread, its client and the server. -/
theorem own (h : Inv s g) {s' : Sys} {g' : Ghost} {d : Client.LockEntry}
    (frame : OwnSection s g a d s' g') (named : s'.pc a ≠ .idle → a.client ≠ "")
    (entry : EntryOk (some d) (g'.stage a.client)) (pc : PcOk s' g' a (s'.pc a))
    (held : ∀ n, s'.held a = some n →
      n.tid = a.tid ∧ d.threads.head? = some n ∧ d.state = .locked)
    (server : ServerOk s' g' (s.server.getD {})) : Inv s' g' where
  named := by
    intro b hb
    by_cases hba : b = a
    · exact hba ▸ named (hba ▸ hb)
    · exact h.named b (frame.pc b hba ▸ hb)
  entry := h.entry_own frame.client frame.stage (frame.entry ▸ entry)
  pc := h.pc_own frame pc
  held := by
    intro b m hm
    by_cases hba : b = a
    · subst hba
      exact ⟨(held m hm).1, d, frame.entry, (held m hm).2⟩
    · obtain ⟨hmt, e, he, hhd, hs⟩ := h.held b m (frame.held b hba ▸ hm)
      -- a second holder at this client would be its front thread as well
      have hbc : b.client ≠ a.client := fun hbc =>
        hba (Thread.ext hbc (hmt.symm.trans (frame.front e (hbc ▸ he) m hhd)))
      exact ⟨hmt, e, (frame.client _ hbc).trans he, hhd, hs⟩
  server := frame.server ▸ server

/-- A client whose entry is in state `none`, or that has no entry, is out. -/
theorem stage_of_none (h : Inv s g) {c : String}
    (hs : ∀ e, s.client c = some e → e.state = .none) : g.stage c = .out := by
  have := h.entry c
  cases hst : g.stage c <;> simp only [hst, EntryOk] at this <;> grind

theorem stage_of_locked (h : Inv s g) {c : String} (he : s.client c = some e)
    (hs : e.state = .locked ∨ e.state = .free) : g.stage c = .owner := by
  have := h.entry c
  cases hst : g.stage c <;> simp only [hst, EntryOk] at this <;> grind

/-- The front thread of a client without the lock asks the server for it. -/
theorem ask (h : Inv s g) {e' : Client.LockEntry} (ha : a.client ≠ "") (hnt : n.tid = a.tid)
    (hpc : ¬ (s.pc a).Carries)
    (he : ∀ e, s.client a.client = some e → e.state = .none ∧
      (∀ m, e.threads.head? = some m → m = n) ∧ ∀ m ∈ e.threads.tail, m ∈ e'.threads.tail)
    (hst' : e'.state = .acquiring) (hm' : e'.message = .empty)
    (hhd : e'.threads.head? = some n) :
    Inv ((s.setClient a.client e').setPc a (.acquiring n .req))
      (g.setStage a.client .asking) := by
  have hst := h.stage_of_none fun e h => (he e h).1
  have hne : e'.threads ≠ [] := fun h => by simp [h] at hhd
  apply h.own (a := a) (d := e')
  case frame =>
    constructor
    all_goals grind
  case entry => simp [EntryOk, hst', hm', hne]
  case pc => simp [PcOk, AcqOk, hnt, hst', hhd]
  case held =>
    have := h.held a
    grind
  case server =>
    apply h.server.frame
    all_goals grind [Stage.IsRetrying]
  all_goals grind

/-- The front thread of the owner gets the lock without the server. -/
theorem grab (h : Inv s g) {d : Client.LockEntry} (hnt : n.tid = a.tid)
    (hpc : ¬ (s.pc a).Carries) (he : s.client a.client = some e)
    (hs : e.state = .free ∨ e.state = .locked)
    (hfr : ∀ m, e.threads.head? = some m → m = n)
    (htl : ∀ m ∈ e.threads.tail, m ∈ d.threads.tail)
    (hst' : d.state = .locked) (hm' : d.message = e.message)
    (hhd : d.threads.head? = some n) :
    Inv (((s.setClient a.client d).setPc a .idle).setHeld a (some n)) g := by
  have hst := h.stage_of_locked he hs.symm
  have hne : d.threads ≠ [] := fun h => by simp [h] at hhd
  apply h.own (a := a) (d := d)
  case frame =>
    constructor
    all_goals grind
  case entry =>
    have := h.entry a.client
    simp only [hst, he, EntryOk] at this
    simp [EntryOk, hst, hst', hm', hne]
    grind
  case pc => simp [PcOk]
  case server =>
    apply h.server.frame
    all_goals grind
  all_goals grind

/-- A thread enters behind others, or waits for the lock to be back. -/
theorem enqueue (h : Inv s g) {w : Wait} (ha : a.client ≠ "") (hnt : n.tid = a.tid)
    (hpc : s.pc a = .idle) (he : s.client a.client = some e) (hnew : n ∉ e.threads)
    (hw : w = .queued ∧ e.threads ≠ [] ∨
      w = .released ∧ e.threads = [] ∧ e.state = .releasing) :
    Inv ((s.setClient a.client { e with threads := e.threads ++ [n] }).setPc a
      (.waiting w n false)) g := by
  have hgr : Grows e { e with threads := e.threads ++ [n] } := by
    refine ⟨rfl, id, ?_, ?_⟩
    · cases e.threads <;> simp
    · cases e.threads <;> simp +contextual
  have hown : WaitOk { e with threads := e.threads ++ [n] } (g.stage a.client) n w false := by
    cases hth : e.threads with
    | nil => simp_all [WaitOk]
    | cons f rest =>
      have : f ≠ n := fun h => hnew (by simp [hth, h])
      simp_all [WaitOk]
  refine ⟨?_, h.entry_own (c := a.client) ?_ ?_ ?_, fun b => ?_, ?_, ?_⟩
  · have := h.named
    grind
  · grind
  · grind
  · have := h.entry a.client
    cases hst : g.stage a.client <;> simp_all [EntryOk]
    grind
  · by_cases hb : b = a
    · subst hb
      simpa [PcOk, hnt] using hown
    · simp only [Sys.setPc_pc, hb, if_false]
      refine (h.pc b).frame ?_ ?_ ?_ ?_ ?_
      · intro e₀ he₀
        by_cases hbc : b.client = a.client
        · rw [hbc, he] at he₀
          cases he₀
          exact ⟨_, by simp [hbc], hgr⟩
        · exact ⟨e₀, by simpa [hbc] using he₀, .refl _⟩
      all_goals grind
  · have := h.held
    have := hgr.head
    grind
  · apply h.server.frame
    all_goals grind [Pc.Carries]

/-- After a `RETRY` without a `retry` the front thread goes to sleep. -/
theorem sleep (h : Inv s g) (hpc : s.pc a = .acquiring n (.rep .retry))
    (he : s.client a.client = some e) (hm : e.message = .empty) :
    Inv ((s.setClient a.client e).setPc a (.waiting .retry n false)) g := by
  have hp := h.pc a
  rw [hpc] at hp
  obtain ⟨hnt, ⟨e₀, he₀, hhd, hs⟩, href⟩ := hp
  rw [he] at he₀
  cases he₀
  have hen := h.entry a.client
  have hst : g.stage a.client = .waiting ∨ ∃ b, g.stage a.client = .retryWait b := by
    simp only [AcqOk] at href
    cases hst : g.stage a.client <;> simp_all [Stage.Refused, EntryOk]
  apply h.own (a := a) (d := e)
  case frame =>
    constructor
    all_goals grind
  case entry => simpa [he] using hen
  case pc => simpa [PcOk, WaitOk, hnt, hs, hhd] using hst
  case held =>
    have := h.held a
    grind
  case server =>
    apply h.server.frame
    all_goals grind [Pc.Carries]
  case named => exact fun _ => h.named a (by simp [hpc])

/-- The front thread of a client that was told to retry asks again. -/
theorem askAgain (h : Inv s g) (hnt : n.tid = a.tid) (hpc : ¬ (s.pc a).Carries)
    (ha : a.client ≠ "") (he : s.client a.client = some e) (hhd : e.threads.head? = some n)
    (hs : e.state = .acquiring) (hst : g.stage a.client = .notified) :
    Inv ((s.setClient a.client { e with message := .empty }).setPc a (.acquiring n .req))
      (g.setStage a.client .reasking) := by
  have hne : e.threads ≠ [] := fun h => by simp [h] at hhd
  apply h.own (a := a) (d := { e with message := .empty })
  case frame =>
    constructor
    all_goals grind
  case entry => simp [EntryOk, hs, hne]
  case pc => simp [PcOk, AcqOk, hnt, hs, hhd]
  case held =>
    have := h.held a
    grind
  case server =>
    apply h.server.frame
    all_goals grind [Stage.IsRetrying]
  all_goals grind

/-- The front thread gets the lock from the server. -/
theorem got (h : Inv s g) (hpc : s.pc a = .acquiring n (.rep .ok))
    (he : s.client a.client = some e) :
    Inv (((s.setClient a.client { e with state := .locked }).setPc a .idle).setHeld a (some n))
      (g.setStage a.client .owner) := by
  have hp := h.pc a
  rw [hpc] at hp
  obtain ⟨hnt, ⟨e₀, he₀, hhd, hs⟩, hst⟩ := hp
  rw [he] at he₀
  cases he₀
  simp only [AcqOk] at hst
  have hne : e.threads ≠ [] := fun h => by simp [h] at hhd
  have hen := h.entry a.client
  simp only [hst, he, EntryOk] at hen
  apply h.own (a := a) (d := { e with state := .locked })
  case frame =>
    constructor
    all_goals grind
  case entry =>
    simp only [Ghost.setStage_stage, if_true, EntryOk]
    grind
  case pc => simp [PcOk]
  case server =>
    apply h.server.frame
    all_goals grind [Pc.Carries, Stage.IsRetrying]
  all_goals grind

/-- The owner's stages, from the server's point of view. -/
theorem owner_eq (h : Inv s g) {c : String} (hc : (g.stage c).IsOwner) :
    (s.server.getD {}).owner = c ∧ c ≠ "" :=
  have := (h.server.owner_iff c).mp hc
  ⟨this.1.symm, this.2⟩

/-- The holder of a revoked lock sends it back. -/
theorem giveBack (h : Inv s g) (hpc : s.pc a = .idle) (hh : s.held a = some n)
    (he : s.client a.client = some e) (hm : e.message = .revoke) :
    Inv (((s.setClient a.client { e with state := .releasing }).setHeld a none).setPc a
      (.releasing n .req)) (g.setStage a.client (.returning a)) := by
  obtain ⟨hnt, e₀, he₀, hhd, hs⟩ := h.held a n hh
  rw [he] at he₀
  cases he₀
  have hst := h.stage_of_locked he (.inl hs)
  obtain ⟨how, hne⟩ := h.owner_eq (c := a.client) (by simp [hst, Stage.IsOwner])
  have hrk := h.server.message_ok _ e he hm (.inr hst)
  have hrev : g.rev = none := by
    cases hr : g.rev with
    | none => rfl
    | some b =>
      have := (h.server.rev_some b hr).2.2.1 e (how ▸ he)
      simp [hm] at this
  apply h.own (a := a) (d := { e with state := .releasing })
  case frame =>
    constructor
    all_goals grind
  case entry => simp [EntryOk]
  case pc => simp [PcOk, RelOk, hnt, hhd, hm]
  case server =>
    have hsv := h.server
    obtain ⟨h₁, h₂, h₃, h₀, h₄, h₅, h₆, h₇, h₈, h₉, h₁₀, h₁₁, h₁₂⟩ := hsv
    constructor
    case owner_iff =>
      exact fun c => (Ghost.setStage_same (by simp [hst, Stage.IsOwner]) c).trans (h₁ c)
    case retrying_iff =>
      exact fun c => (Ghost.setStage_same (by simp [hst, Stage.IsRetrying]) c).trans (h₂ c)
    case returning_ok => grind [Stage.IsOwner, Pc.release?]
    case retryWait_ok =>
      apply h.server.retryWait_frame (a := a)
      all_goals grind [Pc.release?]
    all_goals grind
  all_goals grind

/-- The common end of `release`: the front leaves and the next thread, if there is
one, is signalled. -/
theorem pc_handOver (h : Inv s g) {t : Sys} {k : Ghost} {d : Client.LockEntry}
    (he : s.client a.client = some e) (hth : e.threads = n :: d.threads)
    (hnt : n.tid = a.tid)
    (hpc : ∀ b, b ≠ a → t.pc b = ((s.signal a.client d.threads.head?).pc b))
    (hcl : ∀ c, c ≠ a.client → t.client c = s.client c)
    (he' : t.client a.client = some d)
    (hs' : d.threads ≠ [] → d.state = .locked ∨ d.state = .none)
    (hsv : t.server = s.server) (hrev : k.rev = g.rev)
    (hst : ∀ c, c ≠ a.client → k.stage c = g.stage c)
    (hown : ∀ b, b ≠ a → g.stage a.client ≠ .returning b ∧ g.stage a.client ≠ .returned b ∧
      g.stage a.client ≠ .retryWait b)
    (ha : t.pc a = .idle) : ∀ b, PcOk t k b (t.pc b) := by
  intro b
  by_cases hb : b = a
  · rw [hb, ha]
    trivial
  rw [hpc b hb]
  by_cases hbc : b.client = a.client
  · have hfr : ∀ e, s.client a.client = some e →
        ∀ m, e.threads.head? = some m → m.tid = a.tid := by
      grind
    rcases h.behind_front hfr hbc hb with hp | ⟨m, e₀, hp, hmt, he₀, hm, hne⟩
    · simp [hp, PcOk]
    · -- `m` moves up: it is the new front and signalled, or still behind it
      rw [he] at he₀
      cases he₀
      rw [hth, List.tail_cons] at hm
      cases hth' : d.threads with
      | nil => simp [hth'] at hm
      | cons f rest =>
        rw [hth'] at hm
        by_cases hmf : m = f
        · simpa [hp, hbc, Pc.signal, PcOk, WaitOk, he', hth', hmf] using
            ⟨hmf ▸ hmt, hs' (by simp [hth'])⟩
        · have hfm : f ≠ m := fun h => hmf h.symm
          simpa [hp, hbc, Pc.signal, PcOk, WaitOk, he', hth', hmf, hmt, hfm] using hm
  · rw [Sys.signal_other hbc]
    refine (h.pc b).frame (fun e he => ⟨e, (hcl _ hbc).trans he, .refl e⟩)
      (.inl (hst _ hbc)) (fun hr => ⟨hrev ▸ hr, by rw [hsv]⟩) ?_ ?_
    · grind
    · grind

/-- The holder of a lock nobody revoked leaves it to the next thread, or free. -/
theorem leave (h : Inv s g) {d : Client.LockEntry} (hpc : s.pc a = .idle)
    (hh : s.held a = some n) (he : s.client a.client = some e) (hm : e.message ≠ .revoke)
    (hth : e.threads = n :: d.threads) (hm' : d.message = e.message)
    (hs' : d.state = if d.threads = [] then .free else .locked) :
    Inv (((s.setClient a.client d).setHeld a none).signal a.client d.threads.head?) g := by
  obtain ⟨hnt, e₀, he₀, hhd, hs⟩ := h.held a n hh
  rw [he] at he₀
  cases he₀
  have hst := h.stage_of_locked he (.inl hs)
  have hen := h.entry a.client
  simp only [hst, he, EntryOk] at hen
  have hme : e.message = .empty := by
    cases hme : e.message <;> grind
  refine ⟨?_, h.entry_own (c := a.client) ?_ ?_ ?_, ?_, ?_, ?_⟩
  · intro b hb
    exact h.named b fun hp => hb (by simp [hp])
  · grind
  · grind
  · simp only [hst, Sys.signal_client, Sys.setHeld_client, Sys.setClient_client, if_true, EntryOk]
    grind
  · refine h.pc_handOver (d := d) (t := ((s.setClient a.client d).setHeld a none).signal
      a.client d.threads.head?) (k := g) he hth hnt ?_ ?_ ?_ ?_ rfl rfl ?_ ?_ ?_
    · intro b _
      cases d.threads.head? <;> simp
    · grind
    · grind
    · grind
    · grind
    · grind
    · simp [hpc]
  · have := h.held
    grind [Thread.ext]
  · apply h.server.frame
    case hpc =>
      exact fun b hb =>
        .inl (Pc.Carries.signal_pc (s := (s.setClient a.client d).setHeld a none) hb)
    all_goals grind

/-- The revoked lock is back at the server; the front thread leaves. -/
theorem gaveBack (h : Inv s g) {d : Client.LockEntry} (hpc : s.pc a = .releasing n .rep)
    (he : s.client a.client = some e) (hth : e.threads = n :: d.threads)
    (hm' : d.message = .empty) (hs' : d.state = .none) :
    Inv (((s.setClient a.client d).signal a.client d.threads.head?).setPc a .idle)
      (g.setStage a.client .out) := by
  have hp := h.pc a
  rw [hpc] at hp
  obtain ⟨hnt, ⟨e₀, he₀, hhd, hs, hm⟩, hst⟩ := hp
  rw [he] at he₀
  cases he₀
  simp only [RelOk] at hst
  refine ⟨?_, h.entry_own (c := a.client) ?_ ?_ ?_, ?_, ?_, ?_⟩
  · intro b hb
    exact h.named b fun hp => hb (by simp [hp])
  · grind
  · grind
  · simp [EntryOk, hs', hm']
  · refine h.pc_handOver (d := d) (t := ((s.setClient a.client d).signal a.client
      d.threads.head?).setPc a .idle) (k := g.setStage a.client .out) he hth hnt ?_ ?_ ?_ ?_
      rfl rfl ?_ ?_ ?_
    · intro b hb
      cases d.threads.head? <;> simp [hb]
    all_goals grind
  · have := h.held
    grind [Thread.ext]
  · apply h.server.frame
    case hpc =>
      intro b hb
      have hba : b ≠ a := fun hba => by simp [hba, hpc, Pc.Carries] at hb
      rw [Sys.setPc_pc, if_neg hba]
      exact .inl (Pc.Carries.signal_pc (s := s.setClient a.client d) hb)
    all_goals grind [Stage.IsRetrying]

/-! ## The server's sections -/

/-- The threads' part of the invariant after the server executed `a`'s request and
moved `a`'s client from a stage before the request to `st`. -/
theorem pc_serve (h : Inv s g) {g' : Ghost} {se : Server.LockEntry} {p : AcqPhase}
    (hpc : s.pc a = .acquiring n .req)
    (hst : ∀ c, c ≠ a.client → g'.stage c = g.stage c)
    (hrev : ∀ b, g.rev = some b → g'.rev = some b ∧ se.owner = (s.server.getD {}).owner)
    (ha : AcqOk ((s.setServer se).setPc a (.acquiring n p)) g' a p) :
    ∀ b, PcOk ((s.setServer se).setPc a (.acquiring n p)) g' b
      (((s.setServer se).setPc a (.acquiring n p)).pc b) := by
  have hp := h.pc a
  rw [hpc] at hp
  obtain ⟨hnt, ⟨e, he, hhd, hs⟩, hst₀⟩ := hp
  simp only [AcqOk] at hst₀
  intro b
  by_cases hb : b = a
  · subst hb
    simpa [PcOk, hnt, he, hhd, hs] using ha
  rw [Sys.setPc_pc, if_neg hb, Sys.setServer_pc]
  by_cases hbc : b.client = a.client
  · have hfr : ∀ e, s.client a.client = some e →
        ∀ m, e.threads.head? = some m → m.tid = a.tid := by
      grind
    rcases h.behind_front hfr hbc hb with hp | ⟨m, e₀, hp, hmt, he₀, hm, hne⟩
    · rw [hp]
      trivial
    · rw [hp]
      exact ⟨hmt, e₀, hbc ▸ he₀, hm, hne⟩
  · refine (h.pc b).frame (fun e he => ⟨e, he, .refl e⟩) (.inl (hst _ hbc)) (hrev b) ?_ ?_
    · grind
    · grind

/-- The invariant after the server executed `a`'s request: what is left to show is
about `a`, its client and the server. -/
theorem serve (h : Inv s g) {g' : Ghost} {se : Server.LockEntry} {p : AcqPhase}
    (hpc : s.pc a = .acquiring n .req)
    (hst : ∀ c, c ≠ a.client → g'.stage c = g.stage c)
    (hrev : ∀ b, g.rev = some b → g'.rev = some b ∧ se.owner = (s.server.getD {}).owner)
    (entry : EntryOk (s.client a.client) (g'.stage a.client))
    (pc : AcqOk ((s.setServer se).setPc a (.acquiring n p)) g' a p)
    (server : ServerOk ((s.setServer se).setPc a (.acquiring n p)) g' se) :
    Inv ((s.setServer se).setPc a (.acquiring n p)) g' where
  named := by
    intro b hb
    by_cases hba : b = a
    · exact h.named b (by simp [hba, hpc])
    · exact h.named b (by simpa [hba] using hb)
  entry := h.entry_own (t := (s.setServer se).setPc a (.acquiring n p)) (c := a.client)
    (fun _ _ => rfl) hst entry
  pc := h.pc_serve hpc hst hrev pc
  held := h.held
  server := server

/-- No `revoke` call is pending when the server is not revoking. -/
theorem rev_eq_none (h : Inv s g) (hs : (s.server.getD {}).state ≠ .revoking) : g.rev = none := by
  cases hr : g.rev with
  | none => rfl
  | some b => exact absurd (h.server.rev_some b hr).1 hs

/-- What a client with a request on its way looks like. -/
theorem entry_asking (h : Inv s g) (hpc : s.pc a = .acquiring n .req) :
    a.client ≠ "" ∧ (g.stage a.client = .asking ∨ g.stage a.client = .reasking) ∧
      ∃ e, s.client a.client = some e ∧ e.state = .acquiring ∧ e.message = .empty ∧
        e.threads ≠ [] := by
  have hp := h.pc a
  rw [hpc] at hp
  obtain ⟨-, -, hst⟩ := hp
  simp only [AcqOk] at hst
  have hen := h.entry a.client
  refine ⟨h.named a (by simp [hpc]), hst, ?_⟩
  rcases hst with hst | hst <;> simpa [hst, EntryOk] using hen

/-- The server grants a lock nobody owns: to the first client, or to the one that
was told to retry when no other waits. -/
theorem grant (h : Inv s g) {se : Server.LockEntry} (hpc : s.pc a = .acquiring n .req)
    (hs : se.state = .locked) (ho : se.owner = a.client) (hr : se.retryingClient = "")
    (hw : se.waitingClients = ∅) (hw₀ : (s.server.getD {}).waitingClients = ∅)
    (hs₀ : (s.server.getD {}).state = .none ∧ g.stage a.client = .asking ∨
      (s.server.getD {}).state = .retrying ∧ g.stage a.client = .reasking) :
    Inv ((s.setServer se).setPc a (.acquiring n (.rep .ok))) (g.setStage a.client .granted) := by
  obtain ⟨hne, hst, e, he, hes, hem, heth⟩ := h.entry_asking hpc
  have hsv := h.server
  have hrev : g.rev = none := h.rev_eq_none (by grind)
  apply h.serve hpc
  case entry => simp [EntryOk, he, hes, hem, heth]
  case pc => simp [AcqOk]
  case server =>
    obtain ⟨h₁, h₂, h₃, h₀, h₄, h₅, h₆, h₇, h₈, h₉, h₁₀, h₁₁, h₁₂⟩ := hsv
    have hnobody : (s.server.getD {}).owner = "" := by
      rcases hs₀ with ⟨hs₀, -⟩ | ⟨hs₀, -⟩
      · exact (h₄ hs₀).1
      · exact (h₇ hs₀).1
    have hretry : (s.server.getD {}).retryingClient = "" ∨
        (s.server.getD {}).retryingClient = a.client := by
      rcases hs₀ with ⟨hs₀, -⟩ | ⟨-, hst⟩
      · exact .inl (h₄ hs₀).2.1
      · exact .inr ((h₂ a.client).mp (by simp [hst, Stage.IsRetrying])).1.symm
    constructor
    case owner_iff =>
      refine Ghost.setStage_iff h₁ (by simp [Stage.IsOwner, ho, hne]) fun c hc => ?_
      simp [ho, hc, hnobody]
    case retrying_iff =>
      refine Ghost.setStage_iff h₂ (by simp [Stage.IsRetrying, hr]) fun c hc => ?_
      rcases hretry with hretry | hretry <;> simp [hr, hc, hretry]
    all_goals grind [Stage.IsOwner, Stage.IsRetrying]
  all_goals grind

/-- The server puts a client into `waitingClients`. -/
theorem queueUp (h : Inv s g) {se : Server.LockEntry} (hpc : s.pc a = .acquiring n .req)
    (hse : se = { s.server.getD {} with
      waitingClients := insert a.client (s.server.getD {}).waitingClients })
    (hs₀ : se.state = .revoking ∨ se.state = .retrying) (hst : g.stage a.client = .asking) :
    Inv ((s.setServer se).setPc a (.acquiring n (.rep .retry)))
      (g.setStage a.client .waiting) := by
  obtain ⟨hne, -, e, he, hes, hem, heth⟩ := h.entry_asking hpc
  apply h.serve hpc
  case entry => simp [EntryOk, he, hes, hem, heth]
  case pc => simp [AcqOk, Stage.Refused]
  case server =>
    obtain ⟨h₁, h₂, h₃, h₀, h₄, h₅, h₆, h₇, h₈, h₉, h₁₀, h₁₁, h₁₂⟩ := h.server
    constructor
    case owner_iff =>
      rw [hse]
      exact fun c => (Ghost.setStage_same (by simp [hst, Stage.IsOwner]) c).trans (h₁ c)
    case retrying_iff =>
      rw [hse]
      exact fun c => (Ghost.setStage_same (by simp [hst, Stage.IsRetrying]) c).trans (h₂ c)
    case waiting_iff => grind
    case revoking_ok => grind [Finset.insert_nonempty]
    case rev_some => grind
    case returning_ok => grind [Pc.release?]
    case retryWait_ok =>
      apply h.server.retryWait_frame (a := a)
      all_goals grind [Pc.release?]
    all_goals grind
  all_goals grind

/-- The server starts to revoke a lock for a client it puts into `waitingClients`. -/
theorem startRevoke (h : Inv s g) {se : Server.LockEntry} (hpc : s.pc a = .acquiring n .req)
    (hse : se = { s.server.getD {} with
      waitingClients := insert a.client (s.server.getD {}).waitingClients, state := .revoking })
    (hs₀ : (s.server.getD {}).state = .locked) (hst : g.stage a.client = .asking) :
    Inv ((s.setServer se).setPc a (.acquiring n .revSend))
      ((g.setStage a.client .waiting).setRev (some a)) := by
  obtain ⟨hne, -, e, he, hes, hem, heth⟩ := h.entry_asking hpc
  have hsv := h.server
  have hrev : g.rev = none := h.rev_eq_none (by grind)
  apply h.serve hpc
  case entry => simp [EntryOk, he, hes, hem, heth]
  case pc => simp [AcqOk, Stage.Refused]
  case server =>
    obtain ⟨h₁, h₂, h₃, h₀, h₄, h₅, h₆, h₇, h₈, h₉, h₁₀, h₁₁, h₁₂⟩ := hsv
    have how := (h₅ hs₀).1
    have hoo := (h₁ (s.server.getD {}).owner).mpr ⟨rfl, how⟩
    have hgo : g.stage (s.server.getD {}).owner = .granted ∨
        g.stage (s.server.getD {}).owner = .owner := by
      refine (Stage.isOwner_iff.mp hoo).resolve_right ?_
      rintro ⟨b, hb⟩
      have hrk := (h₁₁ _ b hb).1
      simp [hs₀] at hrk
    have hmo : ∀ e, s.client (s.server.getD {}).owner = some e → e.message = .empty := by
      intro e he
      have hen := h.entry (s.server.getD {}).owner
      rcases hgo with hg | hg <;> rw [hg, he] at hen <;> cases hme : e.message <;>
        grind [EntryOk]
    constructor
    case owner_iff =>
      rw [hse]
      exact fun c => (Ghost.setStage_same (by simp [hst, Stage.IsOwner]) c).trans (h₁ c)
    case retrying_iff =>
      rw [hse]
      exact fun c => (Ghost.setStage_same (by simp [hst, Stage.IsRetrying]) c).trans (h₂ c)
    case waiting_iff => grind
    case revoking_ok => grind [Finset.insert_nonempty]
    case rev_some =>
      intro b hb
      obtain rfl : a = b := by simpa using hb
      have hoa : (s.server.getD {}).owner ≠ a.client := by grind
      exact ⟨by simp [hse], by simpa [hse, hoa] using hgo, by simpa [hse] using hmo,
        n, .revSend, by simp, .inl rfl⟩
    case returning_ok => grind [Pc.release?]
    case retryWait_ok =>
      apply h.server.retryWait_frame (a := a)
      all_goals grind [Pc.release?]
    all_goals grind
  all_goals grind

/-- The server grants a lock that others wait for, and revokes it at once. -/
theorem grantRevoked (h : Inv s g) {se : Server.LockEntry} (hpc : s.pc a = .acquiring n .req)
    (hse : se = { s.server.getD {} with
      retryingClient := "", state := .revoking, owner := a.client })
    (hs₀ : (s.server.getD {}).state = .retrying)
    (hw : (s.server.getD {}).waitingClients.Nonempty) (hst : g.stage a.client = .reasking) :
    Inv ((s.setServer se).setPc a (.acquiring n (.revReq a.client .ok)))
      ((g.setStage a.client .granted).setRev (some a)) := by
  obtain ⟨hne, -, e, he, hes, hem, heth⟩ := h.entry_asking hpc
  have hsv := h.server
  have hrev : g.rev = none := h.rev_eq_none (by grind)
  apply h.serve hpc
  case entry => simp [EntryOk, he, hes, hem, heth]
  case pc => simp [AcqOk]
  case server =>
    obtain ⟨h₁, h₂, h₃, h₀, h₄, h₅, h₆, h₇, h₈, h₉, h₁₀, h₁₁, h₁₂⟩ := hsv
    constructor
    case owner_iff =>
      rw [hse]
      refine Ghost.setStage_iff h₁ (by simp [Stage.IsOwner, hne]) fun c hc => ?_
      simp [hc, (h₇ hs₀).1]
    case retrying_iff =>
      have hretry := (h₂ a.client).mp (by simp [hst, Stage.IsRetrying])
      rw [hse]
      refine Ghost.setStage_iff h₂ (by simp [Stage.IsRetrying]) fun c hc => ?_
      simp [hc, ← hretry.1]
    case waiting_iff => grind
    case revoking_ok => grind
    case rev_some =>
      intro b hb
      obtain rfl : a = b := by simpa using hb
      exact ⟨by simp [hse], by simp [hse], by simpa [hse, he] using hem,
        n, .revReq a.client .ok, by simp, .inr ⟨.ok, by simp [hse]⟩⟩
    case returning_ok => grind [Pc.release?, Stage.IsOwner]
    case retryWait_ok =>
      apply h.server.retryWait_frame (a := a)
      all_goals grind [Pc.release?]
    all_goals grind
  all_goals grind

/-- The `acquire` handler makes the `revoke` call it owes. -/
theorem sendRevoke (h : Inv s g) (hpc : s.pc a = .acquiring n .revSend) :
    Inv (s.setPc a (.acquiring n (.revReq (s.server.getD {}).owner .retry))) g := by
  have hp := h.pc a
  rw [hpc] at hp
  obtain ⟨hnt, hen, href, hrev⟩ := hp
  refine ⟨?_, h.entry, ?_, h.held, ?_⟩
  · have := h.named
    grind
  · intro b
    by_cases hb : b = a
    · subst hb
      simpa [PcOk, AcqOk, hnt, hrev, href] using hen
    · rw [Sys.setPc_pc, if_neg hb]
      exact (h.pc b).frame (fun e he => ⟨e, he, .refl e⟩) (.inl rfl) (fun hr => ⟨hr, rfl⟩)
        (fun _ _ => rfl) (fun _ _ h => h)
  · obtain ⟨h₁, h₂, h₃, h₀, h₄, h₅, h₆, h₇, h₈, h₉, h₁₀, h₁₁, h₁₂⟩ := h.server
    refine ⟨h₁, h₂, h₃, h₀, h₄, h₅, h₆, h₇, ?_, h₉, h₁₀, ?_, ?_⟩
    · grind
    · grind
    · apply h.server.retryWait_frame (a := a)
      all_goals grind [Pc.release?]

/-- The client whose `release` call the activity `a` is in, when it is on its way. -/
theorem returning_of_release (h : Inv s g) {x : String} {q : RelPhase}
    (hr : (s.pc a).release? a.client = some (x, q)) : RelOk g a x q := by
  have hp := h.pc a
  cases hpc : s.pc a with
  | acquiring n p =>
    rw [hpc] at hp hr
    cases p <;> simp_all [Pc.release?, PcOk, AcqOk]
  | releasing n p =>
    rw [hpc] at hp hr
    simp_all [Pc.release?, PcOk]
  | _ => simp [hpc, Pc.release?] at hr

/-- The threads' part of the invariant after the `release` call of the activity `a`
went on from phase `q` to `q'`. -/
theorem pc_setRelease (h : Inv s g) {s' : Sys} {g' : Ghost} {x : String} {q r : RelPhase}
    (hr : (s.pc a).release? a.client = some (x, q))
    (hpc : s'.pc a = (s.pc a).setRelease r)
    (hcl : ∀ c e, s.client c = some e → ∃ e', s'.client c = some e' ∧ Grows e e')
    (hm : ∀ e, s.client x = some e → s'.client x = some e)
    (href : x ≠ a.client → (g.stage a.client).Refused → (g'.stage a.client).Refused)
    (hq : RelOk g' a x r) : PcOk s' g' a (s'.pc a) := by
  have hp := h.pc a
  have hex : ∃ e, s.client x = some e := by
    have hrel := h.returning_of_release hr
    have hen := h.entry x
    cases q <;> simp only [RelOk] at hrel <;> grind [EntryOk]
  rw [hpc]
  cases hpa : s.pc a with
  | releasing n p =>
    rw [hpa] at hp hr
    simp only [Pc.release?, Option.some.injEq, Prod.mk.injEq] at hr
    obtain ⟨rfl, rfl⟩ := hr
    obtain ⟨hnt, ⟨e, he, hhd, hs, hme⟩, -⟩ := hp
    obtain ⟨e', he', hgr⟩ := hcl _ e he
    exact ⟨hnt, ⟨e', he', hgr.head n hhd, hgr.state.trans hs, hgr.message hme⟩, hq⟩
  | acquiring n p =>
    rw [hpa] at hp hr
    cases p with
    | revRel tgt ret p =>
      simp only [Pc.release?, Option.some.injEq, Prod.mk.injEq] at hr
      obtain ⟨rfl, rfl⟩ := hr
      obtain ⟨hnt, ⟨e, he, hhd, hs⟩, hret, hrf, hme, hrel⟩ := hp
      -- the revoked client is releasing, the one that asked is acquiring
      have hne : tgt ≠ a.client := by
        rintro rfl
        have hen := h.entry a.client
        cases p <;> simp only [RelOk] at hrel <;> grind [Stage.Refused]
      obtain ⟨e', he', hgr⟩ := hcl _ e he
      refine ⟨hnt, ⟨e', he', hgr.head n hhd, hgr.state.trans hs⟩, hret, href hne hrf, ?_, hq⟩
      grind
    | _ => simp [Pc.release?] at hr
  | _ => simp [hpa, Pc.release?] at hr

/-- The server takes a lock back and picks the next client. -/
theorem takeBack (h : Inv s g) {se : Server.LockEntry} {x next : String}
    (hr : (s.pc a).release? a.client = some (x, .req))
    (hnext : next ∈ (s.server.getD {}).waitingClients)
    (hse : se = { waitingClients := (s.server.getD {}).waitingClients.erase next,
                  retryingClient := next, owner := "", state := .retrying }) :
    Inv ((s.setServer se).setPc a ((s.pc a).setRelease (.retryReq next)))
      ((g.setStage x (.returned a)).setStage next (.retryWait a)) := by
  have hx : g.stage x = .returning a := h.returning_of_release hr
  have hsv := h.server
  obtain ⟨hrk, hrev, -⟩ := hsv.returning_ok x a hx
  have hnx : g.stage next = .waiting := (hsv.waiting_iff next).mpr hnext
  have hne : next ≠ "" := fun h => hsv.waiting_ne (h ▸ hnext)
  have hxn : x ≠ next := by grind
  have hex := h.entry x
  have hen := h.entry next
  refine ⟨?_, ?_, ?_, h.held, ?_⟩
  · have := h.named
    intro b hb
    by_cases hba : b = a
    · refine this b fun hp => ?_
      simp [← hba, hp, Pc.release?] at hr
    · grind
  · intro c
    have := h.entry c
    by_cases hc : c = next
    · subst hc
      simpa [hnx, EntryOk] using hen
    · by_cases hcx : c = x
      · subst hcx
        simpa [hx, hc, EntryOk] using hex
      · simpa [hc, hcx] using this
  · intro b
    by_cases hb : b = a
    · subst hb
      refine h.pc_setRelease (r := .retryReq next) hr (by simp)
        (fun c e he => ⟨e, he, .refl e⟩) (fun _ => id) ?_ (by simp [RelOk, hxn])
      grind [Stage.Refused]
    · rw [Sys.setPc_pc, if_neg hb, Sys.setServer_pc]
      have hpb := h.pc b
      by_cases hbx : b.client = x
      · -- another thread of the releasing client waits, and its wait reads no stage
        simp only [hx, EntryOk] at hex
        cases hpc : s.pc b with
        | idle => trivial
        | waiting w m sig =>
          rw [hpc] at hpb
          obtain ⟨hmt, e, he, hw⟩ := hpb
          refine ⟨hmt, e, he, ?_⟩
          cases w <;> cases sig <;> grind [WaitOk]
        | acquiring m p =>
          rw [hpc] at hpb
          grind [PcOk]
        | releasing m p =>
          rw [hpc] at hpb
          cases p <;> grind [PcOk, RelOk]
      · refine hpb.frame (fun e he => ⟨e, he, .refl e⟩) ?_ ?_ ?_ ?_
        all_goals grind
  · obtain ⟨h₁, h₂, h₃, h₀, h₄, h₅, h₆, h₇, h₈, h₉, h₁₀, h₁₁, h₁₂⟩ := hsv
    constructor
    case owner_iff =>
      have hxo := (h₁ x).mp (by simp [hx, Stage.IsOwner])
      have hx' : ∀ c, ((g.setStage x (.returned a)).stage c).IsOwner ↔ c = se.owner ∧ c ≠ "" := by
        refine Ghost.setStage_iff h₁ (by simp [Stage.IsOwner, hse]) fun c hc => ?_
        simp [hse, hc, ← hxo.1]
      refine Ghost.setStage_iff hx' ?_ fun _ _ => Iff.rfl
      simp [Stage.IsOwner, hse]
    case retrying_iff =>
      have hx' : ∀ c, ((g.setStage x (.returned a)).stage c).IsRetrying ↔
          c = (s.server.getD {}).retryingClient ∧ c ≠ "" := by
        intro c
        have hsame : (Stage.returned a).IsRetrying ↔ (g.stage x).IsRetrying := by
          simp [hx, Stage.IsRetrying]
        rw [Ghost.setStage_same hsame c, h₂ c]
      refine Ghost.setStage_iff hx' (by simp [Stage.IsRetrying, hse, hne]) fun c hc => ?_
      simp [hse, hc, (h₆ hrk).2.1]
    case waiting_iff => grind
    case message_ok =>
      intro c _ _ _ hc
      have := h₁ c
      have := h₁ x
      grind [Stage.IsOwner]
    case returning_ok =>
      intro c _ hc
      have := h₁ c
      have := h₁ x
      grind [Stage.IsOwner]
    case retryWait_ok =>
      intro c b hb
      by_cases hcn : c = next
      · obtain rfl : a = b := by simpa [hcn, hxn] using hb
        refine ⟨x, ?_⟩
        rw [Sys.setPc_pc, if_pos rfl, hcn]
        cases hpa : s.pc a with
        | acquiring m p => cases p <;> simp_all [Pc.release?, Pc.setRelease]
        | _ => simp_all [Pc.release?, Pc.setRelease]
      · -- nobody was told to retry while the lock was being revoked
        have hrc := (h₂ c).mp
        grind [Stage.IsRetrying]
    all_goals grind

/-! ## The clients' handlers -/

/-- Whom an activity with a pending `revoke` call is about to revoke. -/
theorem revoke_target (h : Inv s g) {tgt : String} {ret : Status}
    (hpc : s.pc a = .acquiring n (.revReq tgt ret)) :
    g.rev = some a ∧ tgt = (s.server.getD {}).owner ∧
      (ret = .ok → tgt = a.client ∧ g.stage a.client = .granted) ∧
      (ret = .retry → (g.stage a.client).Refused) := by
  have hp := h.pc a
  rw [hpc] at hp
  obtain ⟨-, -, hp⟩ := hp
  cases ret with
  | retry =>
    obtain ⟨href, htgt, hrev⟩ := hp
    exact ⟨hrev, htgt, nofun, fun _ => href⟩
  | ok =>
    obtain ⟨hst, htgt, hrev⟩ := hp
    refine ⟨hrev, ?_, fun _ => ⟨htgt, hst⟩, nofun⟩
    exact htgt.trans (h.owner_eq (c := a.client) (by simp [hst, Stage.IsOwner])).1.symm

/-- The owner has the lock in use, or does not know yet that it has it: the `REVOKE`
waits in its message slot. -/
theorem revokeNoted (h : Inv s g) {tgt : String} {ret : Status}
    (hpc : s.pc a = .acquiring n (.revReq tgt ret)) (he : s.client tgt = some e)
    (hs : e.state ≠ .free) :
    Inv ((s.setClient tgt { e with message := .revoke }).setPc a (.acquiring n (.rep ret)))
      (g.setRev none) := by
  obtain ⟨hrev, htgt, hok, hretry⟩ := h.revoke_target hpc
  have hsv := h.server
  obtain ⟨hrk, how, hme, -⟩ := hsv.rev_some a hrev
  rw [← htgt] at how hme
  have hen := h.entry tgt
  have hnr : ∀ b, g.stage tgt ≠ .returning b ∧ g.stage tgt ≠ .returned b := by grind
  have hgr : Grows e { e with message := .revoke } := ⟨rfl, fun _ => rfl, fun _ => id, fun _ => id⟩
  refine ⟨?_, h.entry_own (c := tgt) ?_ ?_ ?_, ?_, ?_, ?_⟩
  · have := h.named
    grind
  · grind
  · grind
  · rcases how with hw | hw <;> rw [hw, he] at hen <;> simp [EntryOk, hw] <;> grind [EntryOk]
  · intro b
    have hcl : ∀ e₀, s.client b.client = some e₀ → ∃ e', ((s.setClient tgt
        { e with message := .revoke }).setPc a (.acquiring n (.rep ret))).client
          b.client = some e' ∧
        Grows e₀ e' := by
      intro e₀ he₀
      by_cases hb : b.client = tgt
      · rw [hb, he] at he₀
        cases he₀
        exact ⟨_, by simp [hb], hgr⟩
      · exact ⟨e₀, by simpa [hb] using he₀, .refl e₀⟩
    by_cases hb : b = a
    · subst hb
      have hp := h.pc b
      rw [hpc] at hp
      obtain ⟨hnt, ⟨e₀, he₀, hhd, hs₀⟩, -⟩ := hp
      obtain ⟨e', he', hgr'⟩ := hcl e₀ he₀
      rw [Sys.setPc_pc, if_pos rfl]
      refine ⟨hnt, ⟨e', he', hgr'.head n hhd, hgr'.state.trans hs₀⟩, ?_⟩
      cases ret with
      | ok => exact (hok rfl).2
      | retry => exact hretry rfl
    · rw [Sys.setPc_pc, if_neg hb, Sys.setClient_pc]
      refine (h.pc b).frame hcl (.inl rfl) ?_ ?_ ?_
      · grind
      · grind
      · grind
  · have := h.held
    grind
  · obtain ⟨h₁, h₂, h₃, h₀, h₄, h₅, h₆, h₇, h₈, h₉, h₁₀, h₁₁, h₁₂⟩ := hsv
    refine ⟨h₁, h₂, h₃, h₀, h₄, h₅, h₆, h₇, ?_, ?_, ?_, ?_, ?_⟩
    · grind
    · grind
    · grind
    · grind
    · apply h.server.retryWait_frame (a := a)
      all_goals grind [Pc.release?]

/-- The owner has the lock free: `revoke_handler` sends it back. -/
theorem revokeFree (h : Inv s g) {tgt : String} {ret : Status}
    (hpc : s.pc a = .acquiring n (.revReq tgt ret)) (he : s.client tgt = some e)
    (hs : e.state = .free) :
    Inv ((s.setClient tgt { e with state := .releasing }).setPc a
      (.acquiring n (.revRel tgt ret .req))) ((g.setStage tgt (.returning a)).setRev none) := by
  obtain ⟨hrev, htgt, hok, hretry⟩ := h.revoke_target hpc
  have hsv := h.server
  obtain ⟨hrk, -, hme, -⟩ := hsv.rev_some a hrev
  rw [← htgt] at hme
  have hst := h.stage_of_locked he (.inr hs)
  have hen := h.entry tgt
  rw [hst, he] at hen
  have hth : e.threads = [] := by grind [EntryOk]
  have hne : tgt ≠ "" := (h.owner_eq (c := tgt) (by simp [hst, Stage.IsOwner])).2
  have hret : ret = .retry := by
    cases ret with
    | retry => rfl
    | ok => grind
  have hp := h.pc a
  rw [hpc] at hp
  obtain ⟨hnt, ⟨e₀, he₀, hhd, hs₀⟩, -⟩ := hp
  have hat : a.client ≠ tgt := by grind
  refine ⟨?_, h.entry_own (c := tgt) ?_ ?_ ?_, ?_, ?_, ?_⟩
  · have := h.named
    grind
  · grind
  · grind
  · simp [EntryOk]
  · intro b
    by_cases hb : b = a
    · subst hb
      have := hretry hret
      simp [PcOk, AcqOk, RelOk, hnt, he₀, hhd, hs₀, hat, hret, hme e he, this]
    · rw [Sys.setPc_pc, if_neg hb, Sys.setClient_pc]
      by_cases hbt : b.client = tgt
      · -- a free lock has no queue, so the owner's threads are idle
        have hpb := h.pc b
        cases hpc : s.pc b with
        | idle => trivial
        | waiting w m sig =>
          rw [hpc] at hpb
          obtain ⟨-, e', he', hw⟩ := hpb
          cases w <;> cases sig <;> grind [WaitOk]
        | acquiring m p =>
          rw [hpc] at hpb
          grind [PcOk]
        | releasing m p =>
          rw [hpc] at hpb
          grind [PcOk]
      · refine (h.pc b).frame ?_ ?_ ?_ ?_ ?_
        · exact fun e he => ⟨e, by simpa [hbt] using he, .refl e⟩
        all_goals grind
  · have := h.held
    grind
  · obtain ⟨h₁, h₂, h₃, h₀, h₄, h₅, h₆, h₇, h₈, h₉, h₁₀, h₁₁, h₁₂⟩ := hsv
    constructor
    case owner_iff =>
      exact fun c => (Ghost.setStage_same (by simp [hst, Stage.IsOwner]) c).trans (h₁ c)
    case retrying_iff =>
      exact fun c => (Ghost.setStage_same (by simp [hst, Stage.IsRetrying]) c).trans (h₂ c)
    case returning_ok =>
      intro c b hc
      have := h₁ c
      grind [Stage.IsOwner, Pc.release?]
    case retryWait_ok =>
      apply h.server.retryWait_frame (a := a)
      all_goals grind [Pc.release?]
    all_goals grind

/-- `retry_handler` runs: the message slot says so, and the thread wakes if it sleeps. -/
theorem retryNoted (h : Inv s g) {x next : String} {rest : List QueuingThread}
    (hr : (s.pc a).release? a.client = some (x, .retryReq next))
    (he : s.client next = some e) (hth : e.threads = n :: rest) :
    Inv (((s.setClient next { e with message := .retry }).signal next (some n)).setPc a
      ((((s.setClient next { e with message := .retry }).signal next (some n)).pc a).setRelease
        .rep)) (g.setStage next .notified) := by
  obtain ⟨hx, hnx⟩ : g.stage x = .returned a ∧ g.stage next = .retryWait a :=
    h.returning_of_release hr
  have hsv := h.server
  have hen := h.entry next
  rw [hnx, he] at hen
  have hes : e.state = .acquiring ∧ e.message = .empty := by grind [EntryOk]
  have hxn : x ≠ next := by grind
  -- the signal finds the activity itself inside its `release` call
  have hsig : ((s.setClient next { e with message := .retry }).signal next (some n)).pc a =
      s.pc a := by
    cases hpa : s.pc a <;> simp [hpa, Pc.signal]
    simp [hpa, Pc.release?] at hr
  have hgr : ∀ c e₀, s.client c = some e₀ →
      ∃ e', (s.setClient next { e with message := .retry }).client c = some e' ∧ Grows e₀ e' := by
    intro c e₀ he₀
    by_cases hc : c = next
    · rw [hc, he] at he₀
      cases he₀
      exact ⟨{ e with message := .retry }, by simp [hc], rfl, fun hm => by simp [hes.2] at hm,
        fun _ => id, fun _ => id⟩
    · exact ⟨e₀, by simpa [hc] using he₀, .refl e₀⟩
  rw [hsig]
  refine ⟨?_, h.entry_own (c := next) ?_ ?_ ?_, ?_, ?_, ?_⟩
  · intro b hb
    refine h.named b fun hp => hb ?_
    by_cases hba : b = a
    · simp [← hba, hp, Pc.release?] at hr
    · simp [hba, hp]
  · grind
  · grind
  · simp [EntryOk, hes.1, hth]
  · intro b
    by_cases hb : b = a
    · subst hb
      refine h.pc_setRelease (r := .rep) hr (by simp) hgr ?_ ?_ (by simp [RelOk, hx, hxn])
      · grind
      · grind [Stage.Refused]
    · rw [Sys.setPc_pc, if_neg hb, Sys.signal_some_pc]
      by_cases hbn : b.client = next
      · rw [if_pos hbn, Sys.setClient_pc]
        have hpb := h.pc b
        cases hpc : s.pc b with
        | idle => trivial
        | waiting w m sig =>
          rw [hpc] at hpb
          obtain ⟨hmt, e', he', hw⟩ := hpb
          rw [hbn, he] at he'
          cases he'
          simp only [Pc.signal, PcOk, hbn, Sys.setPc_client, Sys.signal_client,
            Sys.setClient_client, if_true, Ghost.setStage_stage, Option.some.injEq,
            exists_eq_left']
          refine ⟨hmt, ?_⟩
          cases w <;> cases sig <;> by_cases hmn : m = n <;>
            simp_all [WaitOk]
        | acquiring m p =>
          rw [hpc] at hpb
          obtain ⟨hmt, ⟨e', he', hhd, hs⟩, hp⟩ := hpb
          rw [hbn, he] at he'
          cases he'
          refine ⟨hmt, ⟨{ e with message := .retry }, by simp [hbn], hhd, hs⟩, ?_⟩
          -- the client waits, so its call was refused
          cases p with
          | req => grind [AcqOk]
          | revSend => grind [AcqOk, Stage.Refused]
          | revReq tgt ret => cases ret <;> grind [AcqOk, Stage.Refused]
          | revRel tgt ret q =>
            obtain ⟨h₁, h₂, h₃, h₄⟩ := hp
            refine ⟨h₁, by simp [hbn, Stage.Refused], ?_, ?_⟩
            · have := h.entry tgt
              cases q <;> grind [RelOk]
            · cases q <;> grind [RelOk]
          | rep ret => cases ret <;> grind [AcqOk, Stage.Refused]
        | releasing m p =>
          rw [hpc] at hpb
          grind [PcOk]
      · rw [if_neg hbn, Sys.setClient_pc]
        refine (h.pc b).frame (hgr b.client) ?_ ?_ ?_ ?_
        all_goals grind
  · have := h.held
    grind
  · apply hsv.frame
    case hpc =>
      intro b hb
      by_cases hba : b = a
      · exact .inr ⟨x, next, hba ▸ hr, by simp⟩
      · rw [Sys.setPc_pc, if_neg hba]
        exact .inl (Pc.Carries.signal_pc (s := s.setClient next { e with message := .retry }) hb)
    all_goals grind [Stage.IsRetrying]

/-- `revoke_handler` has given the lock back; a thread that came meanwhile wakes. -/
theorem revokeDone (h : Inv s g) {tgt : String} {ret : Status}
    (hpc : s.pc a = .acquiring n (.revRel tgt ret .rep)) (he : s.client tgt = some e) :
    Inv (((s.setClient tgt { e with state := .none }).signal tgt e.threads.head?).setPc a
      (.acquiring n (.rep ret))) (g.setStage tgt .out) := by
  have hp := h.pc a
  rw [hpc] at hp
  obtain ⟨hnt, ⟨e₀, he₀, hhd, hs₀⟩, hret, href, hme, hst⟩ := hp
  simp only [RelOk] at hst
  have hen := h.entry tgt
  rw [hst, he] at hen
  have hes : e.state = .releasing := by grind [EntryOk]
  have hat : a.client ≠ tgt := by grind
  refine ⟨?_, h.entry_own (c := tgt) ?_ ?_ ?_, ?_, ?_, ?_⟩
  · intro b hb
    refine h.named b fun hp => hb ?_
    by_cases hba : b = a
    · simp [← hba, hp] at hpc
    · simp [hba, hp]
  · grind
  · grind
  · simp [EntryOk, hme e he]
  · intro b
    by_cases hb : b = a
    · subst hb
      subst hret
      simp [PcOk, AcqOk, hnt, hat, he₀, hhd, hs₀, href]
    · rw [Sys.setPc_pc, if_neg hb]
      by_cases hbt : b.client = tgt
      · have hpb := h.pc b
        cases hpc : s.pc b with
        | idle => simp [hpc, PcOk]
        | waiting w m sig =>
          rw [hpc] at hpb
          obtain ⟨hmt, e', he', hw⟩ := hpb
          rw [hbt, he] at he'
          cases he'
          cases hh : e.threads.head? with
          | none =>
            have hth : e.threads = [] := List.head?_eq_none_iff.mp hh
            cases w <;> cases sig <;> simp_all [WaitOk]
          | some f =>
            simp only [hpc, hbt, Sys.signal_some_pc, if_true, Sys.setClient_pc, Pc.signal, PcOk,
              Sys.setPc_client, Sys.signal_client, Sys.setClient_client, Ghost.setStage_stage,
              Option.some.injEq, exists_eq_left']
            refine ⟨hmt, ?_⟩
            cases w <;> cases sig <;> by_cases hmf : m = f <;> simp_all [WaitOk]
        | acquiring m p =>
          rw [hpc] at hpb
          grind [PcOk]
        | releasing m p =>
          rw [hpc] at hpb
          cases p <;> grind [PcOk, RelOk]
      · rw [Sys.signal_other hbt, Sys.setClient_pc]
        refine (h.pc b).frame ?_ ?_ ?_ ?_ ?_
        · exact fun e he => ⟨e, by simpa [hbt] using he, .refl e⟩
        all_goals grind
  · have := h.held
    grind
  · apply h.server.frame
    case hpc =>
      intro b hb
      have hba : b ≠ a := fun hba => by simp [hba, hpc, Pc.Carries] at hb
      rw [Sys.setPc_pc, if_neg hba]
      exact .inl (Pc.Carries.signal_pc (s := s.setClient tgt { e with state := .none }) hb)
    all_goals grind [Stage.IsRetrying]

/-! ## The handlers find their entries -/

theorem revoke_entry (h : Inv s g) {tgt : String} {ret : Status}
    (hpc : s.pc a = .acquiring n (.revReq tgt ret)) : ∃ e, s.client tgt = some e := by
  obtain ⟨hrev, htgt, -⟩ := h.revoke_target hpc
  obtain ⟨-, how, -⟩ := h.server.rev_some a hrev
  rw [← htgt] at how
  have hen := h.entry tgt
  rcases how with hst | hst <;> rw [hst] at hen <;> exact ⟨hen.choose, hen.choose_spec.1⟩

theorem retry_entry (h : Inv s g) {x next : String}
    (hr : (s.pc a).release? a.client = some (x, .retryReq next)) :
    ∃ e n rest, s.client next = some e ∧ e.threads = n :: rest := by
  obtain ⟨-, hnx⟩ : g.stage x = .returned a ∧ g.stage next = .retryWait a :=
    h.returning_of_release hr
  have hen := h.entry next
  rw [hnx] at hen
  obtain ⟨e, he, -, -, hth⟩ := hen
  obtain ⟨n, rest, hth⟩ := List.exists_cons_of_ne_nil hth
  exact ⟨e, n, rest, he, hth⟩

theorem revokeDone_entry (h : Inv s g) {tgt : String} {ret : Status}
    (hpc : s.pc a = .acquiring n (.revRel tgt ret .rep)) : ∃ e, s.client tgt = some e := by
  have hst : g.stage tgt = .returned a :=
    h.returning_of_release (x := tgt) (q := .rep) (by simp [hpc, Pc.release?])
  have hen := h.entry tgt
  rw [hst] at hen
  exact ⟨hen.choose, hen.choose_spec.1⟩

/-! ## One step of the system -/

/-- `acquire` from its call to the first point where it drops the mutex. -/
theorem exec_acquire (h : Inv s g) (ha : a.client ≠ "") (hpc : s.pc a = .idle)
    (hnt : n.tid = a.tid) (hnew : n ∉ ((s.client a.client).getD {}).threads) :
    ∃ s' g', s.resume a n (Client.acquire ((s.client a.client).getD {}) n) = .ok s' ∧
      Inv s' g' := by
  have hcar : ¬ (s.pc a).Carries := by simp [hpc, Pc.Carries]
  have hen := h.entry a.client
  unfold Client.acquire
  by_cases hth : ((s.client a.client).getD {}).threads = []
  · rw [if_pos hth]
    cases hs : ((s.client a.client).getD {}).state with
    | none =>
      have hst : g.stage a.client = .out := h.stage_of_none fun e he => by simpa [he] using hs
      have hm : ((s.client a.client).getD {}).message = .empty := by
        cases hc : s.client a.client with
        | none => rfl
        | some e =>
          rw [hst, hc] at hen
          exact (hen e rfl).2
      refine ⟨_, _, rfl, h.ask ha hnt hcar ?_ rfl hm rfl⟩
      intro e he
      rw [he] at hth hs
      simp_all
    | free =>
      cases hc : s.client a.client with
      | none => simp [hc] at hs
      | some e =>
        rw [hc] at hth hs
        refine ⟨_, _, rfl, h.grab (e := e) hnt hcar hc (.inl hs) ?_ ?_ rfl rfl rfl⟩
        · simp_all
        · simp_all
    | releasing =>
      cases hc : s.client a.client with
      | none => simp [hc] at hs
      | some e =>
        rw [hc] at hth hs hnew
        have := h.enqueue (e := e) (w := .released) ha hnt hpc hc hnew (.inr ⟨rfl, hth, hs⟩)
        refine ⟨_, g, rfl, ?_⟩
        simpa [show e.threads = [] from hth, show e.state = .releasing from hs] using this
    | acquiring =>
      cases hc : s.client a.client with
      | none => simp [hc] at hs
      | some e =>
        rw [hc] at hth hs hen
        cases hst : g.stage a.client <;> simp_all [EntryOk]
    | locked =>
      cases hc : s.client a.client with
      | none => simp [hc] at hs
      | some e =>
        rw [hc] at hth hs hen
        cases hst : g.stage a.client <;> simp_all [EntryOk]
  · rw [if_neg hth]
    cases hc : s.client a.client with
    | none => simp [hc] at hth
    | some e =>
      rw [hc] at hth hnew
      exact ⟨_, g, rfl, h.enqueue (w := .queued) ha hnt hpc hc hnew (.inl ⟨rfl, hth⟩)⟩

/-- A signalled thread goes on. -/
theorem exec_wake (h : Inv s g) {w : Wait} (hpc : s.pc a = .waiting w n true) :
    ∃ s' g', s.resume a n (s.entry a.client >>= (Client.wake · w)) = .ok s' ∧ Inv s' g' := by
  have hcar : ¬ (s.pc a).Carries := by simp [hpc, Pc.Carries]
  have ha := h.named a (by simp [hpc])
  have hp := h.pc a
  rw [hpc] at hp
  obtain ⟨hnt, e, he, hw⟩ := hp
  have hen := h.entry a.client
  rw [he] at hen
  have hask : e.state = .none → e.threads.head? = some n →
      Inv ((s.setClient a.client { e with state := .acquiring }).setPc a (.acquiring n .req))
        (g.setStage a.client .asking) := by
    intro hs hhd
    have hst := h.stage_of_none (c := a.client) fun e' he' => by grind
    rw [hst] at hen
    refine h.ask ha hnt hcar ?_ rfl (hen e rfl).2 hhd
    grind
  have hentry : s.entry a.client = .ok e := by simp [Sys.entry, he]
  rw [hentry]
  cases w with
  | released => exact ⟨_, _, rfl, hask hw.2 hw.1⟩
  | queued =>
    obtain ⟨hhd, hs⟩ := hw
    rcases hs with hs | hs
    · have := h.grab (d := e) hnt hcar he (.inr hs) (by grind) (fun _ => id) hs rfl hhd
      refine ⟨_, g, ?_, this⟩
      simp [Client.wake, hs, Sys.resume, bind, Except.bind]
    · refine ⟨_, _, ?_, hask hs hhd⟩
      simp [Client.wake, hs, Sys.resume, bind, Except.bind, Client.blockUntilGot,
        Client.blockUntilGotLoop]
  | retry =>
    obtain ⟨hhd, hs, hst⟩ := hw
    refine ⟨_, _, ?_, h.askAgain hnt hcar ha he hhd hs hst⟩
    simp [Client.wake, hs, Sys.resume, bind, Except.bind, Client.blockUntilGotLoop]

/-- The answer of an `acquire` call arrives. -/
theorem exec_reply (h : Inv s g) {ret : Status} (hpc : s.pc a = .acquiring n (.rep ret)) :
    ∃ s' g', s.resume a n (s.entry a.client >>= (Client.blockUntilGotReply · ret)) = .ok s' ∧
      Inv s' g' := by
  have hcar : ¬ (s.pc a).Carries := by simp [hpc, Pc.Carries]
  have ha := h.named a (by simp [hpc])
  have hp := h.pc a
  rw [hpc] at hp
  obtain ⟨hnt, ⟨e, he, hhd, hs⟩, hst⟩ := hp
  have hentry : s.entry a.client = .ok e := by simp [Sys.entry, he]
  rw [hentry]
  cases ret with
  | ok => exact ⟨_, _, rfl, h.got hpc he⟩
  | retry =>
    by_cases hm : e.message = .empty
    · refine ⟨_, _, ?_, h.sleep hpc he hm⟩
      simp [Client.blockUntilGotReply, hm, Sys.resume, bind, Except.bind]
    · have hst' : g.stage a.client = .notified := by
        have hen := h.entry a.client
        rw [he] at hen
        simp only [AcqOk] at hst
        cases hst' : g.stage a.client <;> simp_all [Stage.Refused, EntryOk]
      refine ⟨_, _, ?_, h.askAgain hnt hcar ha he hhd hs hst'⟩
      simp [Client.blockUntilGotReply, hm, hs, Sys.resume, bind, Except.bind,
        Client.blockUntilGotLoop]

/-- `release` from its call to the point where it drops the mutex. -/
theorem exec_release (h : Inv s g) (hpc : s.pc a = .idle) (hh : s.held a = some n) :
    ∃ e fin, s.entry a.client >>= Client.release = .ok (e, fin) ∧
      ∃ g', Inv (match fin with
        | none => ((s.setClient a.client e).setHeld a none).setPc a (.releasing n .req)
        | some sig => ((s.setClient a.client e).setHeld a none).signal a.client sig) g' := by
  obtain ⟨hnt, e, he, hhd, hs⟩ := h.held a n hh
  have hentry : s.entry a.client = .ok e := by simp [Sys.entry, he]
  rw [hentry]
  by_cases hm : e.message = .revoke
  · exact ⟨{ e with state := .releasing }, none, by simp [Client.release, hm, bind, Except.bind],
      _, h.giveBack hpc hh he hm⟩
  · cases hth : e.threads with
    | nil => simp [hth] at hhd
    | cons f rest =>
      have hf : f = n := by simpa [hth] using hhd
      subst hf
      cases rest with
      | nil =>
        refine ⟨{ e with state := .free, threads := [] }, some none, ?_, g, ?_⟩
        · simp [Client.release, Client.releaseFinish, hm, hth, bind, Except.bind, Except.map]
        · exact h.leave (d := { e with state := .free, threads := [] }) hpc hh he hm hth rfl rfl
      | cons m rest =>
        refine ⟨{ e with state := .locked, threads := m :: rest }, some (some m), ?_, g, ?_⟩
        · simp [Client.release, Client.releaseFinish, hm, hth, bind, Except.bind, Except.map]
        · exact h.leave (d := { e with state := .locked, threads := m :: rest }) hpc hh he hm hth
            rfl rfl

/-- `release` when the server has taken the lock back. -/
theorem exec_releaseReply (h : Inv s g) (hpc : s.pc a = .releasing n .rep) :
    ∃ e sig, s.entry a.client >>= Client.releaseReply = .ok (e, sig) ∧
      ∃ g', Inv (((s.setClient a.client e).signal a.client sig).setPc a .idle) g' := by
  have hp := h.pc a
  rw [hpc] at hp
  obtain ⟨hnt, ⟨e, he, hhd, hs, hm⟩, -⟩ := hp
  have hentry : s.entry a.client = .ok e := by simp [Sys.entry, he]
  rw [hentry]
  cases hth : e.threads with
  | nil => simp [hth] at hhd
  | cons f rest =>
    have hf : f = n := by simpa [hth] using hhd
    subst hf
    refine ⟨{ state := .none, message := .empty, threads := rest }, rest.head?, ?_, _,
      h.gaveBack (d := { state := .none, message := .empty, threads := rest }) hpc he hth rfl rfl⟩
    cases rest <;>
      simp [Client.releaseReply, Client.releaseFinish, hth, bind, Except.bind]

/-- The server executes an `acquire` request: none of its assertions fails. -/
theorem exec_serveAcquire (h : Inv s g) (hpc : s.pc a = .acquiring n .req) :
    ∃ se next, Server.acquire s.server a.client = .ok (se, next) ∧
      ∃ g', Inv ((s.setServer se).setPc a (.acquiring n next.phase)) g' := by
  obtain ⟨hne, hst, -⟩ := h.entry_asking hpc
  have hsv := h.server
  have hnw : a.client ∉ (s.server.getD {}).waitingClients := by
    rw [← hsv.waiting_iff]
    rcases hst with hst | hst <;> simp [hst]
  have hno : (s.server.getD {}).owner ≠ a.client := by
    intro ho
    have := (hsv.owner_iff a.client).mpr ⟨ho.symm, hne⟩
    rcases hst with hst | hst <;> simp [hst, Stage.IsOwner] at this
  have hre : g.stage a.client = .reasking ↔ a.client = (s.server.getD {}).retryingClient := by
    have := hsv.retrying_iff a.client
    rcases hst with hst | hst <;> simp_all [Stage.IsRetrying]
  unfold Server.acquire
  cases hs : (s.server.getD {}).state with
  | none =>
    obtain ⟨ho, hr, hw⟩ := hsv.none_ok hs
    have hask : g.stage a.client = .asking := by grind
    exact ⟨{ s.server.getD {} with state := .locked, owner := a.client }, .reply .ok,
      by simp [hs, ho], _, h.grant hpc rfl rfl hr hw hw (.inl ⟨hs, hask⟩)⟩
  | locked =>
    obtain ⟨ho, hr, hw⟩ := hsv.locked_ok hs
    have hask : g.stage a.client = .asking := by grind
    exact ⟨{ s.server.getD {} with
        waitingClients := insert a.client (s.server.getD {}).waitingClients,
        state := .revoking }, .revokeOwner,
      by simp [hs, ho, hnw, hno], _, h.startRevoke hpc rfl hs hask⟩
  | revoking =>
    obtain ⟨ho, hr, hw⟩ := hsv.revoking_ok hs
    have hask : g.stage a.client = .asking := by grind
    exact ⟨{ s.server.getD {} with
        waitingClients := insert a.client (s.server.getD {}).waitingClients }, .reply .retry,
      by simp [hs, hnw], _, h.queueUp hpc rfl (.inl hs) hask⟩
  | retrying =>
    by_cases hra : a.client = (s.server.getD {}).retryingClient
    · have hask := hre.mpr hra
      by_cases hw : (s.server.getD {}).waitingClients.Nonempty
      · exact ⟨{ s.server.getD {} with
            retryingClient := "", state := .revoking, owner := a.client }, .revokeSelf a.client,
          by simp [hs, hnw, hw, ← hra], _, h.grantRevoked hpc rfl hs hw hask⟩
      · have hw' := Finset.not_nonempty_iff_eq_empty.mp hw
        exact ⟨{ s.server.getD {} with
            retryingClient := "", state := .locked, owner := a.client }, .reply .ok,
          by simp [hs, hnw, hw, ← hra], _,
          h.grant hpc rfl rfl rfl hw' hw' (.inr ⟨hs, hask⟩)⟩
    · have hask : g.stage a.client = .asking := by grind
      exact ⟨{ s.server.getD {} with
          waitingClients := insert a.client (s.server.getD {}).waitingClients }, .reply .retry,
        by simp [hs, hnw, hra], _, h.queueUp hpc rfl (.inr hs) hask⟩

/-- The server executes a `release` request: none of its assertions fails, and
somebody waits. -/
theorem exec_serveRelease (h : Inv s g) {x : String}
    (hr : (s.pc a).release? a.client = some (x, .req)) :
    ∃ se next, Server.release s.server x = .ok (se, next) ∧
      ∃ g', Inv ((s.setServer se).setPc a ((s.pc a).setRelease (.retryReq next))) g' := by
  have hx : g.stage x = .returning a := h.returning_of_release hr
  have hsv := h.server
  obtain ⟨hrk, -, -⟩ := hsv.returning_ok x a hx
  obtain ⟨ho, -⟩ := h.owner_eq (c := x) (by simp [hx, Stage.IsOwner])
  obtain ⟨-, -, hw⟩ := hsv.revoking_ok hrk
  cases hse : s.server with
  | none => simp [hse] at hrk
  | some se =>
    rw [hse] at hrk ho hw
    simp only [Option.getD_some] at hrk ho hw
    refine ⟨{ waitingClients := se.waitingClients.erase (se.waitingClients.min' hw),
              retryingClient := se.waitingClients.min' hw, owner := "", state := .retrying },
      se.waitingClients.min' hw, ?_, _, h.takeBack hr ?_ (by simp [hse])⟩
    · simp [Server.release, hrk, ho, hw]
    · simpa [hse] using se.waitingClients.min'_mem hw

/-- **One step of the system**: whatever happens, no section faults, and the
invariant holds afterwards. -/
theorem exec_ok (h : Inv s g) {ev : Event} {r : Except Fault Sys} (hr : s.exec ev = some r) :
    ∃ s' g', r = .ok s' ∧ Inv s' g' := by
  cases ev with
  | acquire a addr =>
    simp only [Sys.exec] at hr
    split at hr
    case isTrue hg =>
      cases hr
      exact h.exec_acquire hg.2.1 hg.1 rfl hg.2.2
    case isFalse => cases hr
  | wake a =>
    simp only [Sys.exec] at hr
    split at hr
    case h_1 w n hpc =>
      cases hr
      exact h.exec_wake hpc
    case h_2 => cases hr
  | release a =>
    simp only [Sys.exec] at hr
    split at hr
    case h_1 n hpc hh =>
      obtain ⟨e, fin, heq, g', hg'⟩ := h.exec_release hpc hh
      rw [heq] at hr
      cases hr
      exact ⟨_, g', rfl, hg'⟩
    case h_2 => cases hr
  | serve a =>
    simp only [Sys.exec] at hr
    split at hr
    case h_1 n hpc =>
      obtain ⟨se, next, heq, g', hg'⟩ := h.exec_serveAcquire hpc
      rw [heq] at hr
      cases hr
      exact ⟨_, g', rfl, hg'⟩
    case h_2 =>
      split at hr
      case h_1 x hrel =>
        obtain ⟨se, next, heq, g', hg'⟩ := h.exec_serveRelease hrel
        rw [heq] at hr
        cases hr
        exact ⟨_, g', rfl, hg'⟩
      case h_2 => cases hr
  | sendRevoke a =>
    simp only [Sys.exec] at hr
    split at hr
    case h_1 n hpc =>
      cases hr
      exact ⟨_, g, rfl, h.sendRevoke hpc⟩
    case h_2 => cases hr
  | revoke a =>
    simp only [Sys.exec] at hr
    split at hr
    case h_1 n tgt ret hpc =>
      obtain ⟨e, he⟩ := h.revoke_entry hpc
      have hentry : s.entry tgt = .ok e := by simp [Sys.entry, he]
      rw [hentry] at hr
      by_cases hs : e.state = .free
      · simp only [Except.map, Client.revokeHandler, hs, if_true] at hr
        cases hr
        exact ⟨_, _, rfl, h.revokeFree hpc he hs⟩
      · simp only [Except.map, Client.revokeHandler, hs, if_false] at hr
        cases hr
        exact ⟨_, _, rfl, h.revokeNoted hpc he hs⟩
    case h_2 => cases hr
  | retry a =>
    simp only [Sys.exec] at hr
    split at hr
    case h_1 x next hrel =>
      obtain ⟨e, n, rest, he, hth⟩ := h.retry_entry hrel
      have hentry : s.entry next = .ok e := by simp [Sys.entry, he]
      rw [hentry] at hr
      simp only [bind, Except.bind, Client.retryHandler, hth, Except.map] at hr
      cases hr
      refine ⟨_, g.setStage next .notified, rfl, ?_⟩
      have := h.retryNoted hrel he hth
      rwa [hth] at this
    case h_2 => cases hr
  | reply a =>
    simp only [Sys.exec] at hr
    split at hr
    case h_1 n ret hpc =>
      cases hr
      exact h.exec_reply hpc
    case h_2 n tgt ret hpc =>
      obtain ⟨e, he⟩ := h.revokeDone_entry hpc
      have hentry : s.entry tgt = .ok e := by simp [Sys.entry, he]
      rw [hentry] at hr
      cases hr
      exact ⟨_, _, rfl, h.revokeDone hpc he⟩
    case h_3 n hpc =>
      obtain ⟨e, sig, heq, g', hg'⟩ := h.exec_releaseReply hpc
      rw [heq] at hr
      cases hr
      exact ⟨_, g', rfl, hg'⟩
    case h_4 => cases hr

end Inv

end Yfs.Lock
