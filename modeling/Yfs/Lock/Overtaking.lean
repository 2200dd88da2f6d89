import Mathlib.Data.List.Chain
import Yfs.Lock.Safety

/-!
# Who overtakes whom

`waitingClients` is a `std::set`, and `release` tells the client with the least id to retry, however
long the others have waited. So a client that waits is overtaken by clients with lesser ids, and
without end if two of them take turns (`Turns.turn`). By clients with greater ids it is overtaken
once at most, by the one that was about to get the lock when it came to wait, and nobody gets the
lock twice in a row (`Overtaken.step`).
-/

namespace Yfs.Lock

open Client (QueuingThread Wait)

/-- The answer of the server with which the client gets the lock. -/
def Server.Next.grants : Server.Next → Bool
  | .reply .ok | .revokeSelf _ => true
  | .reply .retry | .revokeOwner => false

/-- The client that gets the lock in this step. -/
def Sys.granted (s : Sys) : Event → Option String
  | .serve a =>
    match s.pc a, Server.acquire s.server a.client with
    | .acquiring _ .req, .ok (_, next) => if next.grants then some a.client else none
    | _, _ => none
  | _ => none

/-- The client is in `waitingClients`. -/
def Sys.Waits (s : Sys) (w : String) : Prop := w ∈ s.srv.waitingClients

/-- Runs in which the client `w` waits all the time, with the clients that get the lock
meanwhile. -/
inductive Waiting (lid : LockId) (w : String) (s : State) : List String → State → Prop
  | nil : (s lid).Waits w → Waiting lid w s [] s
  | snoc {cs : List String} {s' : State} {lid' : LockId} {ev : Event} {q : Sys} :
      Waiting lid w s cs s' → s'.MayCall ev → (s' lid').exec ev = some (.ok q) →
      (Function.update s' lid' q lid).Waits w →
      Waiting lid w s (cs ++ if lid' = lid then ((s' lid).granted ev).toList else [])
        (Function.update s' lid' q)

/-! ## How often a client is overtaken -/

section Server

variable {entry : Option Server.LockEntry} {c w next : String} {se : Server.LockEntry}

/-- While somebody waits, an `acquire` gets the lock if it is that of the client that was told to
retry; else its client waits, too. -/
theorem acquire_waiting {next : Server.Next} (h : Server.acquire entry c = .ok (se, next))
    (hw : w ∈ (entry.getD {}).waitingClients)
    (hst : (entry.getD {}).state = .revoking ∨ (entry.getD {}).state = .retrying) :
    ((entry.getD {}).state = .retrying ∧ c = (entry.getD {}).retryingClient ∧
      se = { entry.getD {} with retryingClient := "", state := .revoking, owner := c } ∧
      next = .revokeSelf c) ∨
    se = { entry.getD {} with waitingClients := insert c (entry.getD {}).waitingClients } ∧
      next = .reply .retry := by
  unfold Server.acquire at h
  have hne : (entry.getD {}).waitingClients.Nonempty := ⟨w, hw⟩
  rcases hst with hst | hst
  · simp only [hst] at h
    split_ifs at h
    cases h
    exact .inr ⟨by simp only [hst], rfl⟩
  · simp only [hst, if_pos hne] at h
    split_ifs at h with _ hc
    · cases h
      exact .inl ⟨hst, hc, rfl, rfl⟩
    · cases h
      exact .inr ⟨by simp only [hst], rfl⟩

/-- A `release` tells the least client that waits. -/
theorem release_least (h : Server.release entry c = .ok (se, next)) :
    (entry.getD {}).state = .revoking ∧ (entry.getD {}).owner = c ∧
    next ∈ (entry.getD {}).waitingClients ∧ (∀ x ∈ (entry.getD {}).waitingClients, next ≤ x) ∧
    se = { waitingClients := (entry.getD {}).waitingClients.erase next, retryingClient := next,
           owner := "", state := .retrying } := by
  cases entry with
  | none => cases h
  | some e =>
    simp only [Server.release] at h
    split_ifs at h with hst ho hw
    cases h
    exact ⟨not_not.mp hst, not_not.mp ho, e.waitingClients.min'_mem hw,
      fun x hx => e.waitingClients.min'_le x hx, rfl⟩

end Server

/-- What the clients `cs`, that have got the lock while `w` has waited, say about the server's
entry. -/
structure Overtaken (w : String) (cs : List String) (s : Sys) : Prop where
  lesser : ∀ x ∈ cs.tail, x < w
  turns : cs.IsChain (· ≠ ·)
  owner : ∀ c ∈ cs.getLast?, s.srv.state = .revoking → s.srv.owner = c
  next : ∀ c ∈ cs.getLast?, s.srv.state = .retrying →
    s.srv.retryingClient < w ∧ s.srv.retryingClient ≠ c

section Runs

variable {s q : Sys} {g : Ghost} {ev : Event} {cs : List String} {w : String}

/-- A step of the clients. -/
theorem Overtaken.same (h : Overtaken w cs s) (hsrv : q.srv = s.srv)
    (hnone : s.granted ev = none) : Overtaken w (cs ++ (s.granted ev).toList) q := by
  rw [hnone, Option.toList_none, List.append_nil]
  exact ⟨h.lesser, h.turns, hsrv ▸ h.owner, hsrv ▸ h.next⟩

/-- A section of a client leaves the server's entry. -/
theorem Sys.resume_srv {a : Thread} {n : QueuingThread} {r : Client.LockEntry × Client.Next}
    (h : s.resume a n (.ok r) = .ok q) : q.srv = s.srv := by
  obtain ⟨e, next⟩ := r
  cases h
  cases next <;> rfl

/-- **One step while `w` waits.** -/
theorem Overtaken.step (h : Overtaken w cs s) (hinv : Inv s g) (hw : s.Waits w)
    (hex : s.exec ev = some (.ok q)) (hw' : q.Waits w) :
    Overtaken w (cs ++ (s.granted ev).toList) q := by
  have hsv : ServerOk s g s.srv := hinv.server
  have hst : s.srv.state = .revoking ∨ s.srv.state = .retrying := by
    cases hs : s.srv.state with
    | none => simp [Sys.Waits, (hsv.none_ok hs).2.2] at hw
    | locked => simp [Sys.Waits, (hsv.locked_ok hs).2.2] at hw
    | revoking => exact .inl rfl
    | retrying => exact .inr rfl
  cases Sys.steps_of_exec hex with
  | acquire _ _ _ _ hq | wake _ _ _ hq | replyAcquire _ _ _ hq =>
    exact h.same (Sys.resume_srv hq) rfl
  | release | leave | sendRevoke | revoke | retry | replyRevoke | replyRelease =>
    exact h.same rfl rfl
  | @serveAcquire a n se next hpc hr =>
    have hgranted : s.granted (.serve a) = if next.grants then some a.client else none := by
      simp only [Sys.granted, hpc, hr]
    obtain ⟨hs, hc, rfl, rfl⟩ | ⟨rfl, rfl⟩ := acquire_waiting hr hw hst
    · -- the client that was told to retry gets the lock
      rw [hgranted]
      refine ⟨fun x hx => ?_, ?_, ?_, ?_⟩
      · cases cs with
        | nil => cases hx
        | cons c cs =>
          rcases List.mem_append.mp hx with hx | hx
          · exact h.lesser x hx
          · obtain rfl := List.mem_singleton.mp hx
            obtain ⟨c', hc'⟩ := Option.ne_none_iff_exists'.mp
              (mt List.getLast?_eq_none_iff.mp (List.cons_ne_nil c cs))
            exact hc ▸ (h.next c' hc' hs).1
      · refine List.isChain_append.mpr ⟨h.turns, List.isChain_singleton _, fun x hx y hy => ?_⟩
        obtain rfl : a.client = y := Option.some.inj hy
        exact hc ▸ (h.next x hx hs).2.symm
      · intro c hc' _
        rw [Option.mem_def] at hc'
        simpa [Server.Next.grants] using hc'
      · rintro c - ⟨⟩
    · rw [hgranted]
      simp only [Server.Next.grants, Bool.false_eq_true, if_false, Option.toList_none,
        List.append_nil]
      exact ⟨h.lesser, h.turns, h.owner, h.next⟩
  | @serveRelease a x next se hpc hr =>
    obtain ⟨hs, ho, hmem, hle, rfl⟩ := release_least hr
    have hnone : s.granted (.serve a) = none := by
      simp only [Sys.granted]
      split
      case h_1 hacq _ =>
        rw [hacq] at hpc
        cases hpc
      case h_2 => rfl
    have hne : next ≠ w := by
      rintro rfl
      exact (Finset.notMem_erase _ _) hw'
    rw [hnone, Option.toList_none, List.append_nil]
    refine ⟨h.lesser, h.turns, ?_, fun c hc _ => ⟨lt_of_le_of_ne (hle w hw) hne, ?_⟩⟩
    · rintro c - ⟨⟩
    · -- who has the lock does not wait
      rintro rfl
      have hwait := (hsv.waiting_iff next).mpr hmem
      have howner := (hsv.owner_iff next).mpr
        ⟨(h.owner next hc hs).symm, fun h0 => hsv.waiting_ne (h0 ▸ hmem)⟩
      rw [hwait] at howner
      exact howner

/-- A run while `w` waits. -/
theorem Waiting.overtaken {lid : LockId} {s s' : State} (h : Waiting lid w s cs s')
    (hs : Reachable Init Step s) : Reachable Init Step s' ∧ (s' lid).Waits w ∧
      Overtaken w cs (s' lid) := by
  induction h with
  | nil hw => exact ⟨hs, hw, by simp, .nil, by simp, by simp⟩
  | @snoc cs s' lid' ev q _ hmay hex hw ih =>
    obtain ⟨hs', hw', hov⟩ := ih
    refine ⟨hs'.next ⟨lid', ev, q, hmay, hex, rfl⟩, hw, ?_⟩
    by_cases hl : lid' = lid
    · subst hl
      obtain ⟨g, hg⟩ := inv_reachable hs' lid'
      rw [Function.update_self] at hw ⊢
      rw [if_pos rfl]
      exact hov.step hg hw' hex hw
    · rw [Function.update_of_ne (Ne.symm hl), if_neg hl, List.append_nil]
      exact hov

end Runs

/-! ## Two clients that take turns -/

section Turns

variable {s q q' : Sys} {evs : List Event} {cs cs' : List String} {lid : LockId} {w x y : String}

/-- Runs events one after another as long as `w` waits, with the clients that get the lock. -/
def Sys.watch (w : String) : Sys → List Event → Option (List String × Sys)
  | s, [] => some ([], s)
  | s, ev :: evs =>
    match s.exec ev with
    | some (.ok q) =>
      if w ∈ q.srv.waitingClients then
        (q.watch w evs).map fun r => ((s.granted ev).toList ++ r.1, r.2)
      else none
    | _ => none

/-- What has been watched is a run of the service, in which nobody uses another lock. -/
theorem Waiting.watch {s₀ : State} (h : Waiting lid w s₀ cs (Function.update (fun _ => {}) lid q))
    (hq : q.watch w evs = some (cs', q')) :
    Waiting lid w s₀ (cs ++ cs') (Function.update (fun _ => {}) lid q') := by
  induction evs generalizing q cs cs' with
  | nil =>
    cases hq
    rwa [List.append_nil]
  | cons ev evs ih =>
    simp only [Sys.watch] at hq
    split at hq
    case h_1 q₁ hex =>
      split_ifs at hq with hw
      obtain ⟨⟨cs₁, q₂⟩, hq₁, hr⟩ := Option.map_eq_some_iff.mp hq
      cases hr
      have hstep := @Waiting.snoc lid w s₀ cs _ lid ev q₁ h (mayCall_of_exec lid hex)
        (by rwa [Function.update_self]) (by simpa [Sys.Waits] using hw)
      rw [Function.update_idem, Function.update_self, if_pos rfl] at hstep
      rw [← List.append_assoc]
      exact ih hstep hq₁
    case h_2 => cases hq

/-- The client `x` has the lock and is told to give it back; `y` and `w` wait. -/
structure Turns (x y w : String) (s : Sys) : Prop where
  server : s.server = some ⟨x, "", {y, w}, .revoking⟩
  owner : s.client x = some ⟨.locked, .revoke, [⟨0, 0⟩]⟩
  other : s.client y = some ⟨.acquiring, .empty, [⟨0, 0⟩]⟩
  idle : s.pc ⟨x, 0⟩ = .idle
  held : s.held ⟨x, 0⟩ = some ⟨0, 0⟩
  asleep : s.pc ⟨y, 0⟩ = .waiting .retry ⟨0, 0⟩ false

/-- The lock goes from `x` to `y`, who is called back at once, and `x` asks for it again. -/
def turn (x y : String) : List Event :=
  [.release ⟨x, 0⟩, .serve ⟨x, 0⟩, .retry ⟨x, 0⟩, .reply ⟨x, 0⟩,
    .wake ⟨y, 0⟩, .serve ⟨y, 0⟩, .revoke ⟨y, 0⟩, .reply ⟨y, 0⟩,
    .acquire ⟨x, 0⟩ 0, .serve ⟨x, 0⟩, .reply ⟨x, 0⟩]

/-- The client `x` gets the lock, `w` asks for it and then `y`. -/
def ask (x y w : String) : List Event :=
  [.acquire ⟨x, 0⟩ 0, .serve ⟨x, 0⟩, .reply ⟨x, 0⟩,
    .acquire ⟨w, 0⟩ 0, .serve ⟨w, 0⟩, .sendRevoke ⟨w, 0⟩, .revoke ⟨w, 0⟩, .reply ⟨w, 0⟩,
    .acquire ⟨y, 0⟩ 0, .serve ⟨y, 0⟩, .reply ⟨y, 0⟩]

theorem min'_pair (h : y < w) (hne : ({y, w} : Finset String).Nonempty) :
    ({y, w} : Finset String).min' hne = y := by
  refine le_antisymm (Finset.min'_le _ _ (Finset.mem_insert_self ..)) ?_
  refine Finset.le_min' _ _ _ fun z hz => ?_
  rcases Finset.mem_insert.mp hz with rfl | hz
  · exact le_rfl
  · rw [Finset.mem_singleton.mp hz]
    exact h.le

/-- **Two lesser clients take turns**, and everything is as before but for their names. -/
theorem Turns.turn (h : Turns x y w s) (hx : x ≠ "") (hxy : x ≠ y) (hxw : x < w) (hyw : y < w) :
    ∃ q, s.watch w (turn x y) = some ([y], q) ∧ Turns y x w q := by
  have hsrv : s.srv = ⟨x, "", {y, w}, .revoking⟩ := by rw [Sys.srv, h.server, Option.getD_some]
  have herase : ({y, w} : Finset String).erase y = {w} :=
    Finset.erase_insert (by simp [hyw.ne])
  -- the sections run one after the other; `y` is the least that waits, so it is told to retry
  refine ⟨_, by
    simp [Lock.turn, Sys.watch, Sys.exec, Sys.granted, Sys.entry, Sys.resume, Pc.release?,
      Pc.setRelease, Pc.signal, Client.release, Client.retryHandler, Client.releaseReply,
      Client.releaseFinish, Client.wake, Client.revokeHandler, Client.blockUntilGotReply,
      Client.acquire, Client.blockUntilGot, Client.blockUntilGotLoop, Server.release,
      Server.acquire, Server.Next.grants, Server.Next.phase, Except.map, bind, Except.bind,
      h.server, h.owner, h.other, h.idle, h.held, h.asleep, hsrv, herase, min'_pair hyw,
      hx, hxy, hxy.symm, hxw.ne, hyw.ne, hyw.ne.symm]
    rfl, ?_⟩
  constructor <;> simp [hxy.symm]

/-- It comes to this. -/
theorem exists_turns (hx : x ≠ "") (hy : y ≠ "") (hxy : x ≠ y) (hxw : x < w) (hyw : y < w) :
    ∃ q, Sys.run {} (ask x y w) = some q ∧ Turns x y w q := by
  have hw : w ≠ "" := by
    rintro rfl
    exact List.not_lt_nil _ (String.lt_iff_toList_lt.mp hxw)
  refine ⟨_, by
    simp [ask, Sys.run, Sys.exec, Sys.entry, Sys.resume, Client.acquire, Client.blockUntilGot,
      Client.blockUntilGotLoop, Client.blockUntilGotReply, Client.revokeHandler, Server.acquire,
      Server.Next.phase, Except.map, bind, Except.bind,
      hx, hy, hw, hxy.symm, hxw.ne, hxw.ne.symm, hyw.ne]
    rfl, ?_⟩
  constructor <;> simp [hxy, hxw.ne]

/-- They take turns as often as they like. -/
theorem Turns.waiting {s₀ : State} (h : Turns x y w q)
    (hrun : Waiting lid w s₀ cs (Function.update (fun _ => {}) lid q)) (hx : x ≠ "") (hy : y ≠ "")
    (hxy : x ≠ y) (hxw : x < w) (hyw : y < w) (n : ℕ) :
    ∃ cs' s', Waiting lid w s₀ cs' s' ∧ cs'.length = cs.length + n := by
  induction n generalizing x y q cs with
  | zero => exact ⟨cs, _, hrun, rfl⟩
  | succ n ih =>
    obtain ⟨q', hq', hturn⟩ := h.turn hx hxy hxw hyw
    obtain ⟨cs', s', hs', hlen⟩ := ih hturn (hrun.watch hq') hy hx hxy.symm hyw hxw
    exact ⟨cs', s', hs', by rw [hlen, List.length_append, List.length_singleton]; omega⟩

/-- **Who overtakes whom.** While a client `w` waits for a lock, after the first one only clients
with lesser ids get the lock, and nobody gets it twice in a row. So if at most one client has a
lesser id, `w` is overtaken twice at most; but two of them can overtake it as often as they like. -/
theorem overtaking (lid : LockId) (w : String) :
    (∀ s cs s', Reachable Init Step s → Waiting lid w s cs s' →
      (∀ x ∈ cs.tail, x < w) ∧ cs.IsChain (· ≠ ·)) ∧
    ∀ x y, x ≠ "" → y ≠ "" → x ≠ y → x < w → y < w →
      ∃ s, Reachable Init Step s ∧ ∀ n, ∃ cs s', Waiting lid w s cs s' ∧ cs.length = n := by
  refine ⟨fun s cs s' hs hrun => ?_, fun x y hx hy hxy hxw hyw => ?_⟩
  · obtain ⟨-, -, hov⟩ := hrun.overtaken hs
    exact ⟨hov.lesser, hov.turns⟩
  · obtain ⟨q, hq, hturns⟩ := exists_turns hx hy hxy hxw hyw
    refine ⟨_, reachable_of_run lid hq, fun n => ?_⟩
    have hnil : Waiting lid w (Function.update (fun _ => {}) lid q) []
        (Function.update (fun _ => {}) lid q) := by
      refine .nil ?_
      rw [Function.update_self, Sys.Waits, Sys.srv, hturns.server]
      simp
    obtain ⟨cs, s', hs', hlen⟩ := hturns.waiting hnil hx hy hxy hxw hyw n
    exact ⟨cs, s', hs', by rw [hlen, List.length_nil, Nat.zero_add]⟩

/-- `A` and `B` take turns while `C` waits. -/
theorem overtaking_turns : ∃ s, Reachable Init Step s ∧ ∀ n, ∃ cs s',
    Waiting 1 "C" s cs s' ∧ cs.length = n ∧ (∀ x ∈ cs.tail, x < "C") := by
  obtain ⟨s, hs, hn⟩ :=
    (overtaking 1 "C").2 "A" "B" (by simp) (by simp) (by simp) (by decide) (by decide)
  refine ⟨s, hs, fun n => ?_⟩
  obtain ⟨cs, s', hrun, hlen⟩ := hn n
  exact ⟨cs, s', hrun, hlen, ((overtaking 1 "C").1 s cs s' hs hrun).1⟩

end Turns

end Yfs.Lock
