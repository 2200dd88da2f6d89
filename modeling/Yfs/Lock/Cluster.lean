import Mathlib.Data.FinEnum
import Yfs.Lib.Ordered
import Yfs.Lock.Progress

/-!
# Programs over the caching lock service

A `Pool` has locks that are there or not there. Here the threads of a pool get their locks from the
service of `Lock.System` instead: a thread that comes to a lock calls `acquire` and goes on when
that returns, which takes requests, revocations, hand-overs and wake-ups of many activities; and a
thread that gives a lock up calls `release`, and does nothing else until that has returned.

Whatever the protocol does, what the programs do is a run of the pool (`Cluster.simulates`): the
lock service is an implementation of locks. And it is one that makes progress: programs that take
their locks in order come to an end over it as they do in the pool (`Cluster.work_ends`,
`Cluster.goes_on`).
-/

namespace Yfs.Lock

open Client (QueuingThread)

/-! ## Clusters -/

variable {ε κ σ χ α : Type}

/-- Threads of clients that run calls, and the lock service that they get their locks from. A call
is in the log when its last step is taken; its thread does nothing else until that has returned. -/
structure Cluster (ε σ χ α : Type) where
  state : σ
  locks : State
  thread : Thread → Option (χ × Prog ε LockId σ α)
  log : List (χ × α)

/-- The thread is in no call of the lock service. -/
def State.Outside (s : State) (t : Thread) : Prop := ∀ i, (s i).pc t = .idle

namespace Cluster

/-- The thread has `k` left to do of its call; the call ends with its last step. -/
def goOn (p : Cluster ε σ χ α) (t : Thread) (c : χ) (k : Prog ε LockId σ α) : Cluster ε σ χ α :=
  match k with
  | .ret a => { p with thread := Function.update p.thread t none, log := p.log ++ [(c, a)] }
  | k => { p with thread := Function.update p.thread t (some (c, k)) }

/-- The lock `i` is now in the state `q`. -/
def setLock (p : Cluster ε σ χ α) (i : LockId) (q : Sys) : Cluster ε σ χ α :=
  { p with locks := Function.update p.locks i q }

/-- A thread makes only the calls of the lock service that its program has come to. -/
def MayLock (p : Cluster ε σ χ α) (i : LockId) : Event → Prop
  | .acquire t _ => p.locks.Outside t ∧ ∃ c k, p.thread t = some (c, .acquire i k)
  | .release t => p.locks.Outside t ∧ ∃ c k, p.thread t = some (c, .release i k)
  | _ => True

/-- One step: of a program, or of the lock service. -/
inductive Step (S : Service ε LockId κ σ χ α) (may : χ → List (χ × α) → Prop) :
    Cluster ε σ χ α → Cluster ε σ χ α → Prop
  | start {p : Cluster ε σ χ α} {t : Thread} {c : χ} : p.thread t = none → t.client ≠ "" →
      p.locks.Outside t → may c p.log → Step S may p (p.goOn t c (S.prog c))
  | atom {p : Cluster ε σ χ α} {t : Thread} {c : χ} {δ : Type} {f : σ → Option (δ × σ)}
      {k : δ → Prog ε LockId σ α} {b : δ} {s : σ} : p.thread t = some (c, .atom f k) →
      p.locks.Outside t → f p.state = some (b, s) →
      Step S may p ({ p with state := s }.goOn t c (k b))
  /-- a section in which nobody gets the lock or gives it up -/
  | inside {p : Cluster ε σ χ α} {i : LockId} {ev : Event} {q : Sys} : p.MayLock i ev →
      (p.locks i).exec ev = some (.ok q) → q.held = (p.locks i).held → Step S may p (p.setLock i q)
  /-- the section of `acquire` after which it returns -/
  | got {p : Cluster ε σ χ α} {i : LockId} {ev : Event} {q : Sys} {t : Thread} {c : χ}
      {k : Prog ε LockId σ α} : p.MayLock i ev → (p.locks i).exec ev = some (.ok q) →
      ¬ (p.locks i).Holds t → q.Holds t → p.thread t = some (c, .acquire i k) →
      Step S may p ((p.setLock i q).goOn t c k)
  /-- the first section of `release` -/
  | gave {p : Cluster ε σ χ α} {i : LockId} {q : Sys} {t : Thread} {c : χ}
      {k : Prog ε LockId σ α} : p.locks.Outside t → (p.locks i).exec (.release t) = some (.ok q) →
      p.thread t = some (c, .release i k) → Step S may p ((p.setLock i q).goOn t c k)

/-- What has ended stays ended, and what ends later comes after it. -/
theorem Step.log_prefix {S : Service ε LockId κ σ χ α} {may : χ → List (χ × α) → Prop}
    {p p' : Cluster ε σ χ α} (h : Step S may p p') : p.log <+: p'.log := by
  have hgo : ∀ (q : Cluster ε σ χ α) t c k, q.log = p.log → p.log <+: (q.goOn t c k).log := by
    intro q t c k hq
    rw [← hq]
    cases k with
    | ret a => exact List.prefix_append ..
    | fail | atom | acquire | release => exact List.prefix_rfl
  cases h with
  | inside => exact List.prefix_rfl
  | start | atom | got | gave => exact hgo _ _ _ _ rfl

/-- No lock id was ever used, and nobody does anything. -/
def Init (init : σ → Prop) (p : Cluster ε σ χ α) : Prop :=
  init p.state ∧ Lock.Init p.locks ∧ (∀ t, p.thread t = none) ∧ p.log = []

section Calls

variable {S : Service ε LockId κ σ χ α} {may : χ → List (χ × α) → Prop} {init : σ → Prop}
  {s : Cluster ε σ χ α} {t : Thread} {c : χ} {k : Prog ε LockId σ α}

/-- All calls were allowed when they were made: those that have ended, by what had ended before, and
those that are being made. -/
def Made (may : χ → List (χ × α) → Prop) (s : Cluster ε σ χ α) : Prop :=
  (∀ pre x post, s.log = pre ++ x :: post → may x.1 pre) ∧
    ∀ t c k, s.thread t = some (c, k) → may c s.log

theorem Made.goOn (h : Made may s) (hmono : ∀ c log log', may c log → may c (log ++ log'))
    (hc : may c s.log) : Made may (s.goOn t c k) := by
  cases k with
  | ret a =>
    refine ⟨fun pre x post hlog => ?_, fun t' c' k' hk => ?_⟩
    · replace hlog : s.log ++ [(c, a)] = pre ++ x :: post := hlog
      rcases List.eq_nil_or_concat post with rfl | ⟨post', y, rfl⟩
      · obtain ⟨rfl, hx⟩ := List.append_inj' hlog rfl
        cases hx
        exact hc
      · have hlog' : s.log ++ [(c, a)] = (pre ++ x :: post') ++ [y] := by simpa using hlog
        exact h.1 pre x post' (List.append_inj' hlog' rfl).1
    · replace hk : Function.update s.thread t none t' = some (c', k') := hk
      rw [Function.update_apply] at hk
      split_ifs at hk
      exact hmono _ _ _ (h.2 t' c' k' hk)
  | fail | atom | acquire | release =>
    refine ⟨h.1, fun t' c' k' hk => ?_⟩
    replace hk : Function.update s.thread t (some (c, _)) t' = some (c', k') := hk
    rw [Function.update_apply] at hk
    split_ifs at hk
    · cases hk
      exact hc
    · exact h.2 t' c' k' hk

/-- What may be made once may be made later; so it was allowed when it was made. -/
theorem made (hmono : ∀ c log log', may c log → may c (log ++ log'))
    (h : Reachable (Init init) (Step S may) s) : Made may s := by
  induction h with
  | start hs =>
    obtain ⟨-, -, hth, hlog⟩ := hs
    refine ⟨fun pre x post hp => ?_, fun t c k hk => ?_⟩
    · rw [hlog] at hp
      simp at hp
    · rw [hth t] at hk
      cases hk
  | next _ hstep ih =>
    cases hstep with
    | start hth hne hout hmay => exact ih.goOn hmono hmay
    | atom hth hout hf => exact Made.goOn ih hmono (ih.2 _ _ _ hth)
    | inside hmay hex hheld => exact ih
    | got hmay hex hno hh hth => exact Made.goOn ih hmono (ih.2 _ _ _ hth)
    | gave hout hex hth => exact Made.goOn ih hmono (ih.2 _ _ _ hth)

end Calls

/-! ## The pool behind a cluster -/

/-- The pool in which a lock is owned by the thread that holds it. -/
structure Matches (s : Cluster ε σ χ α) (p : Pool ε LockId σ χ α Thread) : Prop where
  state : p.state = s.state
  thread : p.thread = s.thread
  log : p.log = s.log
  owner : ∀ i t, p.owner i = some t ↔ (s.locks i).Holds t

section Simulation

variable {S : Service ε LockId κ σ χ α} {may : χ → List (χ × α) → Prop} {init : σ → Prop}
  {s s' : Cluster ε σ χ α} {p : Pool ε LockId σ χ α Thread} {t : Thread} {i : LockId} {q : Sys}

/-- The programs go on. -/
theorem Matches.goOn (h : s.Matches p) {c : χ} {k : Prog ε LockId σ α} :
    (s.goOn t c k).Matches (p.goOn t c k) := by
  cases k with
  | ret a => exact ⟨h.state, by simp [Cluster.goOn, Pool.goOn, h.thread],
      by simp [Cluster.goOn, Pool.goOn, h.log], h.owner⟩
  | fail | atom | acquire | release => exact ⟨h.state, by simp [Cluster.goOn, Pool.goOn, h.thread],
      h.log, h.owner⟩

/-- A lock that nobody holds has no owner. -/
theorem Matches.owner_eq_none (h : s.Matches p) (hfree : ∀ t, ¬ (s.locks i).Holds t) :
    p.owner i = none := by
  by_contra hne
  obtain ⟨t, ht⟩ := Option.ne_none_iff_exists'.mp hne
  exact hfree t ((h.owner i t).mp ht)

/-- A section of the lock service, and who owns the lock then. -/
theorem Matches.setLock (h : s.Matches p) {o : Option Thread} (ho : ∀ t, o = some t ↔ q.Holds t) :
    (s.setLock i q).Matches { p with owner := Function.update p.owner i o } := by
  refine ⟨h.state, h.thread, h.log, fun j t => ?_⟩
  show Function.update p.owner i o j = some t ↔ (Function.update s.locks i q j).Holds t
  by_cases hj : j = i
  · subst hj
    rw [Function.update_self, Function.update_self]
    exact ho t
  · rw [Function.update_of_ne hj, Function.update_of_ne hj]
    exact h.owner j t

/-- **One step of a cluster is one of the pool**, or it is a section in which nobody gets the lock
or gives it up. -/
theorem Matches.step (hcond : ∀ c i x, S.cond c i x) (hsound : ∀ i, Sound (s.locks i))
    (h : s.Matches p) (hs : Step S may s s') :
    ∃ p', s'.Matches p' ∧ (p' = p ∧ (∃ i ev q, s.MayLock i ev ∧
      (s.locks i).exec ev = some (.ok q) ∧ q.held = (s.locks i).held ∧ s' = s.setLock i q) ∨
      Pool.Step S may p p') := by
  cases hs with
  | @start t c hth hne hout hmay =>
    exact ⟨_, h.goOn, .inr (.start (by rw [h.thread, hth]) (by rwa [h.log]))⟩
  | @atom t c δ f k b x hth hout hf =>
    have hm : ({ s with state := x } : Cluster ε σ χ α).Matches { p with state := x } :=
      ⟨rfl, h.thread, h.log, h.owner⟩
    exact ⟨_, hm.goOn, .inr (.atom (by rw [h.thread, hth]) (by rwa [h.state]))⟩
  | @inside i ev q hmay hex hheld =>
    refine ⟨p, ⟨h.state, h.thread, h.log, fun j t => ?_⟩,
      .inl ⟨rfl, i, ev, q, hmay, hex, hheld, rfl⟩⟩
    rw [h.owner]
    show _ ↔ (Function.update s.locks i q j).Holds t
    by_cases hj : j = i
    · subst hj
      rw [Function.update_self, Sys.Holds, Sys.Holds, hheld]
    · rw [Function.update_of_ne hj]
  | @got i ev q t c k hmay hex hno hholds hth =>
    obtain ⟨g', hg'⟩ := ((hsound i).step hex).inv
    obtain ⟨g, hg⟩ := (hsound i).inv
    obtain ⟨n, hn⟩ := hholds
    -- nobody had the lock before, since only `t` has it now
    have hfree : p.owner i = none := by
      by_contra hne
      obtain ⟨u, hu⟩ := Option.ne_none_iff_exists'.mp hne
      obtain ⟨m, hm⟩ := (h.owner i u).mp hu
      have hut : u ≠ t := by
        rintro rfl
        exact hno ⟨m, hm⟩
      cases hg.use (hsound i).fresh (Sys.steps_of_exec hex) with
      | inside _ hheld => exact hno ⟨n, by rw [← hheld, hn]⟩
      | @got v k' _ hv hheld =>
        have huv : u ≠ v := by
          rintro rfl
          rw [hv] at hm
          cases hm
        have hu' : q.held u = some m := by rw [hheld, Function.update_of_ne huv, hm]
        exact hut (hg'.held_unique hu' hn)
      | @gave v k' _ _ hheld =>
        by_cases htv : t = v
        · rw [hheld, htv, Function.update_self] at hn
          cases hn
        · rw [hheld, Function.update_of_ne htv] at hn
          exact hno ⟨n, hn⟩
    refine ⟨_, (h.setLock fun u => ?_).goOn, .inr (.acquire (by rw [h.thread, hth]) hfree
      (hcond c i p.state))⟩
    constructor
    · intro hu
      obtain rfl := Option.some.inj hu
      exact ⟨n, hn⟩
    · rintro ⟨m, hm⟩
      rw [hg'.held_unique hm hn]
  | @gave i q t c k hout hex hth =>
    obtain ⟨g, hg⟩ := (hsound i).inv
    cases hg.use (hsound i).fresh (Sys.steps_of_exec hex) with
    | inside hrel => exact absurd rfl (hrel t)
    | got hev => cases hev
    | @gave v n hv hhad hheld =>
      cases hv
      refine ⟨_, (h.setLock (o := none) fun u => ?_).goOn,
        .inr (.release (by rw [h.thread, hth]) ((h.owner i t).mpr ⟨n, hhad⟩))⟩
      constructor
      · exact nofun
      · rintro ⟨m, hm⟩
        by_cases hut : u = t
        · rw [hheld, hut, Function.update_self] at hm
          cases hm
        · rw [hheld, Function.update_of_ne hut] at hm
          exact absurd (hg.held_unique hm hhad) hut

/-- The locks are in states that the lock service can get to. -/
theorem Step.sound (hsound : ∀ i, Sound (s.locks i)) (hs : Step S may s s') (i : LockId) :
    Sound (s'.locks i) := by
  have hgo : ∀ (x : Cluster ε σ χ α) t c k, (x.goOn t c k).locks = x.locks := by
    intro x t c k
    cases k <;> rfl
  have hset : ∀ {j ev q}, (s.locks j).exec ev = some (.ok q) → Sound ((s.setLock j q).locks i) := by
    intro j ev q hex
    show Sound (Function.update s.locks j q i)
    by_cases hi : i = j
    · subst hi
      rw [Function.update_self]
      exact (hsound i).step hex
    · rw [Function.update_of_ne hi]
      exact hsound i
  cases hs with
  | start | atom =>
    rw [hgo]
    exact hsound i
  | inside _ hex => exact hset hex
  | got _ hex | gave _ hex =>
    rw [hgo]
    exact hset hex

/-- **The lock service implements locks**: what the programs of a cluster do, whatever the lock
service does meanwhile, is a run of the pool. -/
theorem simulates (hcond : ∀ c i x, S.cond c i x) (h : Reachable (Init init) (Step S may) s) :
    (∀ i, Sound (s.locks i)) ∧
      ∃ p, Reachable (Pool.Init init) (Pool.Step S may) p ∧ s.Matches p := by
  induction h with
  | @start s h =>
    obtain ⟨hinit, hlocks, hth, hlog⟩ := h
    refine ⟨fun i => ?_, ⟨s.state, fun _ => none, s.thread, s.log⟩,
      .start ⟨hinit, fun _ => rfl, hth, hlog⟩, rfl, rfl, rfl, fun i t => ?_⟩
    · rw [hlocks i]
      exact sound_init
    · rw [hlocks i]
      constructor
      · exact nofun
      · rintro ⟨n, hn⟩
        cases hn
  | next _ hs ih =>
    obtain ⟨hsound, p, hp, hm⟩ := ih
    obtain ⟨p', hm', ⟨rfl, -⟩ | hstep⟩ := hm.step hcond hsound hs
    · exact ⟨hs.sound hsound, p', hp, hm'⟩
    · exact ⟨hs.sound hsound, p', hp.next hstep, hm'⟩

end Simulation

/-! ## Programs and the lock service together -/

/-- The lock service is in order, and works only for threads whose programs have come to a lock. -/
structure Coupled (s : Cluster ε σ χ α) : Prop where
  sound : ∀ i, Sound (s.locks i)
  calls : ∀ i t, ((s.locks i).pc t).acquires → ∃ c k, s.thread t = some (c, .acquire i k)
  named : ∀ t, s.thread t ≠ none → t.client ≠ ""

section Coupling

variable {S : Service ε LockId κ σ χ α} {may : χ → List (χ × α) → Prop} {init : σ → Prop}
  {s s' : Cluster ε σ χ α} {t : Thread} {i : LockId} {ev : Event} {q : Sys}

theorem coupled_init (h : Init init s) : s.Coupled := by
  obtain ⟨-, hlocks, hth, -⟩ := h
  refine ⟨fun i => ?_, fun i t ht => ?_, fun t ht => absurd (hth t) ht⟩
  · rw [hlocks i]
    exact sound_init
  · rw [hlocks i] at ht
    exact ht.elim

/-- A program goes on that is not in `acquire`. -/
theorem Coupled.goOn (h : s.Coupled) {c : χ} {k : Prog ε LockId σ α} (hne : t.client ≠ "")
    (hno : ∀ i, ¬ ((s.locks i).pc t).acquires) : (s.goOn t c k).Coupled := by
  have hother : ∀ u, u ≠ t → (s.goOn t c k).thread u = s.thread u := by
    intro u hu
    cases k <;> simp [Cluster.goOn, hu]
  have hlocks : (s.goOn t c k).locks = s.locks := by
    cases k <;> rfl
  refine ⟨hlocks ▸ h.sound, fun i u hu => ?_, fun u hu => ?_⟩
  · rw [hlocks] at hu
    by_cases hut : u = t
    · exact absurd (hut ▸ hu) (hno i)
    · rw [hother u hut]
      exact h.calls i u hu
  · by_cases hut : u = t
    · exact hut ▸ hne
    · rw [hother u hut] at hu
      exact h.named u hu

/-- A section of the lock service, run for a thread that has come to the lock. -/
theorem Coupled.setLock (h : s.Coupled) (hq : Sound q) (hcalls : ∀ t, (q.pc t).acquires →
    ∃ c k, s.thread t = some (c, .acquire i k)) : (s.setLock i q).Coupled := by
  refine ⟨fun j => ?_, fun j t ht => ?_, h.named⟩
  · show Sound (Function.update s.locks i q j)
    by_cases hj : j = i
    · subst hj
      rwa [Function.update_self]
    · rw [Function.update_of_ne hj]
      exact h.sound j
  · change ((Function.update s.locks i q j).pc t).acquires at ht
    by_cases hj : j = i
    · subst hj
      rw [Function.update_self] at ht
      exact hcalls t ht
    · rw [Function.update_of_ne hj] at ht
      exact h.calls j t ht

/-- What a section is to the users of the lock. -/
theorem Coupled.use (h : s.Coupled) (hex : (s.locks i).exec ev = some (.ok q)) :
    (s.locks i).Use q ev := by
  obtain ⟨g, hg⟩ := (h.sound i).inv
  exact hg.use (h.sound i).fresh (Sys.steps_of_exec hex)

/-- Whoever is in `acquire` after a section has come to the lock. -/
theorem Coupled.calls_of_exec (h : s.Coupled) (hmay : s.MayLock i ev)
    (hex : (s.locks i).exec ev = some (.ok q)) (ht : (q.pc t).acquires) :
    ∃ c k, s.thread t = some (c, .acquire i k) := by
  cases h.use hex with
  | inside _ _ hpc =>
    rcases (hpc t).mp ht with ht | ⟨addr, rfl⟩
    · exact h.calls i t ht
    · exact hmay.2
  | got _ _ _ _ hpc => exact h.calls i t ((hpc t).mp ht).2
  | gave _ _ _ hpc => exact h.calls i t ((hpc t).mp ht)

/-- **One step.** -/
theorem Coupled.step (h : s.Coupled) (hs : Step S may s s') : s'.Coupled := by
  cases hs with
  | @start t c hth hne hout hmay =>
    refine h.goOn hne fun i hi => ?_
    obtain ⟨c', k, hth'⟩ := h.calls i t hi
    rw [hth] at hth'
    cases hth'
  | @atom t c δ f k b x hth hout hf =>
    have hx : ({ s with state := x } : Cluster ε σ χ α).Coupled := ⟨h.sound, h.calls, h.named⟩
    refine hx.goOn (h.named t (by simp [hth])) fun i hi => ?_
    obtain ⟨c', k', hth'⟩ := h.calls i t hi
    rw [hth] at hth'
    cases hth'
  | @inside i ev q hmay hex hheld =>
    exact h.setLock ((h.sound i).step hex) fun t => h.calls_of_exec hmay hex
  | @got i ev q t c k hmay hex hno hholds hth =>
    have hset := h.setLock ((h.sound i).step hex) fun t => h.calls_of_exec hmay hex
    refine hset.goOn (h.named t (by simp [hth])) fun j hj => ?_
    obtain ⟨c', k', hth'⟩ := hset.calls j t hj
    change s.thread t = _ at hth'
    rw [hth] at hth'
    cases hth'
    change ((Function.update s.locks i q i).pc t).acquires at hj
    rw [Function.update_self] at hj
    obtain ⟨n, hn⟩ := hholds
    cases h.use hex with
    | inside _ hheld => exact hno ⟨n, by rw [← hheld, hn]⟩
    | @got v m _ _ hheld _ hpc =>
      have htv : t ≠ v := ((hpc t).mp hj).1
      exact hno ⟨n, by rw [hheld, Function.update_of_ne htv] at hn; exact hn⟩
    | @gave v m _ _ hheld =>
      by_cases htv : t = v
      · rw [hheld, htv, Function.update_self] at hn
        cases hn
      · exact hno ⟨n, by rw [hheld, Function.update_of_ne htv] at hn; exact hn⟩
  | @gave i q t c k hout hex hth =>
    have hset := h.setLock ((h.sound i).step hex)
      fun u => h.calls_of_exec (show s.MayLock i (.release t) from ⟨hout, c, k, hth⟩) hex
    refine hset.goOn (h.named t (by simp [hth])) fun j hj => ?_
    obtain ⟨c', k', hth'⟩ := hset.calls j t hj
    change s.thread t = _ at hth'
    rw [hth] at hth'
    cases hth'

theorem coupled_reachable (h : Reachable (Init init) (Step S may) s) : s.Coupled :=
  h.invariant (fun _ => coupled_init) fun _ _ hs hstep => hs.step hstep

/-- **No section of the lock service is left out**: whatever it can do for the threads whose
programs have come to a lock is a step. -/
theorem Coupled.exec_step (h : s.Coupled) (S : Service ε LockId κ σ χ α)
    (may : χ → List (χ × α) → Prop) (hmay : s.MayLock i ev)
    (hex : (s.locks i).exec ev = some (.ok q)) :
    ∃ s', Step S may s s' ∧ s'.locks = Function.update s.locks i q := by
  have hgo : ∀ t c k, ((s.setLock i q).goOn t c k).locks = Function.update s.locks i q := by
    intro t c k
    cases k <;> rfl
  cases h.use hex with
  | inside _ hheld => exact ⟨_, .inside hmay hex hheld, rfl⟩
  | @got t n hev hno hheld hwas =>
    obtain ⟨c, k, hth⟩ : ∃ c k, s.thread t = some (c, .acquire i k) := by
      rcases hwas with hwas | ⟨addr, rfl⟩
      · exact h.calls i t hwas
      · exact hmay.2
    have hno' : ¬ (s.locks i).Holds t := by
      rintro ⟨m, hm⟩
      rw [hno] at hm
      cases hm
    exact ⟨_, .got hmay hex hno' ⟨n, by rw [hheld, Function.update_self]⟩ hth, hgo t c k⟩
  | @gave t n hev =>
    subst hev
    obtain ⟨hout, c, k, hth⟩ := hmay
    exact ⟨_, .gave hout hex hth, hgo t c k⟩

end Coupling

/-! ## The end of the work -/

/-- A step that makes no new call. -/
abbrev Work (S : Service ε LockId κ σ χ α) : Cluster ε σ χ α → Cluster ε σ χ α → Prop :=
  Step S fun _ _ => False

theorem Step.mono {S : Service ε LockId κ σ χ α} {may may' : χ → List (χ × α) → Prop}
    {s s' : Cluster ε σ χ α} (h : Step S may s s') (hm : ∀ c log, may c log → may' c log) :
    Step S may' s s' := by
  cases h with
  | start hth hne hout hc => exact .start hth hne hout (hm _ _ hc)
  | atom hth hout hf => exact .atom hth hout hf
  | inside hmay hex hheld => exact .inside hmay hex hheld
  | got hmay hex hno hh hth => exact .got hmay hex hno hh hth
  | gave hout hex hth => exact .gave hout hex hth

section Progress

variable {S : Service ε LockId κ σ χ α} {s s' : Cluster ε σ χ α}
  {p : Pool ε LockId σ χ α Thread} {t : Thread} {i : LockId} {q : Sys} {r : LockId → LockId → Prop}

/-- What the lock service can do on its own is a step of the cluster. -/
theorem Coupled.work_of_lock (h : s.Coupled) (hw : (s.locks i).Work q) : ∃ s', Work S s s' := by
  obtain ⟨ev, hev, hex⟩ := hw
  have hmay : s.MayLock i ev := by
    cases ev with
    | acquire | release => cases hev
    | wake | serve | sendRevoke | revoke | retry | reply => trivial
  obtain ⟨s', hs', -⟩ := h.exec_step S (fun _ _ => False) hmay hex
  exact ⟨s', hs'⟩

/-- Where all locks are at rest, a thread is in no call of the lock service but the one that its
program has come to. -/
theorem Coupled.outside_of_rest (h : s.Coupled) (hrest : ∀ i, (s.locks i).AtRest)
    (hno : ∀ i c k, s.thread t = some (c, .acquire i k) → (s.locks i).pc t = .idle) :
    s.locks.Outside t := by
  intro i
  obtain ⟨g, hg⟩ := (h.sound i).inv
  rcases hg.asleep (hrest i) t with hpc | ⟨w, n, hpc⟩
  · exact hpc
  · obtain ⟨c, k, hth⟩ := h.calls i t (by rw [hpc]; trivial)
    exact hno i c k hth

/-- A thread that has come to a lock that nobody has calls `acquire`. -/
theorem Coupled.acquires (h : s.Coupled) (hout : s.locks.Outside t) {c : χ}
    {k : Prog ε LockId σ α} (hth : s.thread t = some (c, .acquire i k)) : ∃ s', Work S s s' := by
  -- `new` returns memory that is not in use
  obtain ⟨addr, haddr⟩ := Infinite.exists_notMem_finset
    (((s.locks i).ent t.client).threads.map QueuingThread.addr).toFinset
  have hex : ∃ x, (s.locks i).exec (.acquire t addr) = some x := by
    have hnew : (⟨t.tid, addr⟩ : QueuingThread) ∉ ((s.locks i).ent t.client).threads :=
      fun hm => haddr (List.mem_toFinset.mpr (List.mem_map_of_mem hm))
    exact ⟨_, if_pos ⟨hout i, h.named t (by simp [hth]), hnew⟩⟩
  obtain ⟨x, hx⟩ := hex
  obtain ⟨g, hg⟩ := (h.sound i).inv
  obtain ⟨q, -, rfl, -⟩ := hg.exec_ok hx
  have hmay : s.MayLock i (.acquire t addr) := ⟨hout, c, k, hth⟩
  obtain ⟨s', hs', -⟩ := h.exec_step S (fun _ _ => False) hmay hx
  exact ⟨s', hs'⟩

/-- **No deadlock**: as long as a call has not ended, some thread or some lock can go on, or a
thread has halted. -/
theorem Coupled.goes_on (h : s.Coupled) (hm : s.Matches p) (hr : WellFounded (Function.swap r))
    (hp : p.Disciplined r) (hcond : ∀ c i x, S.cond c i x) (hactive : p.active.Nonempty) :
    (∃ s', Work S s s') ∨ ∃ t, p.Halted t := by
  by_cases hrest : ∀ i, (s.locks i).AtRest
  case neg =>
    obtain ⟨i, hi⟩ := not_forall.mp hrest
    obtain ⟨q, hq⟩ := not_forall_not.mp hi
    exact .inl (h.work_of_lock hq)
  refine (hp.goes_on hr hcond hactive).imp (fun ⟨p', hp'⟩ => ?_) id
  cases hp' with
  | start _ hmay => exact hmay.elim
  | @atom t c δ f k b x hth hf =>
    rw [hm.thread] at hth
    have hout := h.outside_of_rest (t := t) hrest fun i c' k' hth' => by
      rw [hth] at hth'
      cases hth'
    rw [hm.state] at hf
    exact ⟨_, .atom hth hout hf⟩
  | @acquire t c i k hth hfree =>
    rw [hm.thread] at hth
    obtain ⟨g, hg⟩ := (h.sound i).inv
    refine h.acquires (h.outside_of_rest hrest fun j c' k' hth' => ?_) hth
    rw [hth] at hth'
    cases hth'
    by_contra hpc
    -- if it were asleep, somebody would have the lock
    obtain ⟨u, hu⟩ := hg.held_of_rest (h.sound i).attended (hrest i) hpc
    rw [(hm.owner i u).mpr hu] at hfree
    cases hfree
  | @release t c i k hth how =>
    rw [hm.thread] at hth
    have hout := h.outside_of_rest (t := t) hrest fun i c' k' hth' => by
      rw [hth] at hth'
      cases hth'
    obtain ⟨n, hn⟩ := (hm.owner i t).mp how
    obtain ⟨g, hg⟩ := (h.sound i).inv
    obtain ⟨e, fin, heq, -⟩ := hg.exec_release (hout i) hn
    have hex : ∃ x, (s.locks i).exec (.release t) = some x := by
      simp only [Sys.exec, hout i, hn]
      exact ⟨_, rfl⟩
    obtain ⟨x, hx⟩ := hex
    obtain ⟨q, -, rfl, -⟩ := hg.exec_ok hx
    have hmay : s.MayLock i (.release t) := ⟨hout, c, k, hth⟩
    obtain ⟨s', hs', -⟩ := h.exec_step S (fun _ _ => False) hmay hx
    exact ⟨s', hs'⟩

end Progress

section Ends

variable {S : Service ε LockId κ σ χ α} {s s' : Cluster ε σ χ α}
  {p : Pool ε LockId σ χ α Thread} {t : Thread} {i : LockId} {ev : Event} {q : Sys}

/-- A thread that has come to the lock `i` has yet to call `acquire`. -/
def due (x : Option (χ × Prog ε LockId σ α)) (i : LockId) : Pc → ℕ
  | .waiting _ _ _ | .acquiring _ _ => 0
  | .idle | .releasing _ _ =>
    match x with
    | some (_, .acquire j _) => if j = i then 18 else 0
    | _ => 0

theorem due_congr {x : Option (χ × Prog ε LockId σ α)} {pc pc' : Pc}
    (h : pc'.acquires ↔ pc.acquires) : due x i pc' = due x i pc := by
  cases pc <;> cases pc' <;> first | rfl | simp [Pc.acquires] at h

/-- How far the thread is from the end of its call at the lock `i`. -/
def left (s : Cluster ε σ χ α) (i : LockId) (t : Thread) : ℕ :=
  (s.locks i).left t + due (s.thread t) i ((s.locks i).pc t)

theorem left_setLock (s : Cluster ε σ χ α) (i j : LockId) (q : Sys) (t : Thread) :
    (s.setLock i q).left j t =
      if j = i then q.left t + due (s.thread t) i (q.pc t) else s.left j t := by
  show (Function.update s.locks i q j).left t + due (s.thread t) j _ = _
  by_cases hj : j = i
  · subst hj
    simp [setLock]
  · simp [setLock, hj, left]

/-- A section in which nobody gets the lock or gives it up brings a thread closer to the end of its
call, and takes none away from it. -/
theorem Coupled.left_inside (h : s.Coupled) (hmay : s.MayLock i ev)
    (hex : (s.locks i).exec ev = some (.ok q)) (hheld : q.held = (s.locks i).held) :
    ∃ a, (s.setLock i q).left i a < s.left i a ∧
      ∀ j b, (s.setLock i q).left j b ≤ s.left j b := by
  obtain ⟨g, hg⟩ := (h.sound i).inv
  -- all that counts is what the section does to the threads at this lock
  suffices hsuff : ∃ a, q.left a + due (s.thread a) i (q.pc a) < s.left i a ∧
      ∀ b, b ≠ a → q.left b + due (s.thread b) i (q.pc b) ≤ s.left i b by
    obtain ⟨a, ha, hb⟩ := hsuff
    refine ⟨a, by rwa [left_setLock, if_pos rfl], fun j b => ?_⟩
    rw [left_setLock]
    split_ifs with hj
    · subst hj
      by_cases hba : b = a
      · exact hba ▸ ha.le
      · exact hb b hba
    · exact le_rfl
  cases h.use hex with
  | @got u n _ hno hheld' =>
    have hu := congrFun (hheld.symm.trans hheld') u
    rw [Function.update_self, hno] at hu
    cases hu
  | @gave u n _ hhad hheld' =>
    have hu := congrFun (hheld.symm.trans hheld') u
    rw [Function.update_self, hhad] at hu
    cases hu
  | inside hrel _ hpc =>
    have hwork : ev.caller = none → (∀ b addr, ev ≠ .acquire b addr) →
        ∃ a, q.left a + due (s.thread a) i (q.pc a) < s.left i a ∧
          ∀ b, b ≠ a → q.left b + due (s.thread b) i (q.pc b) ≤ s.left i b := by
      intro hev hcalls
      obtain ⟨a, hlt, hb⟩ := hg.less (Sys.steps_of_exec hex) hev
      have hsame : ∀ b, (q.pc b).acquires ↔ ((s.locks i).pc b).acquires := by
        intro b
        rw [hpc b, or_iff_left]
        exact fun ⟨addr, h⟩ => hcalls b addr h
      refine ⟨a, ?_, fun b hba => ?_⟩
      · rw [due_congr (hsame a)]
        exact Nat.add_lt_add_right hlt _
      · rw [due_congr (hsame b)]
        exact Nat.add_le_add_right (hb b hba) _
    cases Sys.steps_of_exec hex with
    | release | leave => exact absurd rfl (hrel _)
    | @acquire a addr r q hidle hne hnew hr hq =>
      obtain ⟨e', next⟩ := r
      obtain ⟨-, c, k, hth⟩ := hmay
      refine ⟨a, ?_, fun b hb => ?_⟩
      · -- the call has been made
        have hacq : (q.pc a).acquires := (hpc a).mpr (.inr ⟨addr, rfl⟩)
        have hdue : due (s.thread a) i (q.pc a) = 0 := by
          cases hq' : q.pc a <;> rw [hq'] at hacq <;> first | rfl | exact hacq.elim
        have hwas : s.left i a = 18 := by
          simp [left, Sys.left_eq_zero.mpr hidle, hidle, due, hth]
        have hle : q.left a ≤ 17 := Pc.left_le _
        omega
      · have hsame : (q.pc b).acquires ↔ ((s.locks i).pc b).acquires := by
          rw [hpc b, or_iff_left]
          rintro ⟨addr', heq⟩
          cases heq
          exact hb rfl
        rw [(Sys.left_resume hq).1 b hb, due_congr hsame]
        exact le_rfl
    | wake | serveAcquire | serveRelease | sendRevoke | revoke | retry | replyAcquire | replyRevoke
    | replyRelease => exact hwork rfl nofun

/-- Only threads in a call have a way to go. -/
theorem Coupled.left_finite (h : s.Coupled) (hm : s.Matches p) (hfin : p.active.Finite) :
    {t | ∃ i, s.left i t ≠ 0}.Finite := by
  refine (hfin.union (Set.finite_iUnion fun i => (h.sound i).finite)).subset fun t ⟨i, ht⟩ => ?_
  by_cases hth : s.thread t = none
  · refine .inr (Set.mem_iUnion.mpr ⟨i, fun hpc => ht ?_⟩)
    rw [left, Sys.left_eq_zero.mpr hpc, hpc, hth]
    rfl
  · exact .inl (by rwa [Pool.active, Set.mem_ofPred_eq, hm.thread])

/-- **The work ends**: programs over the lock service do not go on forever without new calls. -/
theorem work_ends (hcond : ∀ c i x, S.cond c i x) (h : s.Coupled) (hm : s.Matches p)
    (hfin : p.active.Finite) : Acc (fun s' s => Work S s s') s := by
  -- a step is one of the pool, which has only so many, or brings the lock service closer to rest
  induction Pool.work_ends (S := S) hfin generalizing s with
  | intro p _ ihp =>
    obtain ⟨T, hT⟩ := (h.left_finite hm hfin).exists_finset_coe
    have hzero : ∀ t, t ∉ T → ∀ i, s.left i t = 0 := by
      intro t ht i
      by_contra hne
      exact ht (Finset.mem_coe.mp (hT.symm ▸ ⟨i, hne⟩))
    clear hT
    induction hn : ∑ i : LockId, ∑ t ∈ T, s.left i t using Nat.strong_induction_on
      generalizing s with
    | h n ihn =>
      refine ⟨_, fun s' hs => ?_⟩
      obtain ⟨p', hm', hp'⟩ := hm.step hcond h.sound hs
      rcases hp' with ⟨rfl, i, ev, q, hmay, hex, hheld, rfl⟩ | hp'
      · obtain ⟨a, hlt, hle⟩ := h.left_inside hmay hex hheld
        have ha : a ∈ T := by
          by_contra ha
          rw [hzero a ha] at hlt
          exact Nat.not_lt_zero _ hlt
        refine ihn _ ?_ (h.step hs) hm' (fun t ht j => ?_) rfl
        · rw [← hn]
          exact Finset.sum_lt_sum (fun j _ => Finset.sum_le_sum fun t _ => hle j t)
            ⟨i, Finset.mem_univ i, Finset.sum_lt_sum (fun t _ => hle i t) ⟨a, ha, hlt⟩⟩
        · exact Nat.le_zero.mp (hzero t ht j ▸ hle j t)
      · exact ihp p' hp' (h.step hs) hm' (Pool.Work.finite hp' hfin)

end Ends

/-! ### Runs on given inputs -/

/-- A step that a run is to take. -/
inductive Act (χ : Type) where
  | start (t : Thread) (c : χ)
  | atom (t : Thread)
  | lock (i : LockId) (ev : Event)

section Script

variable {S : Service ε LockId κ σ χ α} {may : χ → List (χ × α) → Prop} {init : σ → Prop}
  {ok : χ → List (χ × α) → Bool} {used : List LockId} {s s' : Cluster ε σ χ α} {t : Thread}
  {i : LockId} {ev : Event} {q : Sys}

/-- The thread is in no call of the lock service, if only the locks of `used` are in use. -/
def outside (used : List LockId) (s : Cluster ε σ χ α) (t : Thread) : Bool :=
  used.all fun i => (s.locks i).pc t = .idle

/-- The lock at which the program of the thread calls `acquire`, or `release`. -/
def comesTo (s : Cluster ε σ χ α) (t : Thread) : Option LockId × Option LockId :=
  match s.thread t with
  | some (_, .acquire i _) => (some i, none)
  | some (_, .release i _) => (none, some i)
  | _ => (none, none)

def mayLock (used : List LockId) (s : Cluster ε σ χ α) (i : LockId) : Event → Bool
  | .acquire t _ => s.outside used t ∧ (s.comesTo t).1 = some i
  | .release t => s.outside used t ∧ (s.comesTo t).2 = some i
  | _ => true

/-- A thread goes on with what comes after the lock that it has come to. -/
def pass (s : Cluster ε σ χ α) (t : Thread) : Cluster ε σ χ α :=
  match s.thread t with
  | some (c, .acquire _ k) | some (c, .release _ k) => s.goOn t c k
  | _ => s

/-- The thread that goes on after the section: it has got the lock, or given it up. -/
def returns (s : Cluster ε σ χ α) (i : LockId) (q : Sys) : Event → Option Thread
  | .release t => some t
  | ev => ev.acquirer.filter fun t => (s.locks i).held t = none ∧ q.held t ≠ none

/-- Take one step, if it can be taken; `ok` decides on calls. -/
def act (S : Service ε LockId κ σ χ α) (ok : χ → List (χ × α) → Bool) (used : List LockId)
    (s : Cluster ε σ χ α) : Act χ → Option (Cluster ε σ χ α)
  | .start t c =>
    if (s.thread t).isNone ∧ t.client ≠ "" ∧ s.outside used t ∧ ok c s.log then
      some (s.goOn t c (S.prog c))
    else none
  | .atom t =>
    match s.thread t with
    | some (c, .atom f k) =>
      if s.outside used t then
        (f s.state).map fun r => { s with state := r.2 }.goOn t c (k r.1)
      else none
    | _ => none
  | .lock i ev =>
    match (s.locks i).exec ev with
    | some (.ok q) =>
      if i ∈ used ∧ s.mayLock used i ev then
        match s.returns i q ev with
        | some t => some ((s.setLock i q).pass t)
        | none => some (s.setLock i q)
      else none
    | _ => none

/-- Take steps one after the other. -/
def acts (S : Service ε LockId κ σ χ α) (ok : χ → List (χ × α) → Bool) (used : List LockId) :
    List (Act χ) → Cluster ε σ χ α → Option (Cluster ε σ χ α)
  | [], s => some s
  | x :: xs, s => (s.act S ok used x).bind (acts S ok used xs)

/-- The locks that are not in `used` were never used. -/
def Unused (used : List LockId) (s : Cluster ε σ χ α) : Prop := ∀ i, i ∉ used → s.locks i = {}

theorem Unused.outside (h : s.Unused used) (ht : s.outside used t) : s.locks.Outside t := by
  intro i
  by_cases hi : i ∈ used
  · exact of_decide_eq_true (List.all_eq_true.mp ht i hi)
  · rw [h i hi]

theorem Unused.mayLock (h : s.Unused used) (hm : s.mayLock used i ev) : s.MayLock i ev := by
  have hcomes : ∀ t, (s.comesTo t).1 = some i → ∃ c k, s.thread t = some (c, .acquire i k) := by
    intro t ht
    unfold comesTo at ht
    split at ht
    case h_1 c j k hth =>
      cases ht
      exact ⟨c, k, hth⟩
    case h_2 | h_3 => cases ht
  have hcomes' : ∀ t, (s.comesTo t).2 = some i → ∃ c k, s.thread t = some (c, .release i k) := by
    intro t ht
    unfold comesTo at ht
    split at ht
    case h_2 c j k hth =>
      cases ht
      exact ⟨c, k, hth⟩
    case h_1 | h_3 => cases ht
  cases ev with
  | acquire t addr =>
    obtain ⟨hout, ht⟩ := of_decide_eq_true hm
    exact ⟨h.outside hout, hcomes t ht⟩
  | release t =>
    obtain ⟨hout, ht⟩ := of_decide_eq_true hm
    exact ⟨h.outside hout, hcomes' t ht⟩
  | wake | serve | sendRevoke | revoke | retry | reply => trivial

/-- What is taken is a step. -/
theorem Step.of_act (hok : ∀ c log, ok c log → may c log) (hc : s.Coupled) (hu : s.Unused used)
    {x : Act χ} (h : s.act S ok used x = some s') : Step S may s s' ∧ s'.Unused used := by
  have hgo : ∀ {r : Cluster ε σ χ α} {t c k}, r.Unused used → (r.goOn t c k).Unused used := by
    intro r t c k hr
    cases k <;> exact hr
  cases x with
  | start t c =>
    simp only [act] at h
    split_ifs at h with hg
    cases h
    obtain ⟨hth, hne, hout, hm⟩ := hg
    exact ⟨.start (Option.isNone_iff_eq_none.mp hth) hne (hu.outside hout) (hok c s.log hm), hgo hu⟩
  | atom t =>
    simp only [act] at h
    split at h
    case h_2 => cases h
    case h_1 c δ f k hth =>
      split_ifs at h with hout
      obtain ⟨⟨b, y⟩, hf, rfl⟩ := Option.map_eq_some_iff.mp h
      have hy : ({ s with state := y } : Cluster ε σ χ α).Unused used := hu
      exact ⟨.atom hth (hu.outside hout) hf, hgo hy⟩
  | lock i ev =>
    simp only [act] at h
    split at h
    case h_2 => cases h
    case h_1 q hex =>
      split_ifs at h with hg
      obtain ⟨hi, hm⟩ := hg
      have hmay := hu.mayLock hm
      have hset : (s.setLock i q).Unused used := by
        intro j hj
        have hji : j ≠ i := by
          rintro rfl
          exact hj hi
        show Function.update s.locks i q j = {}
        rw [Function.update_of_ne hji]
        exact hu j hj
      cases hc.use hex with
      | inside hrel hheld =>
        have hnone : s.returns i q ev = none := by
          unfold returns
          split
          case h_1 => exact absurd rfl (hrel _)
          case h_2 =>
            rw [Option.filter_eq_none_iff]
            intro t _ ht
            obtain ⟨hno, hhas⟩ := of_decide_eq_true ht
            exact hhas (hheld ▸ hno)
        rw [hnone] at h
        cases h
        exact ⟨.inside hmay hex hheld, hset⟩
      | @got t n hev hno hheld hwas =>
        obtain ⟨c, k, hth⟩ : ∃ c k, s.thread t = some (c, .acquire i k) := by
          rcases hwas with hwas | ⟨addr, rfl⟩
          · exact hc.calls i t hwas
          · exact hmay.2
        have hhas : q.held t = some n := by rw [hheld, Function.update_self]
        have hsome : s.returns i q ev = some t := by
          unfold returns
          split
          case h_1 => cases hev
          case h_2 =>
            rw [hev]
            simp [Option.filter, hno, hhas]
        have hpass : (s.setLock i q).pass t = (s.setLock i q).goOn t c k := by
          unfold pass
          rw [show (s.setLock i q).thread t = some (c, .acquire i k) from hth]
        rw [hsome] at h
        cases h
        rw [hpass]
        refine ⟨.got hmay hex ?_ ⟨n, hhas⟩ hth, hgo hset⟩
        rintro ⟨m, hm⟩
        rw [hno] at hm
        cases hm
      | @gave t n hev =>
        subst hev
        obtain ⟨hout, c, k, hth⟩ := hmay
        have hpass : (s.setLock i q).pass t = (s.setLock i q).goOn t c k := by
          unfold pass
          rw [show (s.setLock i q).thread t = some (c, .release i k) from hth]
        cases h
        rw [hpass]
        exact ⟨.gave hout hex hth, hgo hset⟩

/-- Steps in a given order, that lead to what `obs` sees. -/
theorem reachable_acts {δ : Type} {obs : Cluster ε σ χ α → δ} {xs : List (Act χ)} {d : δ}
    (hok : ∀ c log, ok c log → may c log) (hinit : Init init s)
    (h : (acts S ok used xs s).map obs = some d) :
    ∃ s' : Cluster ε σ χ α, Reachable (Init init) (Step S may) s' ∧ obs s' = d := by
  obtain ⟨s', hs, hobs⟩ := Option.map_eq_some_iff.mp h
  refine ⟨s', ?_, hobs⟩
  have hr : Reachable (Init init) (Step S may) s := .start hinit
  have hu : s.Unused used := fun i _ => hinit.2.1 i
  clear h hinit
  induction xs generalizing s with
  | nil =>
    cases hs
    exact hr
  | cons x xs ih =>
    obtain ⟨r, hx, hs⟩ := Option.bind_eq_some_iff.mp hs
    obtain ⟨hstep, hu'⟩ := Step.of_act hok (coupled_reachable hr) hu hx
    exact ih hs (hr.next hstep) hu'

end Script

end Cluster

end Yfs.Lock
