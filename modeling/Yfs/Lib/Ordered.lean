import Mathlib.Data.DFinsupp.WellFounded
import Mathlib.Data.Set.Finite.Basic
import Yfs.Lib.Pool

/-!
# Locks that are taken in order

A thread that waits for a lock has only locks that come before it, if every program takes
its locks in one order (`Prog.Ordered`). So threads of a `Pool` never wait in a circle:
as long as a call has not ended, some thread can go on, unless one has run into a fault or
into a step that cannot be taken (`Pool.Disciplined.goes_on`). And programs are finite, so
without new calls the work of a pool comes to an end (`Pool.work_ends`).
-/

namespace Yfs

variable {ε ι κ σ χ α β τ : Type}

namespace Prog

/-! ## Programs that take their locks in order -/

/-- The program takes locks in the order `r`, gives up only locks that it has, and ends with
`Q`. `H` are the locks it has. -/
def Ordered (r : ι → ι → Prop) : Prog ε ι σ α → (α → Set ι → Prop) → Set ι → Prop
  | ret a, Q, H => Q a H
  | fail _, _, _ => True
  | atom _ k, Q, H => ∀ b, (k b).Ordered r Q H
  | acquire i k, Q, H => (∀ j ∈ H, r j i) ∧ k.Ordered r Q (insert i H)
  | release i k, Q, H => i ∈ H ∧ k.Ordered r Q (H \ {i})

/-- A program without locks that returns something with `R`. -/
def Lockless (R : α → Prop) : Prog ε ι σ α → Prop
  | ret a => R a
  | fail _ => True
  | atom _ k => ∀ b, (k b).Lockless R
  | acquire _ _ | release _ _ => False

section Rules

variable {r : ι → ι → Prop} {R : α → Prop} {H : Set ι} {Q : α → Set ι → Prop}

/-- **The rule of sequence.** -/
theorem Ordered.bind {p : Prog ε ι σ α} {k : α → Prog ε ι σ β} {Q : β → Set ι → Prop}
    (h : p.Ordered r (fun a H' => (k a).Ordered r Q H') H) : (p >>= k).Ordered r Q H := by
  induction p generalizing H with
  | ret a => exact h
  | fail e => trivial
  | atom f g ih => exact fun b => ih b (h b)
  | acquire i p ih => exact ⟨h.1, ih h.2⟩
  | release i p ih => exact ⟨h.1, ih h.2⟩

/-- A program goes on after a part of it that has no locks. -/
theorem Ordered.lockless {p : Prog ε ι σ α} {k : α → Prog ε ι σ β} {Q : β → Set ι → Prop}
    (h : p.Lockless R) (hk : ∀ a, R a → (k a).Ordered r Q H) : (p >>= k).Ordered r Q H := by
  induction p with
  | ret a => exact hk a h
  | fail e => trivial
  | atom f g ih => exact fun b => ih b (h b)
  | acquire i p => exact h.elim
  | release i p => exact h.elim

theorem lockless_pure {a : α} (h : R a) : (pure a : Prog ε ι σ α).Lockless R := h

theorem lockless_fail (e : ε) : (fail e : Prog ε ι σ α).Lockless R := trivial

theorem Lockless.bind {p : Prog ε ι σ α} {k : α → Prog ε ι σ β} {R' : β → Prop}
    (h : p.Lockless R) (hk : ∀ a, R a → (k a).Lockless R') : (p >>= k).Lockless R' := by
  induction p with
  | ret a => exact hk a h
  | fail e => trivial
  | atom f g ih => exact fun b => ih b (h b)
  | acquire i p => exact h.elim
  | release i p => exact h.elim

theorem Lockless.mono {p : Prog ε ι σ α} {R' : α → Prop} (h : p.Lockless R)
    (hR : ∀ a, R a → R' a) : p.Lockless R' := by
  rw [← bind_ret p]
  exact h.bind hR

end Rules

/-! ## What is left of a program -/

/-- `q` is what is left of `p` after one step. -/
inductive Tail : Prog ε ι σ α → Prog ε ι σ α → Prop
  | atom {δ : Type} {f : σ → Option (δ × σ)} {k : δ → Prog ε ι σ α} {b : δ} : Tail (k b) (atom f k)
  | acquire {i : ι} {k : Prog ε ι σ α} : Tail k (acquire i k)
  | release {i : ι} {k : Prog ε ι σ α} : Tail k (release i k)

/-- Programs are finite. -/
theorem tail_wf : WellFounded (Tail : Prog ε ι σ α → Prog ε ι σ α → Prop) := by
  refine ⟨fun p => ?_⟩
  induction p with
  | ret a => exact ⟨_, nofun⟩
  | fail e => exact ⟨_, nofun⟩
  | atom f k ih =>
    refine ⟨_, fun q hq => ?_⟩
    cases hq
    exact ih _
  | acquire i k ih =>
    refine ⟨_, fun q hq => ?_⟩
    cases hq
    exact ih
  | release i k ih =>
    refine ⟨_, fun q hq => ?_⟩
    cases hq
    exact ih

end Prog

namespace Pool

/-! ## Threads that keep the order -/

/-- The thread cannot go on: it has run into a fault, or its next step cannot be taken now. -/
def Halted (p : Pool ε ι σ χ α τ) (t : τ) : Prop :=
  ∃ c, (∃ e, p.thread t = some (c, .fail e)) ∨
    ∃ (δ : Type) (f : σ → Option (δ × σ)) (k : δ → Prog ε ι σ α),
      p.thread t = some (c, .atom f k) ∧ f p.state = none

/-- The threads in a call. -/
def active (p : Pool ε ι σ χ α τ) : Set τ := {t | p.thread t ≠ none}

/-- What is left of every call takes its locks in order and gives them all up, starting with
those that its thread has; a thread without a call has none. -/
structure Disciplined (r : ι → ι → Prop) (p : Pool ε ι σ χ α τ) : Prop where
  ordered : ∀ {t c k}, p.thread t = some (c, k) →
    (∀ a, k ≠ .ret a) ∧ k.Ordered r (fun _ H => H = ∅) {i | p.owner i = some t}
  idle : ∀ {t}, p.thread t = none → ∀ i, p.owner i ≠ some t
  finite : p.active.Finite

/-- What a thread has left to do is less than before: a tail of it, or nothing. -/
inductive Less : Option (χ × Prog ε ι σ α) → Option (χ × Prog ε ι σ α) → Prop
  | ended {c : χ} {k : Prog ε ι σ α} : Less none (some (c, k))
  | tail {c : χ} {k k' : Prog ε ι σ α} : k'.Tail k → Less (some (c, k')) (some (c, k))

theorem less_wf : WellFounded (Less : Option (χ × Prog ε ι σ α) → _ → Prop) := by
  have hnone : Acc (Less : Option (χ × Prog ε ι σ α) → _ → Prop) none := ⟨_, nofun⟩
  refine ⟨fun x => ?_⟩
  cases x with
  | none => exact hnone
  | some x =>
    obtain ⟨c, k⟩ := x
    induction k using Prog.tail_wf.induction with
    | h k ih =>
      refine ⟨_, fun y hy => ?_⟩
      cases hy with
      | ended => exact hnone
      | tail ht => exact ih _ ht

section GoOn

variable [DecidableEq τ] {p : Pool ε ι σ χ α τ}

@[simp] theorem goOn_owner (p : Pool ε ι σ χ α τ) (t : τ) (c : χ) (k : Prog ε ι σ α) :
    (p.goOn t c k).owner = p.owner := by
  cases k <;> rfl

/-- What a thread has left to do after `goOn`: nothing if its call has ended. -/
theorem goOn_thread (p : Pool ε ι σ χ α τ) (t : τ) (c : χ) (k : Prog ε ι σ α) :
    ∃ x, (p.goOn t c k).thread = Function.update p.thread t x ∧
      ((∃ a, k = .ret a ∧ x = none) ∨ (∀ a, k ≠ .ret a) ∧ x = some (c, k)) := by
  cases k with
  | ret a => exact ⟨none, rfl, .inl ⟨a, rfl, rfl⟩⟩
  | fail | atom | acquire | release => exact ⟨_, rfl, .inr ⟨nofun, rfl⟩⟩

/-- One thread goes on, and others keep their locks. -/
theorem Disciplined.goOn {r : ι → ι → Prop} {t : τ} {c : χ} {k : Prog ε ι σ α}
    (h : p.Disciplined r) (s : σ) (owner : ι → Option τ)
    (hother : ∀ i t', t' ≠ t → (owner i = some t' ↔ p.owner i = some t'))
    (hk : k.Ordered r (fun _ H => H = ∅) {i | owner i = some t}) :
    (({ p with state := s, owner := owner } : Pool ε ι σ χ α τ).goOn t c k).Disciplined r := by
  obtain ⟨x, hx, hcase⟩ := goOn_thread ({ p with state := s, owner := owner }) t c k
  refine ⟨fun {t' c' k'} hth => ?_, fun {t'} hth i => ?_, ?_⟩
  · rw [hx] at hth
    rw [goOn_owner]
    by_cases ht : t' = t
    · subst ht
      rw [Function.update_self] at hth
      rcases hcase with ⟨a, rfl, rfl⟩ | ⟨hret, rfl⟩
      · cases hth
      · cases hth
        exact ⟨hret, hk⟩
    · rw [Function.update_of_ne ht] at hth
      have hH : {i | owner i = some t'} = {i | p.owner i = some t'} :=
        Set.ext fun i => hother i t' ht
      show _ ∧ k'.Ordered r _ {i | owner i = some t'}
      rw [hH]
      exact h.ordered hth
  · rw [hx] at hth
    rw [goOn_owner]
    by_cases ht : t' = t
    · subst ht
      rw [Function.update_self] at hth
      rcases hcase with ⟨a, rfl, rfl⟩ | ⟨hret, rfl⟩
      · -- the call has ended, and it has given up all its locks
        exact fun hi => (Set.eq_empty_iff_forall_notMem.mp hk i) hi
      · cases hth
    · rw [Function.update_of_ne ht] at hth
      exact fun hi => h.idle hth i ((hother i t' ht).mp hi)
  · refine (h.finite.insert t).subset fun t' ht' => ?_
    by_cases ht : t' = t
    · exact .inl ht
    · refine .inr fun hn => ht' ?_
      rw [hx, Function.update_of_ne ht]
      exact hn

end GoOn

section Steps

variable [DecidableEq ι] [DecidableEq τ] {S : Service ε ι κ σ χ α}
  {may : χ → List (χ × α) → Prop} {p p' : Pool ε ι σ χ α τ}

/-- A step of a call that has been made; no new call. -/
abbrev Work (S : Service ε ι κ σ χ α) : Pool ε ι σ χ α τ → Pool ε ι σ χ α τ → Prop :=
  Step S fun _ _ => False

theorem Step.mono {may' : χ → List (χ × α) → Prop} (h : Step S may p p')
    (hm : ∀ c log, may c log → may' c log) : Step S may' p p' := by
  cases h with
  | start hth hc => exact .start hth (hm _ _ hc)
  | atom hth hf => exact .atom hth hf
  | acquire hth ho hc => exact .acquire hth ho hc
  | release hth ho => exact .release hth ho

section Order

variable {r : ι → ι → Prop}

/-- **One step keeps the order**, if the calls that may be made do. -/
theorem Disciplined.step (h : p.Disciplined r)
    (hmay : ∀ c, may c p.log → (S.prog c).Ordered r (fun _ H => H = ∅) ∅)
    (hs : Step S may p p') : p'.Disciplined r := by
  cases hs with
  | @start t c hth hm =>
    refine h.goOn p.state p.owner (fun _ _ _ => Iff.rfl) ?_
    have hH : {i | p.owner i = some t} = ∅ := Set.eq_empty_iff_forall_notMem.mpr (h.idle hth)
    rw [hH]
    exact hmay c hm
  | @atom t c δ f k b s hth hf =>
    exact h.goOn s p.owner (fun _ _ _ => Iff.rfl) ((h.ordered hth).2 b)
  | @acquire t c i k hth hno hc =>
    refine h.goOn p.state _ (fun j t' ht' => ?_) ?_
    · by_cases hj : j = i
      · subst hj
        rw [Function.update_self, hno]
        exact ⟨fun he => absurd (Option.some.inj he).symm ht', nofun⟩
      · rw [Function.update_of_ne hj]
    · have hH : {j | Function.update p.owner i (some t) j = some t} =
          insert i {j | p.owner j = some t} := by
        ext j
        by_cases hj : j = i <;> simp [hj]
      rw [hH]
      exact (h.ordered hth).2.2
  | @release t c i k hth how =>
    refine h.goOn p.state _ (fun j t' ht' => ?_) ?_
    · by_cases hj : j = i
      · subst hj
        rw [Function.update_self, how]
        exact ⟨nofun, fun he => absurd (Option.some.inj he).symm ht'⟩
      · rw [Function.update_of_ne hj]
    · have hH : {j | Function.update p.owner i none j = some t} =
          {j | p.owner j = some t} \ {i} := by
        ext j
        by_cases hj : j = i <;> simp [hj]
      rw [hH]
      exact (h.ordered hth).2.2

/-- Whoever waits for a lock waits for a thread that waits for a later one: if nobody can go on
and nobody has halted, nobody waits. -/
theorem Disciplined.not_waiting (hr : WellFounded (Function.swap r)) (h : p.Disciplined r)
    (hcond : ∀ c i s, S.cond c i s) (hwork : ∀ q, ¬ Work S p q) (hhalt : ∀ t, ¬ p.Halted t)
    (i : ι) : ∀ t c (k : Prog ε ι σ α), p.thread t ≠ some (c, .acquire i k) := by
  induction i using hr.induction with
  | h i ih =>
    intro t c k hth
    cases hown : p.owner i with
    | none => exact hwork _ (.acquire hth hown (hcond c i p.state))
    | some t' =>
      cases hth' : p.thread t' with
      | none => exact h.idle hth' i hown
      | some x =>
        obtain ⟨c', k'⟩ := x
        obtain ⟨hret, hk'⟩ := h.ordered hth'
        cases k' with
        | ret a => exact hret a rfl
        | fail e => exact hhalt t' ⟨c', .inl ⟨e, hth'⟩⟩
        | atom f k' =>
          cases hf : f p.state with
          | none => exact hhalt t' ⟨c', .inr ⟨_, f, k', hth', hf⟩⟩
          | some r => exact hwork _ (.atom hth' hf)
        | acquire i' k' => exact ih i' (hk'.1 i hown) t' c' k' hth'
        | release i' k' => exact hwork _ (.release hth' hk'.1)

/-- **No deadlock**: as long as a call has not ended, some thread can go on or has halted. -/
theorem Disciplined.goes_on (hr : WellFounded (Function.swap r)) (h : p.Disciplined r)
    (hcond : ∀ c i s, S.cond c i s) (hactive : p.active.Nonempty) :
    (∃ q, Work S p q) ∨ ∃ t, p.Halted t := by
  by_contra hno
  obtain ⟨hwork, hhalt⟩ := not_or.mp hno
  rw [not_exists] at hwork hhalt
  obtain ⟨t, ht⟩ := hactive
  obtain ⟨⟨c, k⟩, hth⟩ := Option.ne_none_iff_exists'.mp ht
  obtain ⟨hret, hk⟩ := h.ordered hth
  cases k with
  | ret a => exact hret a rfl
  | fail e => exact hhalt t ⟨c, .inl ⟨e, hth⟩⟩
  | atom f k =>
    cases hf : f p.state with
    | none => exact hhalt t ⟨c, .inr ⟨_, f, k, hth, hf⟩⟩
    | some r => exact hwork _ (.atom hth hf)
  | acquire i k => exact h.not_waiting hr hcond hwork hhalt i t c k hth
  | release i k => exact hwork _ (.release hth hk.1)

end Order

/-! ## The end of the work -/

/-- A step of a call leaves one thread less to do, and the others what they have. -/
theorem Work.less (h : Work S p p') :
    ∃ t x, p.thread t ≠ none ∧ p'.thread = Function.update p.thread t x ∧ Less x (p.thread t) := by
  have hgo : ∀ (q : Pool ε ι σ χ α τ) t c k k', q.thread = p.thread → p.thread t = some (c, k) →
      k'.Tail k → ∃ u x, p.thread u ≠ none ∧
        (q.goOn t c k').thread = Function.update p.thread u x ∧ Less x (p.thread u) := by
    intro q t c k k' hq hth ht
    obtain ⟨x, hx, hcase⟩ := goOn_thread q t c k'
    refine ⟨t, x, by simp [hth], by rw [hx, hq], ?_⟩
    rw [hth]
    rcases hcase with ⟨a, -, rfl⟩ | ⟨-, rfl⟩
    · exact .ended
    · exact .tail ht
  cases h with
  | start _ hm => exact hm.elim
  | @atom t c _ f k b s hth => exact hgo { p with state := s } t c _ (k b) rfl hth .atom
  | @acquire t c i k hth =>
    exact hgo { p with owner := Function.update p.owner i (some t) } t c _ k rfl hth .acquire
  | @release t c i k hth =>
    exact hgo { p with owner := Function.update p.owner i none } t c _ k rfl hth .release

/-- Work makes no thread active. -/
theorem Work.finite (h : Work S p p') (hfin : p.active.Finite) : p'.active.Finite := by
  obtain ⟨t, x, hne, hth, -⟩ := Work.less h
  refine hfin.subset fun u hu hn => ?_
  by_cases hut : u = t
  · exact hne (hut ▸ hn)
  · refine hu ?_
    rw [hth, Function.update_of_ne hut]
    exact hn

/-- **The work ends**: there is no infinite run without new calls. -/
theorem work_ends (hfin : p.active.Finite) : Acc (fun q p => Work S p q) p := by
  -- only the threads that are active at the start ever move; they are finitely many
  obtain ⟨T, hT⟩ := hfin.exists_finset_coe
  have hsub : ∀ t, t ∉ T → p.thread t = none := by
    intro t ht
    by_contra hn
    exact ht (Finset.mem_coe.mp (hT.symm ▸ hn))
  have hwf := Pi.Lex.wellFounded (WellOrderingRel : T → T → Prop)
    (s := fun _ => (Less : Option (χ × Prog ε ι σ α) → _ → Prop)) fun _ => less_wf
  suffices h : ∀ (f : T → Option (χ × Prog ε ι σ α)) (p : Pool ε ι σ χ α τ),
      (∀ t, t ∉ T → p.thread t = none) → (fun t : T => p.thread t) = f →
      Acc (fun q p => Work S p q) p from h _ p hsub rfl
  intro f
  induction f using hwf.induction with
  | h f ih =>
    rintro p hsub rfl
    refine ⟨_, fun q hq => ?_⟩
    obtain ⟨t, x, hne, hth, hless⟩ := Work.less hq
    have ht : t ∈ T := by
      by_contra hn
      exact hne (hsub t hn)
    refine ih _ ⟨⟨t, ht⟩, fun u hu => ?_, ?_⟩ q (fun u hu => ?_) rfl
    · show q.thread u = p.thread u
      have hut : (u : τ) ≠ t := by
        rintro rfl
        exact irrefl_of WellOrderingRel u hu
      rw [hth, Function.update_of_ne hut]
    · show Less (q.thread t) (p.thread t)
      rwa [hth, Function.update_self]
    · have hut : u ≠ t := by
        rintro rfl
        exact hu ht
      rw [hth, Function.update_of_ne hut]
      exact hsub u hu

end Steps

end Pool

end Yfs
