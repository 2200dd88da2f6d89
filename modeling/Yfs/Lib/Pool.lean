import Mathlib.Data.Set.Lattice
import Mathlib.Order.CompletePartialOrder
import Yfs.Lib.Prog
import Yfs.Lib.Reachable

/-!
# Threads, locks and objects

A `Pool` is any number of threads that run calls on one state, interleaved step by step,
with locks that exclude each other. This file has the one theorem about pools that the
development needs: if every call works only on objects it holds the lock of (or has just
made), and leaves them as its specification says, then the calls *take effect one at a
time, in the order in which they end* (`Pool.linearized`).

What a call does is a specification on the objects' abstract values (`Service.commit`);
that a program meets it is `Holds`, a condition on that program alone. `Seg` is the part of
it for code between two uses of a lock, so that the same piece of code can be verified
once and used in several calls.
-/

namespace Yfs

/-- A state made of objects: when one is untouched, not there yet, in order with an
abstract value, and what holds of it even in the middle of a call. `stuck` are the states in
which a step may be refused. -/
structure Objects (ι κ σ : Type) where
  same : ι → σ → σ → Prop
  free : ι → σ → Prop
  obj : ι → κ → σ → Prop
  always : ι → σ → Prop
  stuck : σ → Prop := fun _ => True
  same_refl : ∀ i s, same i s s
  same_trans : ∀ {i s s' s''}, same i s s' → same i s' s'' → same i s s''
  free_same : ∀ {i s s'}, same i s s' → free i s' → free i s
  obj_same : ∀ {i v s s'}, same i s s' → obj i v s → obj i v s'
  always_same : ∀ {i s s'}, same i s s' → always i s → always i s'

/-- The calls threads can make: their code, and what they do to the abstract values. A
thread gets a lock only if `cond` holds then; `excused` are faults that may happen. -/
structure Service (ε ι κ σ χ α : Type) where
  prog : χ → Prog ε ι σ α
  commit : χ → α → (ι → Option κ) → (ι → Option κ) → Prop
  cond : χ → ι → σ → Prop := fun _ _ _ => True
  excused : ε → Prop := fun _ => False

variable {ε ι κ ρ σ χ α β τ : Type}

/-- Objects stay, and keep their kind. -/
def Grows (kind : κ → ρ) (g g' : ι → Option κ) : Prop :=
  ∀ i v, g i = some v → ∃ v', g' i = some v' ∧ kind v' = kind v

theorem Grows.refl (kind : κ → ρ) (g : ι → Option κ) : Grows kind g g :=
  fun _ v h => ⟨v, h, rfl⟩

theorem Grows.trans {kind : κ → ρ} {g g' g'' : ι → Option κ} (h : Grows kind g g')
    (h' : Grows kind g' g'') : Grows kind g g'' := by
  intro i v hv
  obtain ⟨v', hv', hk⟩ := h i v hv
  obtain ⟨v'', hv'', hk'⟩ := h' i v' hv'
  exact ⟨v'', hv'', hk'.trans hk⟩

/-- The calls of a history took effect one at a time, in its order. -/
inductive Service.Runs (S : Service ε ι κ σ χ α) (g₀ : ι → Option κ) :
    List (χ × α) → (ι → Option κ) → Prop
  | nil : S.Runs g₀ [] g₀
  | snoc {log : List (χ × α)} {g g' : ι → Option κ} {c : χ} {a : α} :
      S.Runs g₀ log g → S.commit c a g g' → S.Runs g₀ (log ++ [(c, a)]) g'

/-- What one call of a history did. -/
theorem Service.Runs.split {S : Service ε ι κ σ χ α} {g₀ g : ι → Option κ}
    {log post : List (χ × α)} {x : χ × α} (h : S.Runs g₀ (log ++ x :: post) g) :
    ∃ g₁ g₂, S.Runs g₀ log g₁ ∧ S.commit x.1 x.2 g₁ g₂ := by
  generalize hl : log ++ x :: post = l at h
  induction h generalizing post with
  | nil => simp at hl
  | @snoc log' g g' c a hr hc ih =>
    rcases List.eq_nil_or_concat post with rfl | ⟨post', y, rfl⟩
    · obtain ⟨rfl, hx⟩ := List.append_inj' hl rfl
      cases hx
      exact ⟨g, g', hr, hc⟩
    · have hl' : (log ++ x :: post') ++ [y] = log' ++ [(c, a)] := by simpa using hl
      exact ih (List.append_inj' hl' rfl).1

/-! ## Pools -/

/-- Threads at work: the state, who has which lock, what each thread has still to do of
which call, and the calls that have ended, with their results. -/
structure Pool (ε ι σ χ α τ : Type) where
  state : σ
  owner : ι → Option τ
  thread : τ → Option (χ × Prog ε ι σ α)
  log : List (χ × α)

namespace Pool

section Steps

variable [DecidableEq ι] [DecidableEq τ]

/-- The thread has `k` left to do of its call; the call ends with its last step. -/
def goOn (p : Pool ε ι σ χ α τ) (t : τ) (c : χ) (k : Prog ε ι σ α) : Pool ε ι σ χ α τ :=
  match k with
  | .ret a => { p with thread := Function.update p.thread t none, log := p.log ++ [(c, a)] }
  | k => { p with thread := Function.update p.thread t (some (c, k)) }

/-- One step of one thread. A call may be made if `may` allows it after what has ended. -/
inductive Step (S : Service ε ι κ σ χ α) (may : χ → List (χ × α) → Prop) :
    Pool ε ι σ χ α τ → Pool ε ι σ χ α τ → Prop
  | start {p : Pool ε ι σ χ α τ} {t : τ} {c : χ} : p.thread t = none → may c p.log →
      Step S may p (p.goOn t c (S.prog c))
  | atom {p : Pool ε ι σ χ α τ} {t : τ} {c : χ} {δ : Type} {f : σ → Option (δ × σ)}
      {k : δ → Prog ε ι σ α} {b : δ} {s : σ} : p.thread t = some (c, .atom f k) →
      f p.state = some (b, s) → Step S may p ({ p with state := s }.goOn t c (k b))
  | acquire {p : Pool ε ι σ χ α τ} {t : τ} {c : χ} {i : ι} {k : Prog ε ι σ α} :
      p.thread t = some (c, .acquire i k) → p.owner i = none → S.cond c i p.state →
      Step S may p ({ p with owner := Function.update p.owner i (some t) }.goOn t c k)
  | release {p : Pool ε ι σ χ α τ} {t : τ} {c : χ} {i : ι} {k : Prog ε ι σ α} :
      p.thread t = some (c, .release i k) → p.owner i = some t →
      Step S may p ({ p with owner := Function.update p.owner i none }.goOn t c k)

end Steps

/-- What has ended stays ended, and what ends later comes after it. -/
theorem Step.log_prefix [DecidableEq ι] [DecidableEq τ] {S : Service ε ι κ σ χ α}
    {may : χ → List (χ × α) → Prop} {p p' : Pool ε ι σ χ α τ} (h : Step S may p p') :
    p.log <+: p'.log := by
  have hgo : ∀ (q : Pool ε ι σ χ α τ) t c k, q.log = p.log → p.log <+: (q.goOn t c k).log := by
    intro q t c k hq
    rw [← hq]
    cases k with
    | ret a => exact List.prefix_append ..
    | fail | atom | acquire | release => exact List.prefix_rfl
  cases h with
  | start => exact hgo _ _ _ _ rfl
  | atom => exact hgo _ _ _ _ rfl
  | acquire => exact hgo _ _ _ _ rfl
  | release => exact hgo _ _ _ _ rfl

/-! ### Runs on given inputs -/

section Script

variable [DecidableEq ι] [DecidableEq τ]

/-- The next step of a thread, if it can take one; `test` decides on locks. -/
def advance (test : χ → ι → σ → Bool) (p : Pool ε ι σ χ α τ) (t : τ) : Option (Pool ε ι σ χ α τ) :=
  match p.thread t with
  | some (c, .atom f k) => (f p.state).map fun r => { p with state := r.2 }.goOn t c (k r.1)
  | some (c, .acquire i k) =>
    if p.owner i = none ∧ test c i p.state then
      some ({ p with owner := Function.update p.owner i (some t) }.goOn t c k)
    else none
  | some (c, .release i k) =>
    if p.owner i = some t then
      some ({ p with owner := Function.update p.owner i none }.goOn t c k)
    else none
  | _ => none

/-- At most `n` steps of a thread, until its call has ended. -/
def complete (test : χ → ι → σ → Bool) : ℕ → Pool ε ι σ χ α τ → τ → Option (Pool ε ι σ χ α τ)
  | 0, _, _ => none
  | n + 1, p, t =>
    match p.thread t with
    | none => some p
    | some _ => (p.advance test t).bind (complete test n · t)

/-- A thread ends its call, and makes others, one after the other, each of at most `n` steps. -/
def script (S : Service ε ι κ σ χ α) (ok : χ → List (χ × α) → Bool)
    (test : χ → ι → σ → Bool) (n : ℕ)
    (t : τ) : List χ → Pool ε ι σ χ α τ → Option (Pool ε ι σ χ α τ)
  | [], p => complete test n p t
  | c :: cs, p => (complete test n p t).bind fun p =>
    if (p.thread t).isNone ∧ ok c p.log then
      script S ok test n t cs (p.goOn t c (S.prog c)) else none

/-- Steps of given threads, one after the other; a thread starts the call that stands with it. -/
def schedule (S : Service ε ι κ σ χ α) (ok : χ → List (χ × α) → Bool) (test : χ → ι → σ → Bool) :
    List (τ × Option χ) → Pool ε ι σ χ α τ → Option (Pool ε ι σ χ α τ)
  | [], p => some p
  | (t, none) :: ts, p => (p.advance test t).bind (schedule S ok test ts)
  | (t, some c) :: ts, p =>
    if (p.thread t).isNone ∧ ok c p.log then schedule S ok test ts (p.goOn t c (S.prog c)) else none

end Script

/-- Nobody does anything yet. -/
def Init (init : σ → Prop) (p : Pool ε ι σ χ α τ) : Prop :=
  init p.state ∧ (∀ i, p.owner i = none) ∧ (∀ t, p.thread t = none) ∧ p.log = []

section Runs

variable [DecidableEq ι] [DecidableEq τ] {S : Service ε ι κ σ χ α} {may : χ → List (χ × α) → Prop}
  {init : σ → Prop} {ok : χ → List (χ × α) → Bool} {test : χ → ι → σ → Bool}
  {p p' : Pool ε ι σ χ α τ} {t : τ}

/-- A thread that advances takes a step. -/
theorem Step.of_advance (hc : ∀ c i s, test c i s → S.cond c i s)
    (h : p.advance test t = some p') : Step S may p p' := by
  unfold advance at h
  split at h
  case h_1 c δ f k hth =>
    obtain ⟨⟨b, s⟩, hf, rfl⟩ := Option.map_eq_some_iff.mp h
    exact .atom hth hf
  case h_2 c i k hth =>
    split at h
    case isTrue ho =>
      cases h
      exact .acquire hth ho.1 (hc c i p.state ho.2)
    case isFalse => cases h
  case h_3 c i k hth =>
    split at h
    case isTrue ho =>
      cases h
      exact .release hth ho
    case isFalse => cases h
  case h_4 => cases h

/-- What is left of a call of one thread. -/
theorem reachable_complete {n : ℕ} (hc : ∀ c i s, test c i s → S.cond c i s)
    (hr : Reachable (Init init) (Step S may) p) (h : complete test n p t = some p') :
    Reachable (Init init) (Step S may) p' := by
  induction n generalizing p with
  | zero => exact nomatch h
  | succ n ih =>
    unfold complete at h
    split at h
    case h_1 =>
      cases h
      exact hr
    case h_2 =>
      obtain ⟨q, ha, hq⟩ := Option.bind_eq_some_iff.mp h
      exact ih (hr.next (.of_advance hc ha)) hq

/-- Whole calls of one thread, that leave behind what `obs` sees. -/
theorem reachable_script {δ : Type} {obs : Pool ε ι σ χ α τ → δ} {cs : List χ} {n : ℕ} {d : δ}
    (hok : ∀ c log, ok c log → may c log) (hc : ∀ c i s, test c i s → S.cond c i s)
    (hr : Reachable (Init init) (Step S may) p)
    (h : (script S ok test n t cs p).map obs = some d) :
    ∃ p' : Pool ε ι σ χ α τ, Reachable (Init init) (Step S may) p' ∧ obs p' = d := by
  obtain ⟨p', hs, hobs⟩ := Option.map_eq_some_iff.mp h
  refine ⟨p', ?_, hobs⟩
  clear h
  induction cs generalizing p with
  | nil => exact reachable_complete hc hr hs
  | cons c cs ih =>
    obtain ⟨q, hq, hs⟩ := Option.bind_eq_some_iff.mp hs
    split at hs
    case isTrue hm =>
      have hr' := reachable_complete hc hr hq
      exact ih (hr'.next (.start (Option.isNone_iff_eq_none.mp hm.1) (hok c q.log hm.2))) hs
    case isFalse => cases hs

/-- Steps in a given order, that lead to what `obs` sees. -/
theorem reachable_schedule {δ : Type} {obs : Pool ε ι σ χ α τ → δ}
    {ts : List (τ × Option χ)} {d : δ}
    (hok : ∀ c log, ok c log → may c log) (hc : ∀ c i s, test c i s → S.cond c i s)
    (hr : Reachable (Init init) (Step S may) p)
    (h : (schedule S ok test ts p).map obs = some d) :
    ∃ p' : Pool ε ι σ χ α τ, Reachable (Init init) (Step S may) p' ∧ obs p' = d := by
  obtain ⟨p', hs, hobs⟩ := Option.map_eq_some_iff.mp h
  refine ⟨p', ?_, hobs⟩
  clear h
  induction ts generalizing p with
  | nil =>
    cases hs
    exact hr
  | cons x ts ih =>
    obtain ⟨t, _ | c⟩ := x
    · obtain ⟨q, hq, hs⟩ := Option.bind_eq_some_iff.mp hs
      exact ih (hr.next (.of_advance hc hq)) hs
    · unfold schedule at hs
      split at hs
      case isTrue hm =>
        exact ih (hr.next (.start (Option.isNone_iff_eq_none.mp hm.1) (hok c p.log hm.2))) hs
      case isFalse => cases hs

end Runs

end Pool

/-! ## Programs that keep to their objects -/

section Logic

variable (O : Objects ι κ σ)

/-- One step that may touch the objects in `H`, and may make new ones: `H'` then. -/
structure Touches (H H' : Set ι) (s s' : σ) : Prop where
  mono : H ⊆ H'
  made : ∀ i ∈ H', i ∉ H → O.free i s
  inside : ∀ i ∈ H', i ∈ H ∧ O.same i s s' ∨ ¬ O.free i s' ∧ O.always i s'
  outside : ∀ i, i ∉ H' → O.same i s s'

variable {O} in
theorem Touches.always {H H' : Set ι} {s s' : σ} (h : Touches O H H' s s')
    (ha : ∀ i, O.always i s) (i : ι) :
    O.always i s' := by
  by_cases hi : i ∈ H'
  · rcases h.inside i hi with ⟨-, hsame⟩ | ⟨-, halw⟩
    · exact O.always_same hsame (ha i)
    · exact halw
  · exact O.always_same (h.outside i hi) (ha i)

/-- Code without locks, run by a thread that owns the objects in `H`, keeps to them and
ends with `Q`, whatever others do to the rest. -/
def Seg (E : ε → Prop) : Prog ε ι σ β → (β → Set ι → σ → Prop) → Set ι → σ → Prop
  | .ret b, Q, H, s => Q b H s
  | .fail e, _, _, _ => E e
  | .atom f k, Q, H, s => ∀ s₁, (∀ i ∈ H, O.same i s s₁) → (∀ i, O.always i s₁) →
      (f s₁ = none → O.stuck s₁) ∧
        ∀ b s₂, f s₁ = some (b, s₂) → ∃ H', Touches O H H' s₁ s₂ ∧ Seg E (k b) Q H' s₂
  | .acquire _ _, _, _, _ => False
  | .release _ _, _, _, _ => False

variable {O} {E : ε → Prop} {H : Set ι} {s : σ}

/-- **The rule of sequence.** -/
theorem Seg.bind {p : Prog ε ι σ α} {k : α → Prog ε ι σ β} {Q : β → Set ι → σ → Prop}
    (h : Seg O E p (fun a H' s' => Seg O E (k a) Q H' s') H s) : Seg O E (p >>= k) Q H s := by
  induction p generalizing H s with
  | ret a => exact h
  | fail e => exact h
  | atom f g ih =>
    intro s₁ hs ha
    refine (h s₁ hs ha).imp id fun h b s₂ hf => ?_
    obtain ⟨H', ht, hk⟩ := h b s₂ hf
    exact ⟨H', ht, ih b hk⟩
  | acquire i p => exact h
  | release i p => exact h

/-- **The rule of consequence.** -/
theorem Seg.mono {p : Prog ε ι σ α} {Q Q' : α → Set ι → σ → Prop} (h : Seg O E p Q H s)
    (hQ : ∀ a H' s', Q a H' s' → Q' a H' s') : Seg O E p Q' H s := by
  induction p generalizing H s with
  | ret a => exact hQ a H s h
  | fail e => exact h
  | atom f g ih =>
    intro s₁ hs ha
    refine (h s₁ hs ha).imp id fun h b s₂ hf => ?_
    obtain ⟨H', ht, hk⟩ := h b s₂ hf
    exact ⟨H', ht, ih b hk⟩
  | acquire i p => exact h
  | release i p => exact h

/-- One atomic step on one object. -/
theorem Seg.atom {δ : Type} {f : σ → Option (δ × σ)} {k : δ → Prog ε ι σ α} {i : ι}
    {Q : α → Set ι → σ → Prop} (hi : i ∈ H)
    (hstuck : ∀ s₁, O.same i s s₁ → f s₁ = none → O.stuck s₁)
    (h : ∀ s₁, O.same i s s₁ → ∀ b s₂, f s₁ = some (b, s₂) →
      (∀ j, j ≠ i → O.same j s₁ s₂) ∧ ¬ O.free i s₂ ∧ O.always i s₂ ∧ Seg O E (k b) Q H s₂) :
    Seg O E (.atom f k) Q H s := by
  intro s₁ hs _
  refine ⟨hstuck s₁ (hs i hi), fun b s₂ hf => ?_⟩
  obtain ⟨hsame, hfree, halw, hk⟩ := h s₁ (hs i hi) b s₂ hf
  refine ⟨H, ⟨subset_rfl, fun _ h hn => absurd h hn, fun j hj => ?_, fun j hj => ?_⟩, hk⟩
  · by_cases hji : j = i
    · subst hji
      exact .inr ⟨hfree, halw⟩
    · exact .inl ⟨hj, hsame j hji⟩
  · exact hsame j fun e => hj (e ▸ hi)

/-- One atomic step that makes one object. -/
theorem Seg.make {δ : Type} {f : σ → Option (δ × σ)} {k : δ → Prog ε ι σ α}
    {Q : α → Set ι → σ → Prop} (hstuck : ∀ s₁, f s₁ = none → O.stuck s₁)
    (h : ∀ s₁, (∀ i, O.always i s₁) → ∀ b s₂, f s₁ = some (b, s₂) → ∃ i,
      (∀ j, j ≠ i → O.same j s₁ s₂) ∧ O.free i s₁ ∧ ¬ O.free i s₂ ∧ O.always i s₂ ∧
        Seg O E (k b) Q (insert i H) s₂) :
    Seg O E (.atom f k) Q H s := by
  intro s₁ hs ha
  refine ⟨hstuck s₁, fun b s₂ hf => ?_⟩
  obtain ⟨i, hsame, hfree, hthere, halw, hk⟩ := h s₁ ha b s₂ hf
  refine ⟨insert i H,
    ⟨Set.subset_insert i H, fun j hj hn => ?_, fun j hj => ?_, fun j hj => ?_⟩, hk⟩
  · exact hj.resolve_right hn ▸ hfree
  · by_cases hji : j = i
    · subst hji
      exact .inr ⟨hthere, halw⟩
    · exact .inl ⟨hj.resolve_left hji, hsame j hji⟩
  · exact hsame j fun e => hj (.inl e)

/-- **The frame rule**: objects in `F` that the thread owns too are left alone. -/
theorem Seg.frame {p : Prog ε ι σ α} {Q : α → Set ι → σ → Prop} {F : Set ι}
    (h : Seg O E p Q H s) (hdisj : Disjoint H F) (hF : ∀ i ∈ F, ¬ O.free i s) :
    Seg O E p (fun a HF s' => ∃ H', HF = H' ∪ F ∧ Disjoint H' F ∧ (∀ i ∈ F, O.same i s s') ∧
      Q a H' s') (H ∪ F) s := by
  induction p generalizing H s with
  | ret a => exact ⟨H, rfl, hdisj, fun i _ => O.same_refl i s, h⟩
  | fail e => exact h
  | atom f g ih =>
    intro s₁ hs ha
    refine (h s₁ (fun i hi => hs i (.inl hi)) ha).imp id fun h b s₂ hf => ?_
    obtain ⟨H', ht, hk⟩ := h b s₂ hf
    have hthere : ∀ i ∈ F, ¬ O.free i s₁ :=
      fun i hi hfree => hF i hi (O.free_same (hs i (.inr hi)) hfree)
    have hdisj' : Disjoint H' F := Set.disjoint_left.mpr fun i hi hiF =>
      hthere i hiF (ht.made i hi fun hiH => Set.disjoint_left.mp hdisj hiH hiF)
    have hsame : ∀ i ∈ F, O.same i s₁ s₂ := fun i hi =>
      ht.outside i fun hi' => Set.disjoint_left.mp hdisj' hi' hi
    refine ⟨H' ∪ F, ⟨Set.union_subset_union_left F ht.mono, ?_, ?_, ?_⟩, ?_⟩
    · rintro i (hi | hi) hn
      · exact ht.made i hi fun hiH => hn (.inl hiH)
      · exact absurd (.inr hi) hn
    · rintro i (hi | hi)
      · exact (ht.inside i hi).imp (fun h => ⟨.inl h.1, h.2⟩) id
      · exact .inl ⟨.inr hi, hsame i hi⟩
    · exact fun i hi => ht.outside i fun hi' => hi (.inl hi')
    · have hF' : ∀ i ∈ F, ¬ O.free i s₂ := fun i hi hfree =>
        hthere i hi (O.free_same (hsame i hi) hfree)
      refine (ih b hk hdisj' hF').mono ?_
      rintro a HF s' ⟨H'', rfl, hd, hs', hQ⟩
      exact ⟨H'', rfl, hd, fun i hi =>
        O.same_trans (O.same_trans (hs i (.inr hi)) (hsame i hi)) (hs' i hi), hQ⟩
  | acquire i p => exact h
  | release i p => exact h

/-- Code without locks that runs alone ends with `Q`, unless a step is refused. -/
theorem Seg.run {p : Prog ε ι σ α} {Q : α → Set ι → σ → Prop} (h : Seg O E p Q H s)
    (ha : ∀ i, O.always i s) :
    (∃ a H' s', p.run s = .done a s' ∧ (∀ i, i ∉ H' → O.same i s s') ∧ H ⊆ H' ∧ Q a H' s' ∧
      ∀ i, O.always i s') ∨
    (∃ e s', p.run s = .failed e s' ∧ E e) ∨ ∃ s', p.run s = .blocked s' ∧ O.stuck s' := by
  induction p generalizing H s with
  | ret a => exact .inl ⟨a, H, s, rfl, fun i _ => O.same_refl i s, subset_rfl, h, ha⟩
  | fail e => exact .inr (.inl ⟨e, s, rfl, h⟩)
  | atom f k ih =>
    obtain ⟨hstuck, hstep⟩ := h s (fun i _ => O.same_refl i s) ha
    cases hf : f s with
    | none => exact .inr (.inr ⟨s, by simp only [Prog.run, hf], hstuck hf⟩)
    | some r =>
      obtain ⟨H', ht, hk⟩ := hstep r.1 r.2 hf
      have hrun : (Prog.atom f k).run s = (k r.1).run r.2 := by simp only [Prog.run, hf]
      rw [hrun]
      refine (ih r.1 hk (ht.always ha)).imp ?_ id
      rintro ⟨a, H'', s', hdone, hsame, hsub, hQ, halw⟩
      refine ⟨a, H'', s', hdone, fun i hi => ?_, ht.mono.trans hsub, hQ, halw⟩
      exact O.same_trans (ht.outside i fun hi' => hi (hsub hi')) (hsame i hi)
  | acquire i p => exact h.elim
  | release i p => exact h.elim

/-- What a thread that owns the objects in `H` can rely on: others leave them alone. -/
structure Rely (O : Objects ι κ σ) (kind : κ → ρ) (H : Set ι) (s s' : σ) (g g' : ι → Option κ) :
    Prop where
  grows : Grows kind g g'
  same : ∀ i ∈ H, O.same i s s'
  value : ∀ i ∈ H, g' i = g i

theorem Rely.refl (O : Objects ι κ σ) (kind : κ → ρ) (H : Set ι) (s : σ) (g : ι → Option κ) :
    Rely O kind H s s g g :=
  ⟨.refl kind g, fun i _ => O.same_refl i s, fun _ _ => rfl⟩

theorem Rely.trans {kind : κ → ρ} {s' s'' : σ} {g g' g'' : ι → Option κ}
    (h : Rely O kind H s s' g g') (h' : Rely O kind H s' s'' g' g'') :
    Rely O kind H s s'' g g'' :=
  ⟨h.grows.trans h'.grows, fun i hi => O.same_trans (h.same i hi) (h'.same i hi),
    fun i hi => (h'.value i hi).trans (h.value i hi)⟩

variable (O) (S : Service ε ι κ σ χ α) (kind : κ → ρ)

/-- The call takes effect, with result `a`, and leaves all its objects in order. -/
def Commits (c : χ) (a : α) (H : Set ι) (s : σ) (g : ι → Option κ) : Prop :=
  ∃ g', S.commit c a g g' ∧ Grows kind g g' ∧ (∀ i, i ∉ H → g' i = g i) ∧
    ∀ i ∈ H, ∃ v, g' i = some v ∧ O.obj i v s

/-- The rest `k` of the call `c`, run by a thread that owns the objects in `H`, keeps to
them, leaves an object in order when it gives up its lock, and takes effect with its last
step. A lock must be of an object that is there, and gives the thread that object. -/
def Holds (c : χ) : Prog ε ι σ α → Set ι → σ → (ι → Option κ) → Prop
  | .ret a, H, s, g => Commits O S kind c a H s g
  | .fail e, _, _, _ => S.excused e
  | .atom f k, H, s, g => ∀ s₁ g₁, Rely O kind H s s₁ g g₁ → (∀ i, O.always i s₁) →
      (f s₁ = none → O.stuck s₁) ∧
        ∀ b s₂, f s₁ = some (b, s₂) → ∃ H', Touches O H H' s₁ s₂ ∧
          ((∀ i ∈ H', i ∉ H → g₁ i = none) → Holds c (k b) H' s₂ g₁)
  | .acquire i k, H, s, g => ∀ s₁ g₁, Rely O kind H s s₁ g g₁ →
      i ∉ H ∧ ∃ v, g₁ i = some v ∧
        (O.obj i v s₁ → S.cond c i s₁ → Holds c k (insert i H) s₁ g₁)
  | .release i k, H, s, g => ∀ s₁ g₁, Rely O kind H s s₁ g g₁ →
      i ∈ H ∧ match k with
        | .ret a => Commits O S kind c a H s₁ g₁
        | _ => (∃ v, g₁ i = some v ∧ O.obj i v s₁) ∧ Holds c k (H \ {i}) s₁ g₁

variable {O S kind} {c : χ} {g : ι → Option κ}

/-- What others do does not matter. -/
theorem Holds.rely {k : Prog ε ι σ α} {s' : σ} {g' : ι → Option κ} (h : Holds O S kind c k H s g)
    (hk : ∀ a, k ≠ .ret a) (hr : Rely O kind H s s' g g') : Holds O S kind c k H s' g' := by
  cases k with
  | ret a => exact absurd rfl (hk a)
  | fail e => exact h
  | atom f k => exact fun s₁ g₁ hr₁ => h s₁ g₁ (hr.trans hr₁)
  | acquire i k => exact fun s₁ g₁ hr₁ => h s₁ g₁ (hr.trans hr₁)
  | release i k => exact fun s₁ g₁ hr₁ => h s₁ g₁ (hr.trans hr₁)

/-- **Code without locks inside a call.** -/
theorem Holds.bind {p : Prog ε ι σ β} {k : β → Prog ε ι σ α}
    (h : Seg O S.excused p (fun b H' s' => ∀ g', Grows kind g g' → (∀ i ∈ H, g' i = g i) →
      (∀ i ∈ H', i ∉ H → g' i = none) → Holds O S kind c (k b) H' s' g') H s) :
    Holds O S kind c (p >>= k) H s g := by
  induction p generalizing H s g with
  | ret b => exact h g (.refl kind g) (fun _ _ => rfl) (fun _ hi hn => absurd hi hn)
  | fail e => exact h
  | atom f l ih =>
    intro s₁ g₁ hr ha
    refine (h s₁ hr.same ha).imp id fun h b s₂ hf => ?_
    obtain ⟨H₁, ht, hl⟩ := h b s₂ hf
    refine ⟨H₁, ht, fun hnew => ih b (hl.mono fun a H' s' hQ g' hg hv hn => ?_)⟩
    refine hQ g' (hr.grows.trans hg) (fun i hi => ?_) (fun i hi hni => ?_)
    · rw [hv i (ht.mono hi), hr.value i hi]
    · by_cases hi₁ : i ∈ H₁
      · rw [hv i hi₁, hnew i hi₁ hni]
      · exact hn i hi hi₁
  | acquire i p => exact h.elim
  | release i p => exact h.elim

/-! ### A call that is made alone -/

/-- All objects but those in `H` are in order. -/
structure Settled (O : Objects ι κ σ) (g : ι → Option κ) (H : Set ι) (s : σ) : Prop where
  obj : ∀ i v, i ∉ H → g i = some v → O.obj i v s
  known : ∀ i v, g i = some v → ¬ O.free i s
  there : ∀ i ∈ H, ¬ O.free i s
  always : ∀ i, O.always i s

/-- One step that touches the objects in `H`. -/
theorem Settled.touch {H' : Set ι} {s' : σ} (h : Settled O g H s) (ht : Touches O H H' s s') :
    Settled O g H' s' where
  obj i v hi hv := O.obj_same (ht.outside i hi) (h.obj i v (fun hH => hi (ht.mono hH)) hv)
  known i v hv hf := by
    by_cases hi : i ∈ H'
    · rcases ht.inside i hi with ⟨-, hsame⟩ | ⟨hnf, -⟩
      · exact h.known i v hv (O.free_same hsame hf)
      · exact hnf hf
    · exact h.known i v hv (O.free_same (ht.outside i hi) hf)
  there i hi hf := by
    rcases ht.inside i hi with ⟨hH, hsame⟩ | ⟨hnf, -⟩
    · exact h.there i hH (O.free_same hsame hf)
    · exact hnf hf
  always := ht.always h.always

/-- The end of a call. -/
theorem Settled.commits {a : α} (h : Settled O g H s) (hc : Commits O S kind c a H s g) :
    ∃ g', S.commit c a g g' ∧ Grows kind g g' ∧ (∀ i ∈ H, g' i ≠ none) ∧ Settled O g' ∅ s := by
  obtain ⟨g', hcommit, hgrows, hout, hobj⟩ := hc
  refine ⟨g', hcommit, hgrows, fun i hi => ?_, fun i v _ hv => ?_, fun i v hv => ?_,
    fun i hi => hi.elim, h.always⟩
  · obtain ⟨v, hv, -⟩ := hobj i hi
    simp [hv]
  · by_cases hi : i ∈ H
    · obtain ⟨v', hv', ho⟩ := hobj i hi
      rw [hv] at hv'
      cases hv'
      exact ho
    · exact h.obj i v hi (hout i hi ▸ hv)
  · by_cases hi : i ∈ H
    · exact h.there i hi
    · exact h.known i v (hout i hi ▸ hv)

/-- A call that has run alone, from a state in which it held the objects in `H`: it has taken
effect, and has left alone what is not there then. -/
structure RunsTo (O : Objects ι κ σ) (S : Service ε ι κ σ χ α) (kind : κ → ρ) (c : χ)
    (H : Set ι) (s : σ) (g : ι → Option κ) (a : α) (s' : σ) (g' : ι → Option κ) : Prop where
  commit : S.commit c a g g'
  grows : Grows kind g g'
  kept : ∀ i ∈ H, g' i ≠ none
  settled : Settled O g' ∅ s'
  same : ∀ i, g' i = none → O.same i s s'

/-- **A call that is made alone takes effect**, unless a step is refused. -/
theorem Holds.run {p : Prog ε ι σ α} (h : Holds O S kind c p H s g) (hs : Settled O g H s)
    (hcond : ∀ i s, S.cond c i s) :
    (∃ a s' g', p.run s = .done a s' ∧ RunsTo O S kind c H s g a s' g') ∨
      (∃ e s', p.run s = .failed e s' ∧ S.excused e) ∨
      ∃ s', p.run s = .blocked s' ∧ O.stuck s' := by
  -- at the end
  have hend : ∀ {H s} {a : α}, Settled O g H s → Commits O S kind c a H s g →
      ∃ g', RunsTo O S kind c H s g a s g' := by
    intro H s a hs hc
    obtain ⟨g', hcommit, hgrows, hkept, hs'⟩ := hs.commits hc
    exact ⟨g', hcommit, hgrows, hkept, hs', fun i _ => O.same_refl i s⟩
  induction p generalizing H s with
  | ret a =>
    obtain ⟨g', hruns⟩ := hend hs h
    exact .inl ⟨a, s, g', rfl, hruns⟩
  | fail e => exact .inr (.inl ⟨e, s, rfl, h⟩)
  | atom f k ih =>
    obtain ⟨hstuck, hstep⟩ := h s g (.refl O kind H s g) hs.always
    cases hf : f s with
    | none => exact .inr (.inr ⟨s, by simp only [Prog.run, hf], hstuck hf⟩)
    | some r =>
      obtain ⟨H', ht, hk⟩ := hstep r.1 r.2 hf
      have hrun : (Prog.atom f k).run s = (k r.1).run r.2 := by simp only [Prog.run, hf]
      have hnew : ∀ i ∈ H', i ∉ H → g i = none := by
        intro i hi hni
        cases hg : g i with
        | none => rfl
        | some v => exact absurd (ht.made i hi hni) (hs.known i v hg)
      rw [hrun]
      refine (ih r.1 (hk hnew) (hs.touch ht)).imp ?_ id
      rintro ⟨a, s', g', hdone, hr⟩
      refine ⟨a, s', g', hdone, hr.commit, hr.grows,
        fun i hi => hr.kept i (ht.mono hi), hr.settled, ?_⟩
      exact fun i hi => O.same_trans (ht.outside i fun hi' => hr.kept i hi' hi) (hr.same i hi)
  | acquire i p ih =>
    obtain ⟨hi, v, hv, hk⟩ := h s g (.refl O kind H s g)
    have hs' : Settled O g (insert i H) s := by
      refine ⟨fun j w hj => hs.obj j w fun hH => hj (.inr hH), hs.known, ?_, hs.always⟩
      rintro j (rfl | hj)
      · exact hs.known j v hv
      · exact hs.there j hj
    refine (ih (hk (hs.obj i v hi hv) (hcond i s)) hs').imp ?_ id
    rintro ⟨a, s', g', hdone, hr⟩
    exact ⟨a, s', g', hdone, hr.commit, hr.grows, fun j hj => hr.kept j (.inr hj),
      hr.settled, hr.same⟩
  | release i p ih =>
    obtain ⟨hi, hk⟩ := h s g (.refl O kind H s g)
    by_cases hret : ∃ a, p = .ret a
    · obtain ⟨a, rfl⟩ := hret
      obtain ⟨g', hruns⟩ := hend hs hk
      exact .inl ⟨a, s, g', rfl, hruns⟩
    · have hk' : (∃ v, g i = some v ∧ O.obj i v s) ∧ Holds O S kind c p (H \ {i}) s g := by
        cases p <;> first | exact hk | exact absurd ⟨_, rfl⟩ hret
      obtain ⟨⟨v, hv, ho⟩, hk'⟩ := hk'
      have hs' : Settled O g (H \ {i}) s := by
        refine ⟨fun j w hj hw => ?_, hs.known, fun j hj => hs.there j hj.1, hs.always⟩
        by_cases hji : j = i
        · subst hji
          rw [hv] at hw
          cases hw
          exact ho
        · exact hs.obj j w (fun hH => hj ⟨hH, hji⟩) hw
      refine (ih hk' hs').imp ?_ id
      rintro ⟨a, s', g', hdone, hr⟩
      refine ⟨a, s', g', hdone, hr.commit, hr.grows, fun j hj => ?_, hr.settled, hr.same⟩
      by_cases hji : j = i
      · subst hji
        obtain ⟨v', hv', -⟩ := hr.grows j v hv
        simp [hv']
      · exact hr.kept j ⟨hj, hji⟩

end Logic

/-! ## Calls take effect one at a time -/

namespace Pool

section Soundness

variable (O : Objects ι κ σ) (S : Service ε ι κ σ χ α)
  (kind : κ → ρ) (g₀ : ι → Option κ)

/-- The invariant of a pool, apart from the threads in `X`: `g` are the abstract values
the calls that ended have left, `H` are the objects each thread owns. -/
structure Inv (X : Set τ) (p : Pool ε ι σ χ α τ) (g : ι → Option κ) (H : τ → Set ι) : Prop where
  runs : S.Runs g₀ p.log g
  holds : ∀ t c k, t ∉ X → p.thread t = some (c, k) →
    (∀ a, k ≠ .ret a) ∧ Holds O S kind c k (H t) p.state g
  idle : ∀ t, t ∉ X → p.thread t = none → H t = ∅
  disj : ∀ t t' i, i ∈ H t → i ∈ H t' → t = t'
  there : ∀ t i, i ∈ H t → ¬ O.free i p.state
  owned : ∀ t i v, t ∉ X → i ∈ H t → g i = some v → p.owner i = some t
  obj : ∀ i v, (∀ t ∈ X, i ∉ H t) → g i = some v → p.owner i = none → O.obj i v p.state
  known : ∀ i v, g i = some v → ¬ O.free i p.state
  always : ∀ i, O.always i p.state

variable {O S kind g₀} {p : Pool ε ι σ χ α τ} {g : ι → Option κ} {H : τ → Set ι} {t : τ} {c : χ}

/-- Leave a thread out. -/
theorem Inv.leaveOut (h : Inv O S kind g₀ ∅ p g H) (t : τ) : Inv O S kind g₀ {t} p g H where
  runs := h.runs
  holds t' c k _ hth := h.holds t' c k (Set.notMem_empty t') hth
  idle t' _ hth := h.idle t' (Set.notMem_empty t') hth
  disj := h.disj
  there := h.there
  owned t' i v _ hi hv := h.owned t' i v (Set.notMem_empty t') hi hv
  obj i v _ hv hno := h.obj i v (fun t' ht' => absurd ht' (Set.notMem_empty t')) hv hno
  known := h.known
  always := h.always

variable [DecidableEq τ]

/-- The thread that was left out ends its call: its objects are in order again, and
nobody's. -/
theorem Inv.finish {a : α} (h : Inv O S kind g₀ {t} p g H)
    (hk : Commits O S kind c a (H t) p.state g) :
    ∃ g', Inv O S kind g₀ ∅ (p.goOn t c (.ret a)) g' (Function.update H t ∅) := by
  obtain ⟨g', hc, hg, hv, hobj⟩ := hk
  have hout : ∀ t' i, i ∈ Function.update H t ∅ t' → t' ≠ t ∧ i ∈ H t' := by
    intro t' i hi
    by_cases htt : t' = t
    · rw [htt, Function.update_self] at hi
      exact hi.elim
    · rw [Function.update_of_ne htt] at hi
      exact ⟨htt, hi⟩
  have hnot : ∀ t' i, t' ≠ t → i ∈ H t' → i ∉ H t := fun t' i hne hi hi' =>
    hne (h.disj t' t i hi hi')
  refine ⟨g', h.runs.snoc hc, ?_, ?_, ?_, ?_, ?_, ?_, ?_, h.always⟩
  · intro t' c' k' _ hth
    have hne : t' ≠ t := by
      rintro rfl
      simp [Pool.goOn] at hth
    have hth' : p.thread t' = some (c', k') := by simpa [Pool.goOn, hne] using hth
    obtain ⟨hk', hh⟩ := h.holds t' c' k' hne hth'
    rw [Function.update_of_ne hne]
    exact ⟨hk', hh.rely hk' ⟨hg, fun i _ => O.same_refl i _, fun i hi => hv i (hnot t' i hne hi)⟩⟩
  · intro t' _ hth
    by_cases hne : t' = t
    · rw [hne, Function.update_self]
    · rw [Function.update_of_ne hne]
      exact h.idle t' hne (by simpa [Pool.goOn, hne] using hth)
  · intro t₁ t₂ i h₁ h₂
    exact h.disj t₁ t₂ i (hout t₁ i h₁).2 (hout t₂ i h₂).2
  · exact fun t' i hi => h.there t' i (hout t' i hi).2
  · intro t' i v _ hi hvi
    obtain ⟨hne, hi'⟩ := hout t' i hi
    rw [hv i (hnot t' i hne hi')] at hvi
    exact h.owned t' i v hne hi' hvi
  · intro i v _ hvi hno
    by_cases hi : i ∈ H t
    · obtain ⟨v', hv', ho'⟩ := hobj i hi
      rw [hvi] at hv'
      cases hv'
      exact ho'
    · rw [hv i hi] at hvi
      exact h.obj i v (fun t' ht' => by rwa [Set.mem_singleton_iff.mp ht']) hvi hno
  · intro i v hvi
    by_cases hi : i ∈ H t
    · exact h.there t i hi
    · rw [hv i hi] at hvi
      exact h.known i v hvi

/-- The thread that was left out comes back in. -/
theorem Inv.goOn {k : Prog ε ι σ α} (h : Inv O S kind g₀ {t} p g H)
    (hk : Holds O S kind c k (H t) p.state g)
    (ho : (∀ a, k ≠ .ret a) → ∀ i v, i ∈ H t → g i = some v → p.owner i = some t) :
    ∃ g' H', Inv O S kind g₀ ∅ (p.goOn t c k) g' H' := by
  by_cases hret : ∃ a, k = .ret a
  · obtain ⟨a, rfl⟩ := hret
    obtain ⟨g', h'⟩ := h.finish hk
    exact ⟨g', _, h'⟩
  · have hk' : ∀ a, k ≠ .ret a := fun a ha => hret ⟨a, ha⟩
    have hgo : p.goOn t c k = { p with thread := Function.update p.thread t (some (c, k)) } := by
      cases k <;> first | rfl | exact absurd rfl (hk' _)
    rw [hgo]
    refine ⟨g, H, h.runs, ?_, ?_, h.disj, h.there, ?_, ?_, h.known, h.always⟩
    · intro t' c' l _ hth
      by_cases hne : t' = t
      · subst hne
        simp only [Function.update_self, Option.some.injEq, Prod.mk.injEq] at hth
        obtain ⟨rfl, rfl⟩ := hth
        exact ⟨hk', hk⟩
      · exact h.holds t' c' l hne (by simpa [hne] using hth)
    · intro t' _ hth
      by_cases hne : t' = t
      · simp [hne] at hth
      · exact h.idle t' hne (by simpa [hne] using hth)
    · intro t' i v _ hi hv
      by_cases hne : t' = t
      · subst hne
        exact ho hk' i v hi hv
      · exact h.owned t' i v hne hi hv
    · intro i v _ hv hno
      by_cases hi : i ∈ H t
      · exact absurd ((ho hk' i v hi hv).symm.trans hno) (by simp)
      · exact h.obj i v (fun t' ht' => by rwa [Set.mem_singleton_iff.mp ht']) hv hno

/-- The thread that is left out takes an atomic step. -/
theorem Inv.touch {s' : σ} {H' : Set ι} (h : Inv O S kind g₀ {t} p g H)
    (ht : Touches O (H t) H' p.state s') :
    Inv O S kind g₀ {t} { p with state := s' } g (Function.update H t H') := by
  -- what a thread owns, it did not just make
  have hold : ∀ t' i, t' ≠ t → i ∈ H t' → i ∉ H' := by
    intro t' i hne hi hi'
    by_cases hit : i ∈ H t
    · exact hne (h.disj t' t i hi hit)
    · exact h.there t' i hi (ht.made i hi' hit)
  have hup : ∀ t' i, t' ≠ t → i ∈ Function.update H t H' t' → i ∈ H t' := by
    intro t' i hne hi
    rwa [Function.update_of_ne hne] at hi
  have hself : ∀ i, i ∈ Function.update H t H' t → i ∈ H' := by
    intro i hi
    rwa [Function.update_self] at hi
  have hthere : ∀ i ∈ H', ¬ O.free i s' := by
    intro i hi hf
    rcases ht.inside i hi with ⟨hit, hsame⟩ | ⟨hnf, -⟩
    · exact h.there t i hit (O.free_same hsame hf)
    · exact hnf hf
  refine ⟨h.runs, ?_, ?_, ?_, ?_, ?_, ?_, ?_, ht.always h.always⟩
  · intro t' c' k' hne hth
    obtain ⟨hk', hh⟩ := h.holds t' c' k' hne hth
    rw [Function.update_of_ne hne]
    exact ⟨hk', hh.rely hk'
      ⟨.refl kind g, fun i hi => ht.outside i (hold t' i hne hi), fun _ _ => rfl⟩⟩
  · intro t' hne hth
    rw [Function.update_of_ne hne]
    exact h.idle t' hne hth
  · intro t₁ t₂ i h₁ h₂
    by_cases e₁ : t₁ = t <;> by_cases e₂ : t₂ = t
    · rw [e₁, e₂]
    · subst e₁
      exact absurd (hself i h₁) (hold t₂ i e₂ (hup t₂ i e₂ h₂))
    · subst e₂
      exact absurd (hself i h₂) (hold t₁ i e₁ (hup t₁ i e₁ h₁))
    · exact h.disj t₁ t₂ i (hup t₁ i e₁ h₁) (hup t₂ i e₂ h₂)
  · intro t' i hi
    by_cases hne : t' = t
    · subst hne
      exact hthere i (hself i hi)
    · have hi' := hup t' i hne hi
      exact fun hf => h.there t' i hi' (O.free_same (ht.outside i (hold t' i hne hi')) hf)
  · exact fun t' i v hne hi hv => h.owned t' i v hne (hup t' i hne hi) hv
  · intro i v hX hv hno
    have hi : i ∉ H' := by
      have := hX t rfl
      rwa [Function.update_self] at this
    refine O.obj_same (ht.outside i hi) (h.obj i v (fun t' ht' => ?_) hv hno)
    rw [Set.mem_singleton_iff.mp ht']
    exact fun hit => hi (ht.mono hit)
  · intro i v hv hf
    by_cases hi : i ∈ H'
    · exact hthere i hi hf
    · exact h.known i v hv (O.free_same (ht.outside i hi) hf)

variable [DecidableEq ι]

/-- The thread that is left out gets a lock, and with it the object. -/
theorem Inv.lock {i : ι} {v : κ} (h : Inv O S kind g₀ {t} p g H) (hv : g i = some v)
    (hno : p.owner i = none) (howned : ∀ j v, j ∈ H t → g j = some v → p.owner j = some t) :
    Inv O S kind g₀ {t} { p with owner := Function.update p.owner i (some t) } g
      (Function.update H t (insert i (H t))) := by
  have hnobody : ∀ t', i ∉ H t' := by
    intro t' hi
    by_cases hne : t' = t
    · subst hne
      simpa [hno] using howned i v hi hv
    · simpa [hno] using h.owned t' i v hne hi hv
  have hup : ∀ t' j, j ∈ Function.update H t (insert i (H t)) t' →
      j ∈ H t' ∨ t' = t ∧ j = i := by
    intro t' j hj
    by_cases hne : t' = t
    · subst hne
      rw [Function.update_self] at hj
      exact hj.symm.imp id fun h => ⟨rfl, h⟩
    · rw [Function.update_of_ne hne] at hj
      exact .inl hj
  refine ⟨h.runs, ?_, ?_, ?_, ?_, ?_, ?_, h.known, h.always⟩
  · intro t' c' k' hne hth
    rw [Function.update_of_ne hne]
    exact h.holds t' c' k' hne hth
  · intro t' hne hth
    rw [Function.update_of_ne hne]
    exact h.idle t' hne hth
  · intro t₁ t₂ j h₁ h₂
    rcases hup t₁ j h₁ with m₁ | ⟨e₁, hj₁⟩ <;> rcases hup t₂ j h₂ with m₂ | ⟨e₂, hj₂⟩
    · exact h.disj t₁ t₂ j m₁ m₂
    · exact absurd (hj₂ ▸ m₁) (hnobody t₁)
    · exact absurd (hj₁ ▸ m₂) (hnobody t₂)
    · rw [e₁, e₂]
  · intro t' j hj
    rcases hup t' j hj with hj | ⟨rfl, rfl⟩
    · exact h.there t' j hj
    · exact h.known j v hv
  · intro t' j w hne hj hw
    rcases hup t' j hj with hj | ⟨rfl, -⟩
    · have hji : j ≠ i := fun e => hnobody t' (e ▸ hj)
      show Function.update p.owner i (some t) j = some t'
      rw [Function.update_of_ne hji]
      exact h.owned t' j w hne hj hw
    · exact absurd rfl hne
  · intro j w hX hw hno'
    have hj := hX t rfl
    rw [Function.update_self, Set.mem_insert_iff, not_or] at hj
    refine h.obj j w (fun t' ht' => ?_) hw ?_
    · rw [Set.mem_singleton_iff.mp ht']
      exact hj.2
    · simpa [hj.1] using hno'

omit [DecidableEq τ] in
/-- The thread that is left out gives up a lock, and still owns the object. -/
theorem Inv.unlock {i : ι} (h : Inv O S kind g₀ {t} p g H) (hi : i ∈ H t) :
    Inv O S kind g₀ {t} { p with owner := Function.update p.owner i none } g H := by
  refine ⟨h.runs, h.holds, h.idle, h.disj, h.there, ?_, ?_, h.known, h.always⟩
  · intro t' j v hne hj hv
    have hji : j ≠ i := by
      rintro rfl
      exact hne (h.disj t' t j hj hi)
    show Function.update p.owner i none j = some t'
    rw [Function.update_of_ne hji]
    exact h.owned t' j v hne hj hv
  · intro j v hX hv hno
    have hji : j ≠ i := by
      rintro rfl
      exact hX t rfl hi
    exact h.obj j v hX hv (by simpa [hji] using hno)

/-- The thread that is left out gives an object away, in order. -/
theorem Inv.give {i : ι} {v : κ} (h : Inv O S kind g₀ {t} p g H) (hv : g i = some v)
    (ho : O.obj i v p.state) :
    Inv O S kind g₀ {t} p g (Function.update H t (H t \ {i})) := by
  have hup : ∀ t' j, j ∈ Function.update H t (H t \ {i}) t' → j ∈ H t' := by
    intro t' j hj
    by_cases hne : t' = t
    · subst hne
      rw [Function.update_self] at hj
      exact hj.1
    · rwa [Function.update_of_ne hne] at hj
  refine ⟨h.runs, ?_, ?_, ?_, ?_, ?_, ?_, h.known, h.always⟩
  · intro t' c' k' hne hth
    rw [Function.update_of_ne hne]
    exact h.holds t' c' k' hne hth
  · intro t' hne hth
    rw [Function.update_of_ne hne]
    exact h.idle t' hne hth
  · exact fun t₁ t₂ j h₁ h₂ => h.disj t₁ t₂ j (hup t₁ j h₁) (hup t₂ j h₂)
  · exact fun t' j hj => h.there t' j (hup t' j hj)
  · exact fun t' j w hne hj hw => h.owned t' j w hne (hup t' j hj) hw
  · intro j w hX hw hno
    by_cases hji : j = i
    · subst hji
      rw [hv] at hw
      cases hw
      exact ho
    · refine h.obj j w (fun t' ht' hj => ?_) hw hno
      rw [Set.mem_singleton_iff.mp ht'] at hj
      exact hX t rfl (by rw [Function.update_self]; exact ⟨hj, hji⟩)

/-- **One step of a pool keeps the invariant.** -/
theorem Inv.step {may : χ → List (χ × α) → Prop} {p' : Pool ε ι σ χ α τ}
    (hmay : ∀ c log g s, S.Runs g₀ log g → may c log → Holds O S kind c (S.prog c) ∅ s g)
    (h : Inv O S kind g₀ ∅ p g H) (hs : Step S may p p') :
    ∃ g' H', Inv O S kind g₀ ∅ p' g' H' := by
  cases hs with
  | @start t c hth hm =>
    have hH := h.idle t (Set.notMem_empty t) hth
    refine (h.leaveOut t).goOn (hH ▸ hmay c p.log g p.state h.runs hm) fun _ i v hi => ?_
    rw [hH] at hi
    exact hi.elim
  | @atom t c δ f k b s hth hf =>
    obtain ⟨-, hh⟩ := h.holds t c _ (Set.notMem_empty t) hth
    obtain ⟨H', ht, hk⟩ := (hh p.state g (.refl O kind (H t) p.state g) h.always).2 b s hf
    -- an object that was just made has no value yet
    have hnew : ∀ i ∈ H', i ∉ H t → g i = none := by
      intro i hi hni
      cases hg : g i with
      | none => rfl
      | some v => exact absurd (ht.made i hi hni) (h.known i v hg)
    refine ((h.leaveOut t).touch ht).goOn (by rw [Function.update_self]; exact hk hnew) ?_
    intro _ i v hi hv
    rw [Function.update_self] at hi
    by_cases hit : i ∈ H t
    · exact h.owned t i v (Set.notMem_empty t) hit hv
    · rw [hnew i hi hit] at hv
      cases hv
  | @acquire t c i k hth hno hc =>
    obtain ⟨-, hh⟩ := h.holds t c _ (Set.notMem_empty t) hth
    obtain ⟨-, v, hv, hk⟩ := hh p.state g (.refl O kind (H t) p.state g)
    have hobj := h.obj i v (fun _ ht => absurd ht (Set.notMem_empty _)) hv hno
    have howned := fun j w hj hw => h.owned t j w (Set.notMem_empty t) hj hw
    refine ((h.leaveOut t).lock hv hno howned).goOn
      (by rw [Function.update_self]; exact hk hobj hc) ?_
    intro _ j w hj hw
    rw [Function.update_self] at hj
    by_cases hji : j = i
    · simp [hji]
    · show Function.update p.owner i (some t) j = some t
      rw [Function.update_of_ne hji]
      exact howned j w (hj.resolve_left hji) hw
  | @release t c i k hth how =>
    obtain ⟨-, hh⟩ := h.holds t c _ (Set.notMem_empty t) hth
    obtain ⟨hi, hk⟩ := hh p.state g (.refl O kind (H t) p.state g)
    have hu := (h.leaveOut t).unlock hi
    by_cases hret : ∃ a, k = .ret a
    · obtain ⟨a, rfl⟩ := hret
      exact hu.goOn (k := .ret a) hk fun hne => absurd rfl (hne a)
    · have hk' : (∃ v, g i = some v ∧ O.obj i v p.state) ∧
          Holds O S kind c k (H t \ {i}) p.state g := by
        cases k <;> first | exact hk | exact absurd ⟨_, rfl⟩ hret
      obtain ⟨⟨v, hv, ho⟩, hk'⟩ := hk'
      refine (hu.give hv ho).goOn (by rw [Function.update_self]; exact hk') ?_
      intro _ j w hj hw
      rw [Function.update_self] at hj
      show Function.update p.owner i none j = some t
      rw [Function.update_of_ne hj.2]
      exact h.owned t j w (Set.notMem_empty t) hj.1 hw

/-- The invariant holds in every reachable pool. -/
theorem inv_reachable {may : χ → List (χ × α) → Prop} {init : σ → Prop}
    (hmay : ∀ c log g s, S.Runs g₀ log g → may c log → Holds O S kind c (S.prog c) ∅ s g)
    (hinit : ∀ s, init s → (∀ i, O.always i s) ∧ ∀ i v, g₀ i = some v → ¬ O.free i s ∧ O.obj i v s)
    (h : Reachable (Init init) (Step S may) p) : ∃ g H, Inv O S kind g₀ ∅ p g H := by
  refine h.invariant (I := fun p => ∃ g H, Inv O S kind g₀ ∅ p g H) ?_ ?_
  · rintro p ⟨hs, ho, hth, hlog⟩
    obtain ⟨ha, hobj⟩ := hinit p.state hs
    refine ⟨g₀, fun _ => ∅, hlog ▸ .nil, ?_, fun _ _ _ => rfl, fun _ _ _ h => h.elim,
      fun _ _ h => h.elim, fun _ _ _ _ h => h.elim, fun i v _ hv _ => (hobj i v hv).2,
      fun i v hv => (hobj i v hv).1, ha⟩
    intro t c k _ hk
    rw [hth t] at hk
    cases hk
  · rintro p p' ⟨g, H, hg⟩ hs
    exact hg.step hmay hs

/-- **Calls take effect one at a time, in the order in which they end**: if every call
that may be made keeps to its objects, then in every reachable pool the calls that have
ended are a run of the specification, every object is always in bounds, and no thread has
run into a fault that is not excused. -/
theorem linearized {may : χ → List (χ × α) → Prop} {init : σ → Prop}
    (hmay : ∀ c log g s, S.Runs g₀ log g → may c log → Holds O S kind c (S.prog c) ∅ s g)
    (hinit : ∀ s, init s → (∀ i, O.always i s) ∧ ∀ i v, g₀ i = some v → ¬ O.free i s ∧ O.obj i v s)
    (h : Reachable (Init init) (Step S may) p) :
    (∃ g, S.Runs g₀ p.log g ∧ ∀ i v, g i = some v → p.owner i = none → O.obj i v p.state) ∧
      (∀ i, O.always i p.state) ∧
      ∀ t c e, p.thread t = some (c, .fail e) → S.excused e := by
  obtain ⟨g, H, hg⟩ := inv_reachable hmay hinit h
  refine ⟨⟨g, hg.runs, fun i v hv hno => ?_⟩, hg.always, fun t c e hth => ?_⟩
  · exact hg.obj i v (fun _ ht => absurd ht (Set.notMem_empty _)) hv hno
  · exact (hg.holds t c _ (Set.notMem_empty t) hth).2

/-- A step that cannot be taken is refused for a reason. -/
theorem refused {may : χ → List (χ × α) → Prop} {init : σ → Prop} {t : τ} {c : χ} {δ : Type}
    {f : σ → Option (δ × σ)} {k : δ → Prog ε ι σ α}
    (hmay : ∀ c log g s, S.Runs g₀ log g → may c log → Holds O S kind c (S.prog c) ∅ s g)
    (hinit : ∀ s, init s → (∀ i, O.always i s) ∧ ∀ i v, g₀ i = some v → ¬ O.free i s ∧ O.obj i v s)
    (h : Reachable (Init init) (Step S may) p) (hth : p.thread t = some (c, .atom f k))
    (hf : f p.state = none) : O.stuck p.state := by
  obtain ⟨g, H, hg⟩ := inv_reachable hmay hinit h
  obtain ⟨-, hh⟩ := hg.holds t c _ (Set.notMem_empty t) hth
  exact (hh p.state g (.refl O kind (H t) p.state g) hg.always).1 hf

end Soundness

end Pool

end Yfs
