import Mathlib.Logic.Function.Basic

/-!
# Programs as sequences of atomic steps

A `Prog` is code cut at the points where other threads can get in: atomic steps on a
shared state, and acquire and release of locks. It is a monad, so the code of a
function is written in `do` notation and read as in its source.

This file has the programs and what they do alone (`run`, with the rules of `wp` for
proofs about it); `Lib.Pool` has what they do together.
-/

namespace Yfs

/-- Code with results in `α`, faults in `ε`, locks in `ι`, on a state in `σ`. An atomic
step that gives `none` cannot be taken in that state. -/
inductive Prog (ε ι σ α : Type) : Type 1
  | ret (a : α)
  | fail (e : ε)
  | atom {β : Type} (f : σ → Option (β × σ)) (k : β → Prog ε ι σ α)
  | acquire (i : ι) (k : Prog ε ι σ α)
  | release (i : ι) (k : Prog ε ι σ α)

namespace Prog

variable {ε ι σ α β γ : Type}

/-- Run `p`, then go on with its result. -/
protected def bind (p : Prog ε ι σ α) (k : α → Prog ε ι σ β) : Prog ε ι σ β :=
  match p with
  | ret a => k a
  | fail e => fail e
  | atom f k' => atom f fun b => (k' b).bind k
  | acquire i k' => acquire i (k'.bind k)
  | release i k' => release i (k'.bind k)

instance : Monad (Prog ε ι σ) where
  pure := ret
  bind := Prog.bind

theorem pure_eq (a : α) : (pure a : Prog ε ι σ α) = ret a := rfl

@[simp] theorem ret_bind (a : α) (k : α → Prog ε ι σ β) : ret a >>= k = k a := rfl

@[simp] theorem fail_bind (e : ε) (k : α → Prog ε ι σ β) : fail e >>= k = fail e := rfl

@[simp] theorem atom_bind {δ : Type} (f : σ → Option (δ × σ)) (g : δ → Prog ε ι σ α)
    (k : α → Prog ε ι σ β) : atom f g >>= k = atom f fun b => g b >>= k := rfl

@[simp] theorem acquire_bind (i : ι) (p : Prog ε ι σ α) (k : α → Prog ε ι σ β) :
    acquire i p >>= k = acquire i (p >>= k) := rfl

@[simp] theorem release_bind (i : ι) (p : Prog ε ι σ α) (k : α → Prog ε ι σ β) :
    release i p >>= k = release i (p >>= k) := rfl

theorem bind_ret (p : Prog ε ι σ α) : p >>= ret = p := by
  induction p with
  | ret a => rfl
  | fail e => rfl
  | atom f k ih => exact congrArg (atom f) (funext ih)
  | acquire i k ih => exact congrArg (acquire i) ih
  | release i k ih => exact congrArg (release i) ih

theorem bind_bind (p : Prog ε ι σ α) (k : α → Prog ε ι σ β) (l : β → Prog ε ι σ γ) :
    p >>= k >>= l = p >>= fun a => k a >>= l := by
  induction p with
  | ret a => rfl
  | fail e => rfl
  | atom f k ih => exact congrArg (atom f) (funext ih)
  | acquire i k ih => exact congrArg (acquire i) ih
  | release i k ih => exact congrArg (release i) ih

instance : LawfulMonad (Prog ε ι σ) := LawfulMonad.mk' _ bind_ret (fun _ _ => rfl) bind_bind

/-- One atomic step that can always be taken. -/
def step (f : σ → α × σ) : Prog ε ι σ α := atom (fun s => some (f s)) ret

/-- Read the state. -/
def read (f : σ → α) : Prog ε ι σ α := step fun s => (f s, s)

/-- Write the state. -/
def modify (f : σ → σ) : Prog ε ι σ Unit := step fun s => ((), f s)

/-- Get a lock. -/
def lock (i : ι) : Prog ε ι σ Unit := acquire i (ret ())

/-- Give a lock up. -/
def unlock (i : ι) : Prog ε ι σ Unit := release i (ret ())

@[simp] theorem lock_bind (i : ι) (k : Unit → Prog ε ι σ β) :
    (lock i : Prog ε ι σ Unit) >>= k = acquire i (k ()) := rfl

@[simp] theorem unlock_bind (i : ι) (k : Unit → Prog ε ι σ β) :
    (unlock i : Prog ε ι σ Unit) >>= k = release i (k ()) := rfl

/-- A program without locks, among programs that have some. -/
def unlocked : Prog ε Empty σ α → Prog ε ι σ α
  | ret a => ret a
  | fail e => fail e
  | atom f k => atom f fun b => (k b).unlocked
  | acquire i _ => i.elim
  | release i _ => i.elim

@[simp] theorem unlocked_pure (a : α) : (pure a : Prog ε Empty σ α).unlocked =
    (pure a : Prog ε ι σ α) := rfl

theorem unlocked_bind (p : Prog ε Empty σ α) (k : α → Prog ε Empty σ β) :
    ((p >>= k).unlocked : Prog ε ι σ β) = p.unlocked >>= fun a => (k a).unlocked := by
  induction p with
  | ret a => rfl
  | fail e => rfl
  | atom f g ih => exact congrArg (atom f) (funext ih)
  | acquire i p => exact i.elim
  | release i p => exact i.elim

/-! ## A program alone -/

/-- How a program that runs alone ends. -/
inductive Outcome (ε σ α : Type)
  | done (a : α) (s : σ)
  | failed (e : ε) (s : σ)
  | blocked (s : σ)
  deriving DecidableEq

namespace Outcome

/-- The state it ends in. -/
def state : Outcome ε σ α → σ
  | done _ s | failed _ s | blocked s => s

/-- What it returns, if it does. -/
def result : Outcome ε σ α → Option α
  | done a _ => some a
  | failed _ _ | blocked _ => none

theorem eq_done {o : Outcome ε σ α} {a : α} (h : o.result = some a) : o = done a o.state := by
  cases o with
  | done b s =>
    obtain rfl := Option.some.inj h
    rfl
  | failed e s => cases h
  | blocked s => cases h

end Outcome

/-- Run a program alone: nobody interferes, and every lock is free. -/
def run : Prog ε ι σ α → σ → Outcome ε σ α
  | ret a, s => .done a s
  | fail e, s => .failed e s
  | atom f k, s =>
    match f s with
    | some (b, s') => (k b).run s'
    | none => .blocked s
  | acquire _ k, s => k.run s
  | release _ k, s => k.run s

/-- The program ends well in a state with `Q`, or in a fault with `E`. -/
def wp (p : Prog ε ι σ α) (Q : α → σ → Prop) (E : ε → σ → Prop) (s : σ) : Prop :=
  match p.run s with
  | .done a s' => Q a s'
  | .failed e s' => E e s'
  | .blocked _ => False

theorem run_bind (p : Prog ε ι σ α) (k : α → Prog ε ι σ β) (s : σ) :
    (p >>= k).run s =
      match p.run s with
      | .done a s' => (k a).run s'
      | .failed e s' => .failed e s'
      | .blocked s' => .blocked s' := by
  induction p generalizing s with
  | ret a => rfl
  | fail e => rfl
  | atom f g ih =>
    simp only [atom_bind, run]
    cases f s with
    | none => rfl
    | some r => exact ih r.1 r.2
  | acquire i p ih => exact ih s
  | release i p ih => exact ih s

section Wp

variable {Q : α → σ → Prop} {E : ε → σ → Prop} {s : σ}

@[simp] theorem wp_pure (a : α) : wp (pure a : Prog ε ι σ α) Q E s ↔ Q a s := Iff.rfl

@[simp] theorem wp_fail (e : ε) : wp (fail e : Prog ε ι σ α) Q E s ↔ E e s := Iff.rfl

@[simp] theorem wp_step (f : σ → α × σ) :
    wp (step f : Prog ε ι σ α) Q E s ↔ Q (f s).1 (f s).2 := Iff.rfl

@[simp] theorem wp_read (f : σ → α) : wp (read f : Prog ε ι σ α) Q E s ↔ Q (f s) s := Iff.rfl

@[simp] theorem wp_modify (f : σ → σ) {Q : Unit → σ → Prop} :
    wp (modify f : Prog ε ι σ Unit) Q E s ↔ Q () (f s) := Iff.rfl

/-- **The rule of sequence.** -/
@[simp] theorem wp_bind (p : Prog ε ι σ α) (k : α → Prog ε ι σ β) {Q : β → σ → Prop} :
    wp (p >>= k) Q E s ↔ wp p (fun a s' => wp (k a) Q E s') E s := by
  unfold wp
  rw [run_bind]
  cases p.run s <;> rfl

/-- **The rule of consequence.** -/
theorem wp_mono {p : Prog ε ι σ α} {Q' : α → σ → Prop} {E' : ε → σ → Prop} (h : wp p Q E s)
    (hQ : ∀ a s', Q a s' → Q' a s') (hE : ∀ e s', E e s' → E' e s') : wp p Q' E' s := by
  unfold wp at h ⊢
  cases hr : p.run s with
  | done a s' => exact hQ a s' (by simpa [hr] using h)
  | failed e s' => exact hE e s' (by simpa [hr] using h)
  | blocked s' => simp [hr] at h

/-- How a program can end. -/
theorem wp_cases {p : Prog ε ι σ α} (h : wp p Q E s) :
    (∃ a s', p.run s = .done a s' ∧ Q a s') ∨ ∃ e s', p.run s = .failed e s' ∧ E e s' := by
  unfold wp at h
  cases hr : p.run s with
  | done a s' => exact .inl ⟨a, s', rfl, by simpa [hr] using h⟩
  | failed e s' => exact .inr ⟨e, s', rfl, by simpa [hr] using h⟩
  | blocked s' => simp [hr] at h

theorem wp_of_failed {p : Prog ε ι σ α} {e : ε} {s' : σ} (hr : p.run s = .failed e s')
    (hE : E e s') : wp p Q E s := by
  rw [wp, hr]
  exact hE

theorem wp_run {p : Prog ε ι σ α} {a : α} {s' : σ} (h : wp p Q E s) (hr : p.run s = .done a s') :
    Q a s' := by
  simpa [wp, hr] using h

/-- A program that cannot fault ends well. -/
theorem wp_done {p : Prog ε ι σ α} (h : wp p Q (fun _ _ => False) s) :
    ∃ a s', p.run s = .done a s' ∧ Q a s' :=
  (wp_cases h).resolve_right fun ⟨_, _, _, hE⟩ => hE

end Wp

/-! ## What a program leaves as it is -/

/-- Wherever the program ends after a start with `P`, it ends with `P`. -/
def Preserves (P : σ → Prop) (p : Prog ε ι σ α) : Prop :=
  ∀ s, P s → wp p (fun _ s' => P s') (fun _ _ => True) s

section Preserves

variable {P : σ → Prop}

theorem preserves_pure (a : α) : (pure a : Prog ε ι σ α).Preserves P := fun _ h => h

theorem preserves_fail (e : ε) : (fail e : Prog ε ι σ α).Preserves P := fun _ _ => trivial

theorem preserves_step {f : σ → α × σ} (h : ∀ s, P s → P (f s).2) :
    (step f : Prog ε ι σ α).Preserves P := h

/-- **The rule of sequence**, after a program that leaves `P` as it is. -/
theorem Preserves.wp_bind {p : Prog ε ι σ α} {k : α → Prog ε ι σ β} {Q : β → σ → Prop} {s : σ}
    (h : p.Preserves P) (hs : P s) (hk : ∀ a s', P s' → wp (k a) Q (fun _ _ => True) s') :
    wp (p >>= k) Q (fun _ _ => True) s := by
  rw [Prog.wp_bind]
  exact wp_mono (h s hs) hk fun _ _ _ => trivial

theorem Preserves.bind {p : Prog ε ι σ α} {k : α → Prog ε ι σ β} (h : p.Preserves P)
    (hk : ∀ a, (k a).Preserves P) : (p >>= k).Preserves P :=
  fun _ hs => h.wp_bind hs fun a s' hs' => hk a s' hs'

theorem Preserves.run {p : Prog ε ι σ α} {a : α} {s s' : σ} (h : p.Preserves P) (hs : P s)
    (hr : p.run s = .done a s') : P s' :=
  wp_run (Q := fun _ s' => P s') (h s hs) hr

end Preserves

/-! ## Programs that need not return -/

/-- If the program returns, it does with `Q`. -/
def wlp (p : Prog ε ι σ α) (Q : α → σ → Prop) (s : σ) : Prop :=
  ∀ a s', p.run s = .done a s' → Q a s'

/-- If the program returns after a start with `P`, it returns with `P`. -/
def Respects (P : σ → Prop) (p : Prog ε ι σ α) : Prop := ∀ s, P s → wlp p (fun _ s' => P s') s

section Wlp

variable {P : σ → Prop} {Q : α → σ → Prop} {s : σ}

theorem wlp_of_wp {p : Prog ε ι σ α} (h : wp p Q (fun _ _ => True) s) : wlp p Q s :=
  fun _ _ hr => wp_run h hr

theorem wlp_pure (a : α) (h : Q a s) : wlp (pure a : Prog ε ι σ α) Q s := by
  intro b s' hr
  cases hr
  exact h

theorem wlp_fail (e : ε) : wlp (fail e : Prog ε ι σ α) Q s := by
  intro b s' hr
  cases hr

/-- A step that cannot be taken. -/
theorem wlp_blocked {δ : Type} {f : σ → Option (δ × σ)} {k : δ → Prog ε ι σ α} (h : f s = none) :
    wlp (atom f k) Q s := by
  intro a s' hr
  simp only [run, h] at hr
  cases hr

/-- **The rule of sequence**, for programs that need not return. -/
theorem wlp_bind {p : Prog ε ι σ α} {k : α → Prog ε ι σ β} {Q : β → σ → Prop}
    (h : wlp p (fun a s' => wlp (k a) Q s') s) : wlp (p >>= k) Q s := by
  intro b s'' hr
  rw [run_bind] at hr
  cases hp : p.run s with
  | done a s' =>
    rw [hp] at hr
    exact h a s' hp b s'' hr
  | failed e s' => simp [hp] at hr
  | blocked s' => simp [hp] at hr

theorem wlp_mono {p : Prog ε ι σ α} {Q' : α → σ → Prop} (h : wlp p Q s)
    (hQ : ∀ a s', Q a s' → Q' a s') : wlp p Q' s :=
  fun a s' hr => hQ a s' (h a s' hr)

theorem respects_pure (a : α) : (pure a : Prog ε ι σ α).Respects P := fun _ h => wlp_pure a h

theorem respects_fail (e : ε) : (fail e : Prog ε ι σ α).Respects P := fun _ _ => wlp_fail e

theorem respects_lock (i : ι) : (lock i : Prog ε ι σ Unit).Respects P := by
  intro s h a s' hr
  cases hr
  exact h

theorem respects_unlock (i : ι) : (unlock i : Prog ε ι σ Unit).Respects P := by
  intro s h a s' hr
  cases hr
  exact h

theorem Respects.bind {p : Prog ε ι σ α} {k : α → Prog ε ι σ β} (h : p.Respects P)
    (hk : ∀ a, (k a).Respects P) : (p >>= k).Respects P :=
  fun s hs => wlp_bind (wlp_mono (h s hs) fun a s' hs' => hk a s' hs')

end Wlp

/-! ## Programs that return or are stuck -/

/-- The program returns with `Q`, or comes to a step that cannot be taken in a state with `B`. It
does not fault. -/
def returns (p : Prog ε ι σ α) (Q : α → σ → Prop) (B : σ → Prop) (s : σ) : Prop :=
  match p.run s with
  | .done a s' => Q a s'
  | .failed _ _ => False
  | .blocked s' => B s'

section Returns

variable {Q : α → σ → Prop} {B : σ → Prop} {s : σ}

@[simp] theorem returns_pure (a : α) : (pure a : Prog ε ι σ α).returns Q B s ↔ Q a s := Iff.rfl

@[simp] theorem returns_lock (i : ι) {Q : Unit → σ → Prop} :
    (lock i : Prog ε ι σ Unit).returns Q B s ↔ Q () s := Iff.rfl

/-- **The rule of sequence**, for programs that may be stuck. -/
@[simp] theorem returns_bind (p : Prog ε ι σ α) (k : α → Prog ε ι σ β) {Q : β → σ → Prop} :
    (p >>= k).returns Q B s ↔ p.returns (fun a s' => (k a).returns Q B s') B s := by
  unfold returns
  rw [run_bind]
  cases p.run s <;> rfl

theorem returns_mono {p : Prog ε ι σ α} {Q' : α → σ → Prop} {B' : σ → Prop} (h : p.returns Q B s)
    (hQ : ∀ a s', Q a s' → Q' a s') (hB : ∀ s', B s' → B' s') : p.returns Q' B' s := by
  unfold returns at h ⊢
  cases hr : p.run s with
  | done a s' => exact hQ a s' (by simpa [hr] using h)
  | failed e s' => simp [hr] at h
  | blocked s' => exact hB s' (by simpa [hr] using h)

/-- How such a program can end. -/
theorem returns_cases {p : Prog ε ι σ α} (h : p.returns Q B s) :
    (∃ a s', p.run s = .done a s' ∧ Q a s') ∨ ∃ s', p.run s = .blocked s' ∧ B s' := by
  unfold returns at h
  cases hr : p.run s with
  | done a s' => exact .inl ⟨a, s', rfl, by simpa [hr] using h⟩
  | failed e s' => simp [hr] at h
  | blocked s' => exact .inr ⟨s', rfl, by simpa [hr] using h⟩

theorem returns_run {p : Prog ε ι σ α} {a : α} {s' : σ} (h : p.returns Q B s)
    (hr : p.run s = .done a s') : Q a s' := by
  simpa [returns, hr] using h

end Returns

/-! ## Programs with more fuel -/

/-- `q` does what `p` does, apart from where `p` ends in fault `e`. -/
def UpTo (e : ε) (p q : Prog ε ι σ α) : Prop :=
  ∀ s, (∃ s', p.run s = .failed e s') ∨ q.run s = p.run s

section UpTo

variable {e : ε} {p q : Prog ε ι σ α}

theorem UpTo.refl (p : Prog ε ι σ α) : UpTo e p p := fun _ => .inr rfl

/-- Where there is no fuel, all else is as good. -/
theorem UpTo.fail (q : Prog ε ι σ α) : UpTo e (fail e) q := fun s => .inl ⟨s, rfl⟩

/-- **The rule of sequence**, for fuel. -/
theorem UpTo.bind {k l : α → Prog ε ι σ β} (h : UpTo e p q) (hk : ∀ a, UpTo e (k a) (l a)) :
    UpTo e (p >>= k) (q >>= l) := by
  intro s
  rw [run_bind, run_bind]
  rcases h s with ⟨s', hp⟩ | hq
  · exact .inl ⟨s', by rw [hp]⟩
  · rw [hq]
    cases p.run s with
    | done a s' => exact hk a s'
    | failed e' s' => exact .inr rfl
    | blocked s' => exact .inr rfl

end UpTo

/-! ## Programs that hand their result on -/

/-- `q` is `p`, and then gives the results with `P` on as they are. -/
def Agrees (P : α → Prop) (p q : Prog ε ι σ α) : Prop :=
  ∃ g, q = p >>= g ∧ ∀ a, P a → g a = pure a

theorem Agrees.eq {P : α → Prop} {p q : Prog ε ι σ α} (h : p.Agrees P q) (hP : ∀ a, P a) :
    q = p := by
  obtain ⟨g, rfl, hg⟩ := h
  have hret : g = ret := funext fun a => hg a (hP a)
  rw [hret, bind_ret]

/-! ## Locks that are kept in the state -/

section Locks

variable (acq rel : ι → σ → σ)

/-- Run a program alone, with what getting a lock and giving it up do to the state. -/
def runWith : Prog ε ι σ α → σ → Outcome ε σ α
  | ret a, s => .done a s
  | fail e, s => .failed e s
  | atom f k, s =>
    match f s with
    | some (b, s') => (k b).runWith s'
    | none => .blocked s
  | acquire i k, s => k.runWith (acq i s)
  | release i k, s => k.runWith (rel i s)

/-- `wp`, for such runs. -/
def wpWith (p : Prog ε ι σ α) (Q : α → σ → Prop) (E : ε → σ → Prop) (s : σ) : Prop :=
  match p.runWith acq rel s with
  | .done a s' => Q a s'
  | .failed e s' => E e s'
  | .blocked _ => False

variable {acq rel} {Q : α → σ → Prop} {E : ε → σ → Prop} {s : σ}

theorem runWith_bind (p : Prog ε ι σ α) (k : α → Prog ε ι σ β) (s : σ) :
    (p >>= k).runWith acq rel s =
      match p.runWith acq rel s with
      | .done a s' => (k a).runWith acq rel s'
      | .failed e s' => .failed e s'
      | .blocked s' => .blocked s' := by
  induction p generalizing s with
  | ret a => rfl
  | fail e => rfl
  | atom f g ih =>
    simp only [atom_bind, runWith]
    cases f s with
    | none => rfl
    | some r => exact ih r.1 r.2
  | acquire i p ih => exact ih (acq i s)
  | release i p ih => exact ih (rel i s)

@[simp] theorem wpWith_pure (a : α) :
    wpWith acq rel (pure a : Prog ε ι σ α) Q E s ↔ Q a s := Iff.rfl

@[simp] theorem wpWith_fail (e : ε) :
    wpWith acq rel (fail e : Prog ε ι σ α) Q E s ↔ E e s := Iff.rfl

@[simp] theorem wpWith_step (f : σ → α × σ) :
    wpWith acq rel (step f : Prog ε ι σ α) Q E s ↔ Q (f s).1 (f s).2 := Iff.rfl

@[simp] theorem wpWith_lock (i : ι) {Q : Unit → σ → Prop} :
    wpWith acq rel (lock i : Prog ε ι σ Unit) Q E s ↔ Q () (acq i s) := Iff.rfl

@[simp] theorem wpWith_unlock (i : ι) {Q : Unit → σ → Prop} :
    wpWith acq rel (unlock i : Prog ε ι σ Unit) Q E s ↔ Q () (rel i s) := Iff.rfl

@[simp] theorem wpWith_bind (p : Prog ε ι σ α) (k : α → Prog ε ι σ β) {Q : β → σ → Prop} :
    wpWith acq rel (p >>= k) Q E s ↔
      wpWith acq rel p (fun a s' => wpWith acq rel (k a) Q E s') E s := by
  unfold wpWith
  rw [runWith_bind]
  cases p.runWith acq rel s <;> rfl

end Locks

end Prog

end Yfs
