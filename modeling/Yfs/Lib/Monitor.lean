import Mathlib.Data.Multiset.Basic
import Mathlib.Data.Multiset.Filter
import Yfs.Lib.Reachable

/-!
# Monitors

A `Monitor` is an object whose calls run under one mutex and may wait at condition variables:
with the mutex in hand a call either goes to sleep at a condition, or returns and signals one
(`Turn`). Any number of threads call it, at any moment, and whichever of them wants the mutex may
get it next; a signal wakes some sleeper, and a sleeper may also wake for no reason.

- `Monitor.replays`: the calls take effect one at a time, in the order in which they return.
- `Monitor.attended`: **no wake-up is lost.** If a call sleeps only while there is no `room` at
  its condition, and whoever makes room signals there, then the calls that are awake can always
  use up the room there is. So when nobody is awake, nobody sleeps where there is room
  (`Monitor.room_eq_zero`).
- `Monitor.comes_to_rest`: the calls that are there do not keep each other awake forever.
-/

namespace Yfs

variable {σ κ ω ρ : Type}

/-- What a call does once it has the mutex. -/
inductive Turn (σ κ ρ : Type) where
  | wait (k : κ) (s : σ)
  | done (r : ρ) (s : σ) (signal : Option κ)

/-- An object whose calls exclude each other. A call that has slept starts over. -/
structure Monitor (σ κ ω ρ : Type) where
  turn : σ → ω → Turn σ κ ρ

/-- The object, the calls that want the mutex, those asleep at a condition, and those that
have returned. -/
structure Monitor.State (σ κ ω ρ : Type) where
  data : σ
  ready : Multiset ω
  asleep : Multiset (κ × ω)
  log : List (ω × ρ)

namespace Monitor

/-- Nobody has called yet. -/
def fresh (s : σ) : State σ κ ω ρ := ⟨s, 0, 0, []⟩

/-- A signal wakes one of those asleep at the condition, if there are any. -/
inductive Signal : Option κ → Multiset ω → Multiset (κ × ω) → Multiset ω → Multiset (κ × ω) → Prop
  | none {R : Multiset ω} {A : Multiset (κ × ω)} : Signal none R A R A
  | nobody {k : κ} {R : Multiset ω} {A : Multiset (κ × ω)} (h : ∀ o, (k, o) ∉ A) :
      Signal (some k) R A R A
  | one {k : κ} {o : ω} {R : Multiset ω} {A : Multiset (κ × ω)} :
      Signal (some k) R ((k, o) ::ₘ A) (o ::ₘ R) A

/-- Somebody gets the mutex. -/
inductive Acts (m : Monitor σ κ ω ρ) : State σ κ ω ρ → State σ κ ω ρ → Prop
  | sleep {s s' : σ} {o : ω} {k : κ} {R : Multiset ω} {A : Multiset (κ × ω)} {l : List (ω × ρ)}
      (h : m.turn s o = .wait k s') : Acts m ⟨s, o ::ₘ R, A, l⟩ ⟨s', R, (k, o) ::ₘ A, l⟩
  | done {s s' : σ} {o : ω} {r : ρ} {sig : Option κ} {R R' : Multiset ω}
      {A A' : Multiset (κ × ω)} {l : List (ω × ρ)} (h : m.turn s o = .done r s' sig)
      (hsig : Signal sig R A R' A') : Acts m ⟨s, o ::ₘ R, A, l⟩ ⟨s', R', A', l ++ [(o, r)]⟩

/-- Somebody calls, who may; gets the mutex; or wakes for no reason. -/
inductive Step (m : Monitor σ κ ω ρ) (may : State σ κ ω ρ → ω → Prop) :
    State σ κ ω ρ → State σ κ ω ρ → Prop
  | call {S : State σ κ ω ρ} {o : ω} (h : may S o) : Step m may S { S with ready := o ::ₘ S.ready }
  | act {S S' : State σ κ ω ρ} (h : m.Acts S S') : Step m may S S'
  | spurious {s : σ} {o : ω} {k : κ} {R : Multiset ω} {A : Multiset (κ × ω)} {l : List (ω × ρ)} :
      Step m may ⟨s, R, (k, o) ::ₘ A, l⟩ ⟨s, o ::ₘ R, A, l⟩

/-- The states that the object gets to, whoever calls it. -/
def Reach (m : Monitor σ κ ω ρ) (may : State σ κ ω ρ → ω → Prop) (s₀ : σ) :
    State σ κ ω ρ → Prop :=
  Reachable (fun S => S = fresh s₀) (m.Step may)

variable {m : Monitor σ κ ω ρ} {may : State σ κ ω ρ → ω → Prop} {s₀ : σ}

/-! ## One call after another -/

/-- The calls of a history ran one at a time, in its order; a call that had to wait may have
left its mark. -/
inductive Replays (m : Monitor σ κ ω ρ) (s₀ : σ) : List (ω × ρ) → σ → Prop
  | nil : Replays m s₀ [] s₀
  | wait {l : List (ω × ρ)} {s s' : σ} {o : ω} {k : κ} :
      Replays m s₀ l s → m.turn s o = .wait k s' → Replays m s₀ l s'
  | done {l : List (ω × ρ)} {s s' : σ} {o : ω} {r : ρ} {sig : Option κ} :
      Replays m s₀ l s → m.turn s o = .done r s' sig → Replays m s₀ (l ++ [(o, r)]) s'

/-- The calls take effect one at a time, in the order in which they return. -/
theorem replays {S : State σ κ ω ρ} (h : m.Reach may s₀ S) : m.Replays s₀ S.log S.data := by
  induction h with
  | start h =>
    subst h
    exact .nil
  | next _ hstep ih =>
    cases hstep with
    | call => exact ih
    | act hact =>
      cases hact with
      | sleep hturn => exact ih.wait hturn
      | done hturn _ => exact ih.done hturn
    | spurious => exact ih

/-- What a call of the history found when its turn came. -/
theorem Reach.returned {S : State σ κ ω ρ} (h : m.Reach may s₀ S) {pre post : List (ω × ρ)} {o : ω}
    {r : ρ} (hl : S.log = pre ++ (o, r) :: post) :
    ∃ S₁ s₂ sig, m.Reach may s₀ S₁ ∧ S₁.log = pre ∧ o ∈ S₁.ready ∧
      m.turn S₁.data o = .done r s₂ sig := by
  induction h generalizing post with
  | start h =>
    subst h
    simp [fresh] at hl
  | @next S S' hS hstep ih =>
    cases hstep with
    | call => exact ih hl
    | act hact =>
      cases hact with
      | sleep => exact ih hl
      | @done s s' o' r' sig R R' A A' l hturn hsig =>
        replace hl : l ++ [(o', r')] = pre ++ (o, r) :: post := hl
        rcases List.eq_nil_or_concat post with rfl | ⟨post', x, rfl⟩
        · obtain ⟨rfl, hx⟩ := List.append_inj' hl rfl
          cases hx
          exact ⟨_, s', sig, hS, rfl, Multiset.mem_cons_self _ _, hturn⟩
        · have hl' : l ++ [(o', r')] = (pre ++ (o, r) :: post') ++ [x] := by simpa using hl
          exact ih (List.append_inj' hl' rfl).1
    | spurious => exact ih hl

/-! ## The calls that have not returned -/

section Pending

variable [DecidableEq ω]

/-- How often this call is waiting for the mutex or asleep. -/
def State.pending (S : State σ κ ω ρ) (o : ω) : ℕ :=
  S.ready.count o + S.asleep.countP fun x => x.2 = o

/-- How often this call has returned. -/
def times (o : ω) (l : List (ω × ρ)) : ℕ := l.countP fun x => x.1 = o

theorem times_snoc (o o' : ω) (l : List (ω × ρ)) (r : ρ) :
    times o (l ++ [(o', r)]) = times o l + if o' = o then 1 else 0 := by
  rw [times, List.countP_append, List.countP_singleton]
  simp [times]

theorem pending_call (S : State σ κ ω ρ) (o o' : ω) :
    ({ S with ready := o' ::ₘ S.ready }.pending o) = S.pending o + if o' = o then 1 else 0 := by
  rw [State.pending, Multiset.count_cons, State.pending]
  simp only [eq_comm (a := o)]
  omega

/-- To wake up is not to return. -/
theorem pending_wake (s : σ) (k : κ) (o o' : ω) (R : Multiset ω) (A : Multiset (κ × ω))
    (l : List (ω × ρ)) :
    (State.mk s (o' ::ₘ R) A l).pending o = (State.mk s R ((k, o') ::ₘ A) l).pending o := by
  rw [State.pending, Multiset.count_cons, State.pending, Multiset.countP_cons]
  simp only [eq_comm (a := o)]
  omega

/-- No call gets lost, and none returns twice. -/
theorem Acts.times_add_pending {S S' : State σ κ ω ρ} (h : m.Acts S S') (o : ω) :
    times o S'.log + S'.pending o = times o S.log + S.pending o := by
  cases h with
  | @sleep s s' o' k R A l hturn =>
    have := pending_wake (ρ := ρ) s k o o' R A l
    show times o l + (State.mk s' R ((k, o') ::ₘ A) l).pending o = times o l + _
    rw [this]
    rfl
  | @done s s' o' r sig R R' A A' l hturn hsig =>
    have hR : (State.mk s' R' A' l).pending o = (State.mk s' R A l).pending o := by
      cases hsig with
      | none => rfl
      | nobody => rfl
      | @one k p _ _ => exact pending_wake s' k o p R A' l
    have hcall := pending_call (State.mk s R A l) o o'
    show times o (l ++ [(o', r)]) + (State.mk s' R' A' l).pending o = times o l + _
    rw [times_snoc, hR, hcall]
    show _ + (State.mk s R A l).pending o = _
    omega

/-- What has returned stays so. -/
theorem Acts.times_le {S S' : State σ κ ω ρ} (h : m.Acts S S') (o : ω) :
    times o S.log ≤ times o S'.log := by
  cases h with
  | sleep => exact le_rfl
  | done =>
    rw [times_snoc]
    exact Nat.le_add_right _ _

end Pending

/-! ## No wake-up is lost -/

/-- A signal leaves fewer asleep. -/
theorem Signal.mem {sig : Option κ} {R R' : Multiset ω} {A A' : Multiset (κ × ω)}
    (h : Signal sig R A R' A') {x : κ × ω} (hx : x ∈ A') : x ∈ A := by
  cases h with
  | none => exact hx
  | nobody => exact hx
  | one => exact Multiset.mem_cons_of_mem hx

section Room

variable [DecidableEq κ]

/-- How many calls can still get past their condition, and where a call waits if it must.
`fits` is what is known of a call that wants the mutex. -/
structure Rooms (m : Monitor σ κ ω ρ) (fits : σ → ω → Prop) where
  room : κ → σ → ℕ
  place : ω → Option κ
  wait {s s' : σ} {o : ω} {k : κ} : fits s o → m.turn s o = .wait k s' →
    place o = some k ∧ room k s = 0 ∧ ∀ k', room k' s' ≤ room k' s
  done {s s' : σ} {o : ω} {r : ρ} {sig : Option κ} : fits s o → m.turn s o = .done r s' sig →
    ∀ k, (place o = some k → room k s' < room k s) ∧
      room k s' ≤ room k s + if sig = some k then 1 else 0

variable {fits : σ → ω → Prop}

/-- The calls awake that have their place at `k`. -/
def Rooms.awake (w : m.Rooms fits) (k : κ) (R : Multiset ω) : ℕ :=
  R.countP fun o => w.place o = some k

theorem Rooms.awake_cons (w : m.Rooms fits) (k : κ) (o : ω) (R : Multiset ω) :
    w.awake k (o ::ₘ R) = w.awake k R + if w.place o = some k then 1 else 0 :=
  Multiset.countP_cons _ _ _

/-- Sleepers are at their place, and if anybody sleeps somewhere then those awake can use up
the room there. -/
structure Rooms.Attended (w : m.Rooms fits) (S : State σ κ ω ρ) : Prop where
  place : ∀ k o, (k, o) ∈ S.asleep → w.place o = some k
  awake : ∀ k o, (k, o) ∈ S.asleep → w.room k S.data ≤ w.awake k S.ready

/-- A signal at a place where somebody still sleeps has woken one who has that place. -/
theorem Rooms.awake_signal (w : m.Rooms fits) {sig : Option κ} {R R' : Multiset ω}
    {A A' : Multiset (κ × ω)} (h : Signal sig R A R' A')
    (hA : ∀ k o, (k, o) ∈ A → w.place o = some k) {k : κ} {o : ω} (hk : (k, o) ∈ A') :
    (w.awake k R + if sig = some k then 1 else 0) ≤ w.awake k R' := by
  cases h with
  | none => simp
  | @nobody k' _ _ hno =>
    have hne : k' ≠ k := fun heq => hno o (heq ▸ hk)
    simp [hne]
  | @one k' p _ _ =>
    have hp := hA k' p (Multiset.mem_cons_self _ _)
    rw [w.awake_cons, hp]

/-- One step of the invariant: a call that gets the mutex. -/
theorem Rooms.attended_acts (w : m.Rooms fits) {S S' : State σ κ ω ρ} (h : w.Attended S)
    (hfit : ∀ o ∈ S.ready, fits S.data o) (hact : m.Acts S S') : w.Attended S' := by
  cases hact with
  | @sleep s s' o k R A l hturn =>
    have hfits : fits s o := hfit o (Multiset.mem_cons_self _ _)
    obtain ⟨hplace, hroom, hle⟩ := w.wait hfits hturn
    constructor
    · intro k' p hp
      rcases Multiset.mem_cons.mp hp with heq | hp
      · cases heq
        exact hplace
      · exact h.place k' p hp
    · intro k' p hp
      rcases Multiset.mem_cons.mp hp with heq | hp
      · -- nobody goes to sleep where there is room
        cases heq
        have := hle k
        show w.room k s' ≤ _
        omega
      · have hold : w.room k' s ≤ w.awake k' (o ::ₘ R) := h.awake k' p hp
        have := hle k'
        show w.room k' s' ≤ w.awake k' R
        by_cases hk : k = k'
        · subst hk
          omega
        · rw [w.awake_cons, hplace, if_neg (by simpa using hk)] at hold
          omega
  | @done s s' o r sig R R' A A' l hturn hsig =>
    have hfits : fits s o := hfit o (Multiset.mem_cons_self _ _)
    constructor
    · intro k p hp
      exact h.place k p (hsig.mem hp)
    · intro k p hp
      -- what the call takes away from the awake ones it takes away from the room
      have hold : w.room k s ≤ w.awake k (o ::ₘ R) := h.awake k p (hsig.mem hp)
      have hnew := w.awake_signal hsig h.place hp
      rw [w.awake_cons] at hold
      obtain ⟨hless, hle⟩ := w.done hfits hturn k
      show w.room k s' ≤ w.awake k R'
      by_cases hk : w.place o = some k
      · have := hless hk
        rw [if_pos hk] at hold
        omega
      · rw [if_neg hk] at hold
        omega

/-- **No wake-up is lost**, whoever calls and however the mutex goes round. -/
theorem attended (w : m.Rooms fits)
    (hfit : ∀ S, m.Reach may s₀ S → ∀ o ∈ S.ready, fits S.data o) {S : State σ κ ω ρ}
    (h : m.Reach may s₀ S) : w.Attended S := by
  induction h with
  | start h =>
    subst h
    exact ⟨by simp [fresh], by simp [fresh]⟩
  | @next S S' hS hstep ih =>
    cases hstep with
    | @call _ o _ =>
      refine ⟨ih.place, fun k p hp => (ih.awake k p hp).trans ?_⟩
      rw [w.awake_cons]
      exact Nat.le_add_right _ _
    | act hact => exact w.attended_acts ih (hfit S hS) hact
    | @spurious s o k R A l =>
      constructor
      · intro k' p hp
        exact ih.place k' p (Multiset.mem_cons_of_mem hp)
      · intro k' p hp
        have hold : w.room k' s ≤ w.awake k' R := ih.awake k' p (Multiset.mem_cons_of_mem hp)
        rw [w.awake_cons]
        exact hold.trans (Nat.le_add_right _ _)

/-- When nobody is awake, nobody sleeps where there is room. -/
theorem room_eq_zero (w : m.Rooms fits)
    (hfit : ∀ S, m.Reach may s₀ S → ∀ o ∈ S.ready, fits S.data o) {S : State σ κ ω ρ}
    (h : m.Reach may s₀ S) (hrest : S.ready = 0) {k : κ} {o : ω} (ho : (k, o) ∈ S.asleep) :
    w.place o = some k ∧ w.room k S.data = 0 := by
  have hatt := attended w hfit h
  have hroom := hatt.awake k o ho
  rw [hrest] at hroom
  exact ⟨hatt.place k o ho, by simpa [Rooms.awake] using hroom⟩

end Room

/-! ## Rest -/

/-- What the calls that are there can still do. -/
def State.work (S : State σ κ ω ρ) : ℕ := 2 * S.ready.card + S.asleep.card

/-- A run in which nobody calls and nobody wakes for no reason. -/
inductive Run (m : Monitor σ κ ω ρ) : ℕ → State σ κ ω ρ → State σ κ ω ρ → Prop
  | refl (S : State σ κ ω ρ) : Run m 0 S S
  | cons {n : ℕ} {S S' S'' : State σ κ ω ρ} : m.Acts S S' → Run m n S' S'' → Run m (n + 1) S S''

/-- To return is to leave, even if it wakes another; to go to sleep is to want less. -/
theorem Acts.work_lt {S S' : State σ κ ω ρ} (h : m.Acts S S') : S'.work < S.work := by
  cases h with
  | sleep h =>
    simp only [State.work, Multiset.card_cons]
    omega
  | done h hsig =>
    cases hsig with
    | none =>
      simp only [State.work, Multiset.card_cons]
      omega
    | nobody =>
      simp only [State.work, Multiset.card_cons]
      omega
    | one =>
      simp only [State.work, Multiset.card_cons]
      omega

/-- Whoever wants the mutex can go on. -/
theorem exists_acts (m : Monitor σ κ ω ρ) {S : State σ κ ω ρ} (h : S.ready ≠ 0) :
    ∃ S', m.Acts S S' := by
  obtain ⟨s, R, A, l⟩ := S
  obtain ⟨o, ho⟩ := Multiset.exists_mem_of_ne_zero h
  obtain ⟨R, rfl⟩ := Multiset.exists_cons_of_mem ho
  cases hturn : m.turn s o with
  | wait k s' => exact ⟨_, .sleep hturn⟩
  | done r s' sig =>
    cases sig with
    | none => exact ⟨_, .done hturn .none⟩
    | some k =>
      by_cases hk : ∃ p, (k, p) ∈ A
      · obtain ⟨p, hp⟩ := hk
        obtain ⟨A, rfl⟩ := Multiset.exists_cons_of_mem hp
        exact ⟨_, .done hturn .one⟩
      · exact ⟨_, .done hturn (.nobody fun p hp => hk ⟨p, hp⟩)⟩

/-- The calls that are there do not keep each other awake forever, and as long as one of them is
awake, one can go on. -/
theorem comes_to_rest {n : ℕ} {S S' : State σ κ ω ρ} (h : m.Run n S S') :
    n ≤ S.work ∧ (S'.ready = 0 ∨ ∃ S'', m.Acts S' S'') := by
  have hsum : n + S'.work ≤ S.work := by
    induction h with
    | refl S => exact (Nat.zero_add _).le
    | cons hact _ ih =>
      have := hact.work_lt
      omega
  refine ⟨by omega, ?_⟩
  by_cases hready : S'.ready = 0
  · exact .inl hready
  · exact .inr (exists_acts m hready)

end Monitor

end Yfs
