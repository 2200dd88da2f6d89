import Mathlib.Data.Multiset.Basic
import Yfs.Lib.Monitor

/-!
# The blocking queue of the RPC library

`fifo<T>`: a list under a mutex, with a condition for those who wait for an element and one for
those who wait for space. Each method is one `Turn` of a `Monitor`; `max = 0` means no limit.

Any number of threads may call it. Everything accepted comes out once and in order, a bounded
queue never holds more than `max`, and although a method signals at most one sleeper, at most once,
no thread sleeps on an element that is there or on space that is there (`Fifo.queue_serves`).

Not modelled: the destructor, which asks that nobody uses the queue any more.
-/

namespace Yfs.Rpc.Fifo

/-- `non_empty_c_` and `has_space_c_`. -/
inductive Cond where
  | nonEmpty
  | hasSpace
  deriving DecidableEq, Repr

inductive Call (α : Type) where
  | enq (e : α) (blocking : Bool)
  | deq
  | size
  deriving DecidableEq, Repr

inductive Reply (α : Type) where
  | enq (ok : Bool)
  | deq (e : α)
  | size (b : Bool)
  deriving DecidableEq, Repr

variable {α : Type}

/-- `fifo::enq`. -/
def enq (max : ℕ) (q : List α) (e : α) (blocking : Bool) : Turn (List α) Cond (Reply α) :=
  if max = 0 ∨ q.length < max then .done (.enq true) (q ++ [e]) (some .nonEmpty)
  else if blocking then .wait .hasSpace q
  else .done (.enq false) q none

/-- `fifo::deq`. -/
def deq (max : ℕ) : List α → Turn (List α) Cond (Reply α)
  | [] => .wait .nonEmpty []
  | e :: q => .done (.deq e) q (if max ≠ 0 ∧ q.length < max then some .hasSpace else none)

/-- `fifo::size`, which returns a `bool`. -/
def size (q : List α) : Turn (List α) Cond (Reply α) := .done (.size (!q.isEmpty)) q none

/-- The queue that `fifo(max)` makes. -/
def fifo (max : ℕ) : Monitor (List α) Cond (Call α) (Reply α) where
  turn q
    | .enq e blocking => enq max q e blocking
    | .deq => deq max q
    | .size => size q

/-! ## What a queue is for -/

/-- The elements that the calls of a history put in. -/
def accepted : List (Call α × Reply α) → List α :=
  List.filterMap fun
    | (.enq e _, .enq true) => some e
    | _ => none

/-- The elements that they took out. -/
def taken : List (Call α × Reply α) → List α :=
  List.filterMap fun
    | (.deq, .deq e) => some e
    | _ => none

/-- What is in between. -/
def held (l : List (Call α × Reply α)) : List α := (accepted l).drop (taken l).length

/-- What a queue of at most `max` elements that holds `q` may answer. -/
def Answers (max : ℕ) (q : List α) : Call α → Reply α → Prop
  | .enq _ _, .enq true => max = 0 ∨ q.length < max
  | .enq _ blocking, .enq false => blocking = false ∧ max ≠ 0 ∧ q.length = max
  | .deq, .deq e => q.head? = some e
  | .size, .size b => b = true ↔ q ≠ []
  | _, _ => False

/-- One call: what it puts in, takes out and answers. -/
theorem turn_done {max : ℕ} {q q' : List α} {c : Call α} {r : Reply α} {sig : Option Cond}
    (hq : max ≠ 0 → q.length ≤ max) (h : (fifo max).turn q c = .done r q' sig) :
    q ++ accepted [(c, r)] = taken [(c, r)] ++ q' ∧ (max ≠ 0 → q'.length ≤ max) ∧
      Answers max q c r := by
  cases c with
  | enq e blocking =>
    have h' : enq max q e blocking = .done r q' sig := h
    unfold enq at h'
    split at h'
    case isTrue hroom =>
      cases h'
      refine ⟨rfl, fun hmax => ?_, hroom⟩
      rw [List.length_append, List.length_singleton]
      omega
    case isFalse hfull =>
      cases blocking with
      | true => cases h'
      | false =>
        cases h'
        refine ⟨List.append_nil _, hq, rfl, ?_⟩
        omega
  | deq =>
    cases q with
    | nil => cases h
    | cons e q =>
      cases h
      refine ⟨List.append_nil _, fun hmax => ?_, rfl⟩
      have := hq hmax
      rw [List.length_cons] at this
      omega
  | size =>
    cases h
    refine ⟨List.append_nil _, hq, ?_⟩
    show (!q.isEmpty) = true ↔ q ≠ []
    cases q with
    | nil => simp
    | cons e q => simp

/-- The calls that had to wait left the queue alone. -/
theorem turn_wait {max : ℕ} {q q' : List α} {c : Call α} {k : Cond}
    (h : (fifo max).turn q c = .wait k q') :
    q' = q ∧ ((k = .nonEmpty ∧ c = .deq ∧ q = []) ∨
      (k = .hasSpace ∧ (∃ e, c = .enq e true) ∧ max ≠ 0 ∧ max ≤ q.length)) := by
  cases c with
  | enq e blocking =>
    have h' : enq max q e blocking = .wait k q' := h
    unfold enq at h'
    split at h'
    case isTrue => cases h'
    case isFalse hfull =>
      cases blocking with
      | true =>
        cases h'
        refine ⟨rfl, .inr ⟨rfl, ⟨e, rfl⟩, ?_⟩⟩
        omega
      | false => cases h'
  | deq =>
    cases q with
    | nil =>
      cases h
      exact ⟨rfl, .inl ⟨rfl, rfl, rfl⟩⟩
    | cons e q => cases h
  | size => cases h

/-- First in, first out, and never too many. -/
theorem replays_held {max : ℕ} {l : List (Call α × Reply α)} {q : List α}
    (h : (fifo max).Replays [] l q) :
    accepted l = taken l ++ q ∧ (max ≠ 0 → q.length ≤ max) := by
  induction h with
  | nil => exact ⟨rfl, fun _ => Nat.zero_le _⟩
  | wait _ hturn ih =>
    obtain ⟨rfl, -⟩ := turn_wait hturn
    exact ih
  | @done l q q' c r sig _ hturn ih =>
    obtain ⟨hio, hlen, -⟩ := turn_done ih.2 hturn
    refine ⟨?_, hlen⟩
    calc accepted (l ++ [(c, r)]) = accepted l ++ accepted [(c, r)] := List.filterMap_append
      _ = taken l ++ (q ++ accepted [(c, r)]) := by rw [ih.1, List.append_assoc]
      _ = (taken l ++ taken [(c, r)]) ++ q' := by rw [hio, List.append_assoc]
      _ = taken (l ++ [(c, r)]) ++ q' := by rw [taken, List.filterMap_append]

theorem held_eq {max : ℕ} {l : List (Call α × Reply α)} {q : List α}
    (h : (fifo max).Replays [] l q) : held l = q := by
  rw [held, (replays_held h).1, List.drop_left]

/-! ## Who waits, and for what -/

/-- Where a call waits if it has to. -/
def place (max : ℕ) : Call α → Option Cond
  | .deq => some .nonEmpty
  | .enq _ blocking => if blocking = true ∧ max ≠ 0 then some .hasSpace else none
  | .size => none

theorem place_nonEmpty {max : ℕ} {c : Call α} : place max c = some .nonEmpty ↔ c = .deq := by
  cases c with
  | enq e blocking =>
    show (if blocking = true ∧ max ≠ 0 then some Cond.hasSpace else none) = some .nonEmpty ↔ _
    split <;> simp
  | deq => simp [place]
  | size => simp [place]

theorem place_hasSpace {max : ℕ} {c : Call α} :
    place max c = some .hasSpace ↔ (∃ e, c = .enq e true) ∧ max ≠ 0 := by
  cases c with
  | enq e blocking => simp [place]
  | deq => simp [place]
  | size => simp [place]

/-- The elements that are there are room for `deq`, the free places are room for `enq`. -/
def rooms (max : ℕ) : (fifo (α := α) max).Rooms fun _ _ => True where
  room
    | .nonEmpty, q => q.length
    | .hasSpace, q => max - q.length
  place := place max
  wait := by
    intro q q' c k _ h
    obtain ⟨rfl, ⟨rfl, rfl, rfl⟩ | ⟨rfl, hc, hmax, hfull⟩⟩ := turn_wait h
    · exact ⟨rfl, rfl, fun _ => le_rfl⟩
    · exact ⟨place_hasSpace.mpr ⟨hc, hmax⟩, Nat.sub_eq_zero_of_le hfull, fun _ => le_rfl⟩
  done := by
    intro q q' c r sig _ h k
    cases c with
    | enq e blocking =>
      have h' : enq max q e blocking = .done r q' sig := h
      unfold enq at h'
      split at h'
      case isTrue hroom =>
        cases h'
        cases k with
        | nonEmpty => simp [place_nonEmpty]
        | hasSpace =>
          simp only [place_hasSpace, List.length_append, List.length_singleton]
          omega
      case isFalse hfull =>
        cases blocking with
        | true => cases h'
        | false =>
          cases h'
          exact ⟨(nomatch ·), Nat.le_add_right _ _⟩
    | deq =>
      cases q with
      | nil => cases h
      | cons e q =>
        cases h
        cases k with
        | nonEmpty => simp
        | hasSpace =>
          refine ⟨(nomatch ·), ?_⟩
          show max - q'.length ≤ max - (q'.length + 1) + _
          by_cases hsig : max ≠ 0 ∧ q'.length < max
          · rw [if_pos hsig, if_pos rfl]
            omega
          · rw [if_neg hsig, if_neg (by simp)]
            omega
    | size =>
      cases h
      exact ⟨(nomatch ·), Nat.le_add_right _ _⟩

/-- **The queue serves its threads**, however many call it and in whatever order they get the
mutex. What was accepted comes out once and in order, and what is not out yet is in the queue;
a bounded queue is never overfull; each call got the answer of a queue that runs its calls
one after the other. When no thread is awake, a `deq` that sleeps found the queue empty and it
still is, and an `enq` that sleeps found it full and it still is; and that is where the calls
that are there get to. -/
theorem queue_serves {max : ℕ} {S : Monitor.State (List α) Cond (Call α) (Reply α)}
    (h : (fifo max).Reach (fun _ _ => True) [] S) :
    (accepted S.log = taken S.log ++ S.data ∧ (max ≠ 0 → S.data.length ≤ max)) ∧
    (∀ pre c r post, S.log = pre ++ (c, r) :: post → Answers max (held pre) c r) ∧
    (S.ready = 0 → ∀ k c, (k, c) ∈ S.asleep →
      (c = .deq ∧ S.data = []) ∨ ((∃ e, c = .enq e true) ∧ max ≠ 0 ∧ S.data.length = max)) ∧
    (∀ n S', (fifo max).Run n S S' →
      n ≤ S.work ∧ (S'.ready = 0 ∨ ∃ S'', (fifo max).Acts S' S'')) := by
  have hrep := Monitor.replays h
  obtain ⟨hio, hlen⟩ := replays_held hrep
  refine ⟨⟨hio, hlen⟩, ?_, ?_, fun n S' => Monitor.comes_to_rest⟩
  · intro pre c r post hl
    obtain ⟨S₁, q', sig, hS₁, rfl, -, hturn⟩ := h.returned hl
    have hpre := Monitor.replays hS₁
    rw [held_eq hpre]
    exact (turn_done (replays_held hpre).2 hturn).2.2
  · intro hrest k c hc
    obtain ⟨hplace, hroom⟩ :=
      Monitor.room_eq_zero (rooms max) (fun _ _ _ _ => trivial) h hrest hc
    cases k with
    | nonEmpty => exact .inl ⟨place_nonEmpty.mp hplace, List.length_eq_zero_iff.mp hroom⟩
    | hasSpace =>
      obtain ⟨hc, hmax⟩ := place_hasSpace.mp hplace
      refine .inr ⟨hc, hmax, le_antisymm (hlen hmax) ?_⟩
      exact Nat.le_of_sub_eq_zero hroom

/-- A queue for one element that has it, and a thread that sleeps on space. -/
def full : Monitor.State (List ℕ) Cond (Call ℕ) (Reply ℕ) :=
  ⟨[7], 0, {(.hasSpace, .enq 8 true)}, [(.enq 7 false, .enq true)]⟩

theorem reach_full : (fifo 1).Reach (fun _ _ => True) [] full := by
  have h₁ : (fifo 1).Reach (fun _ _ => True) [] ⟨[], {.enq 7 false}, 0, []⟩ :=
    .next (.start rfl) (.call trivial)
  have h₂ : (fifo 1).Reach (fun _ _ => True) [] ⟨[7], 0, 0, [(.enq 7 false, .enq true)]⟩ :=
    h₁.next (.act (.done rfl (.nobody (by simp))))
  have h₃ : (fifo 1).Reach (fun _ _ => True) []
      ⟨[7], {.enq 8 true}, 0, [(.enq 7 false, .enq true)]⟩ := h₂.next (.call trivial)
  exact h₃.next (.act (.sleep rfl))

theorem queue_serves_full :
    accepted full.log = taken full.log ++ full.data ∧ full.data.length = 1 := by
  obtain ⟨⟨hio, -⟩, -, hsleep, -⟩ := queue_serves reach_full
  obtain ⟨hdeq, -⟩ | ⟨-, -, hlen⟩ := hsleep rfl .hasSpace (.enq 8 true) (by decide)
  · cases hdeq
  · exact ⟨hio, hlen⟩

end Yfs.Rpc.Fifo
