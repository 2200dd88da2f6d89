import Mathlib.Data.List.Infix

/-!
# Writing values and reading them back

A `Codec` writes a value as a list of bytes, and reads a value from the front of what is left of a
message into a variable. A `Reader` remembers if a read has failed; a read does not stop there, and
whoever reads asks at the end.

`Codec.Reads` is what a codec is for: a value comes back as it was written, whatever follows; a
reader that has failed stays so; and a message that ends inside a value fails. It goes from the
parts of a value to the whole: `Reads.pair` for one value after another, `Reads.iso` for another
form of a value, `Reads.fold` for a loop over as many values as there are.
-/

namespace Yfs

variable {β α γ δ : Type}

/-- What is left to read, and whether everything read so far was there. -/
structure Reader (β : Type) where
  rest : List β
  ok : Bool
  deriving DecidableEq, Repr

/-- A message, before anything is read. -/
def Reader.new (bytes : List β) : Reader β := ⟨bytes, true⟩

/-- Everything was there, and nothing is left. -/
def Reader.okdone (u : Reader β) : Bool := u.ok && u.rest.isEmpty

theorem Reader.okdone_iff {u : Reader β} : u.okdone = true ↔ u = .new [] := by
  obtain ⟨rest, ok⟩ := u
  simp [okdone, new, and_comm]

/-- How values are written, and read into a variable that has some value already. -/
structure Codec (β α : Type) where
  put : α → List β
  get : α → Reader β → α × Reader β

namespace Codec

variable {c : Codec β α} {d : Codec β γ} {z : α} {w : γ} {P : α → Prop} {Q : γ → Prop}

/-- Values with `P` can be read into a variable that is `z`. -/
structure Reads (c : Codec β α) (z : α) (P : α → Prop) : Prop where
  get_put : ∀ {a}, P a → ∀ rest, c.get z (.new (c.put a ++ rest)) = (a, .new rest)
  failed : ∀ {u}, u.ok = false → (c.get z u).2.ok = false
  cut : ∀ {a}, P a → ∀ {bytes}, bytes <+: c.put a → bytes ≠ c.put a →
    (c.get z (.new bytes)).2.ok = false

/-- A prefix of two lists ends in the first, or in the second. -/
theorem prefix_append_cases {l l₁ l₂ : List β} (h : l <+: l₁ ++ l₂) :
    (l <+: l₁ ∧ l ≠ l₁) ∨ ∃ l', l = l₁ ++ l' ∧ l' <+: l₂ := by
  obtain ⟨t, ht⟩ := h
  rcases List.append_eq_append_iff.mp ht with ⟨s, hs, -⟩ | ⟨s, hs, ht'⟩
  · cases s with
    | nil =>
      rw [List.append_nil] at hs
      exact .inr ⟨[], by rw [hs, List.append_nil], List.nil_prefix⟩
    | cons b s =>
      refine .inl ⟨⟨b :: s, hs.symm⟩, fun heq => ?_⟩
      have hlen := congrArg List.length hs
      rw [heq, List.length_append, List.length_cons] at hlen
      omega
  · exact .inr ⟨s, hs, t, ht'.symm⟩

/-- One byte. -/
def byte : Codec β β where
  put b := [b]
  get z u :=
    match u.rest with
    | [] => (z, ⟨[], false⟩)
    | b :: rest => (b, ⟨rest, u.ok⟩)

theorem byte_reads (z : β) : byte.Reads z fun _ => True where
  get_put _ _ := rfl
  failed := by
    rintro ⟨rest, ok⟩ rfl
    cases rest with
    | nil => rfl
    | cons b rest => rfl
  cut := by
    intro b _ bytes hpre hne
    cases bytes with
    | nil => rfl
    | cons b' bytes =>
      have hlen : (b' :: bytes).length = [b].length :=
        le_antisymm hpre.length_le (Nat.le_add_left 1 _)
      exact absurd (hpre.eq_of_length hlen) hne

/-- One value after another. -/
def pair (c : Codec β α) (d : Codec β γ) : Codec β (α × γ) where
  put x := c.put x.1 ++ d.put x.2
  get x u :=
    let (a, u) := c.get x.1 u
    let (b, u) := d.get x.2 u
    ((a, b), u)

theorem Reads.pair (hc : c.Reads z P) (hd : d.Reads w Q) :
    (c.pair d).Reads (z, w) fun x => P x.1 ∧ Q x.2 where
  get_put := by
    rintro ⟨a, b⟩ ⟨ha, hb⟩ rest
    simp only [Codec.pair, List.append_assoc, hc.get_put ha, hd.get_put hb]
  failed := by
    intro u hu
    exact hd.failed (hc.failed hu)
  cut := by
    rintro ⟨a, b⟩ ⟨ha, hb⟩ bytes hpre hne
    replace hpre : bytes <+: c.put a ++ d.put b := hpre
    rcases prefix_append_cases hpre with ⟨hpre, hne⟩ | ⟨bytes, rfl, hpre'⟩
    · exact hd.failed (hc.cut ha hpre hne)
    · have hne' : bytes ≠ d.put b := by
        rintro rfl
        exact hne rfl
      simp only [Codec.pair, hc.get_put ha]
      exact hd.cut hb hpre' hne'

/-- Values in another form. -/
def iso (c : Codec β α) (f : α → γ) (g : γ → α) : Codec β γ where
  put x := c.put (g x)
  get x u :=
    let (a, u) := c.get (g x) u
    (f a, u)

theorem Reads.iso {f : α → γ} {g : γ → α} (hc : c.Reads (g w) P)
    (hfg : ∀ x, Q x → P (g x) ∧ f (g x) = x) : (c.iso f g).Reads w Q where
  get_put := by
    intro x hx rest
    obtain ⟨hP, hx⟩ := hfg x hx
    simp only [Codec.iso, hc.get_put hP, hx]
  failed := by
    intro u hu
    exact hc.failed hu
  cut := by
    intro x hx bytes hpre hne
    exact hc.cut (hfg x hx).1 hpre hne

/-- `n` times: read into a new variable, and do something with it. -/
def fold (c : Codec β α) (z : α) (f : δ → α → δ) : ℕ → δ → Reader β → δ × Reader β
  | 0, x, u => (x, u)
  | n + 1, x, u =>
    let (a, u) := c.get z u
    fold c z f n (f x a) u

theorem Reads.fold_put (hc : c.Reads z P) (f : δ → α → δ) {l : List α} (hl : ∀ a ∈ l, P a) (x : δ)
    (rest : List β) :
    c.fold z f l.length x (.new (l.flatMap c.put ++ rest)) = (l.foldl f x, .new rest) := by
  induction l generalizing x with
  | nil => rfl
  | cons a l ih =>
    rw [List.flatMap_cons, List.append_assoc, List.length_cons, fold,
      hc.get_put (hl a List.mem_cons_self)]
    exact ih (fun b hb => hl b (List.mem_cons_of_mem _ hb)) (f x a)

theorem Reads.fold_failed (hc : c.Reads z P) (f : δ → α → δ) (n : ℕ) (x : δ) {u : Reader β}
    (hu : u.ok = false) : (c.fold z f n x u).2.ok = false := by
  induction n generalizing x u with
  | zero => exact hu
  | succ n ih => exact ih _ (hc.failed hu)

theorem Reads.fold_cut (hc : c.Reads z P) (f : δ → α → δ) {l : List α} (hl : ∀ a ∈ l, P a) (x : δ)
    {bytes : List β} (hpre : bytes <+: l.flatMap c.put) (hne : bytes ≠ l.flatMap c.put) :
    (c.fold z f l.length x (.new bytes)).2.ok = false := by
  induction l generalizing x bytes with
  | nil => exact absurd (List.prefix_nil.mp hpre) hne
  | cons a l ih =>
    have ha := hl a List.mem_cons_self
    rw [List.flatMap_cons] at hpre hne
    rw [List.length_cons, fold]
    rcases prefix_append_cases hpre with ⟨hpre, hne⟩ | ⟨bytes, rfl, hpre'⟩
    · exact hc.fold_failed f _ _ (hc.cut ha hpre hne)
    · rw [hc.get_put ha]
      refine ih (fun b hb => hl b (List.mem_cons_of_mem _ hb)) (f x a) hpre' ?_
      rintro rfl
      exact hne rfl

/-- A count, and then so many values: what is done with them starts from a value of its own. -/
theorem Reads.counted {n : Codec β δ} {m : δ} {N : δ → Prop} (hn : n.Reads m N)
    (hc : c.Reads z P) (e : Codec β γ) (f : γ → α → γ) (start : γ) (count : γ → δ) (times : δ → ℕ)
    (elems : γ → List α) (hput : ∀ x, e.put x = n.put (count x) ++ (elems x).flatMap c.put)
    (hget : ∀ u, e.get w u = c.fold z f (times (n.get m u).1) start (n.get m u).2) :
    e.Reads w fun x => N (count x) ∧ times (count x) = (elems x).length ∧
      (∀ a ∈ elems x, P a) ∧ (elems x).foldl f start = x where
  get_put := by
    rintro x ⟨hN, htimes, hP, hfold⟩ rest
    rw [hput, List.append_assoc, hget, hn.get_put hN, htimes, hc.fold_put f hP, hfold]
  failed := by
    intro u hu
    rw [hget]
    exact hc.fold_failed f _ _ (hn.failed hu)
  cut := by
    rintro x ⟨hN, htimes, hP, hfold⟩ bytes hpre hne
    rw [hput] at hpre hne
    rw [hget]
    rcases prefix_append_cases hpre with ⟨hpre, hne⟩ | ⟨bytes, rfl, hpre'⟩
    · exact hc.fold_failed f _ _ (hn.cut hN hpre hne)
    · rw [hn.get_put hN, htimes]
      refine hc.fold_cut f hP _ hpre' ?_
      rintro rfl
      exact hne rfl

/-- Fewer values, and they can still be read. -/
theorem Reads.mono (hc : c.Reads z P) {P' : α → Prop} (h : ∀ a, P' a → P a) : c.Reads z P' where
  get_put ha := hc.get_put (h _ ha)
  failed := hc.failed
  cut ha := hc.cut (h _ ha)

end Codec

end Yfs
