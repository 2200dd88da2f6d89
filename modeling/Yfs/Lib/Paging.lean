import Mathlib.Data.List.TakeDrop
import Mathlib.Data.Nat.Find

/-!
# Reading a list in pages

A buffer holds entries one after the other, each with the offset at which it ends. A reader is
given pages, which are pieces of the buffer from some offset on and are cut anywhere. It takes
the entries that are there completely, and asks for the next page from the offset that came
with the last of them. If every page has room for any entry, then it is given all entries, in
order and once each, and then an empty page (`reads_all`).
-/

namespace Yfs

/-- How entries are written, and read from the front of a page. -/
structure Format (β ε : Type) where
  /-- the room that an entry takes -/
  size : ε → ℕ
  /-- an entry, with an offset -/
  write : ε → ℕ → List β
  /-- the first entry with its offset, and what is behind it -/
  next : List β → Option ((ε × ℕ) × List β)

namespace Format

variable {β ε : Type} (F : Format β ε)

/-- An entry with this offset is read as it was written, and not if something is missing. -/
structure Good (e : ε) (n : ℕ) : Prop where
  pos : 0 < F.size e
  length : (F.write e n).length = F.size e
  next : ∀ rest, F.next (F.write e n ++ rest) = some ((e, n), rest)
  cut : ∀ page, page <+: F.write e n → page.length < F.size e → F.next page = none

/-- The room that all the entries take. -/
def total : List ε → ℕ
  | [] => 0
  | e :: es => F.size e + total es

/-- The entries from offset `n` on, with the offsets at which they end. -/
def marks : ℕ → List ε → List (ε × ℕ)
  | _, [] => []
  | n, e :: es => (e, n + F.size e) :: marks (n + F.size e) es

/-- The buffer from offset `n` on. -/
def buffer (n : ℕ) (es : List ε) : List β := (F.marks n es).flatMap fun x => F.write x.1 x.2

/-- What the reader takes from a page. -/
def entries (page : List β) : List (ε × ℕ) :=
  match F.next page with
  | none => []
  | some (x, rest) => if rest.length < page.length then x :: entries rest else []
termination_by page.length

/-- What the reader asks from after a page: the last offset in it. -/
def after (off : ℕ) (page : List β) : ℕ := ((F.entries page).getLast?.map Prod.snd).getD off

section Pages

variable {F} {es pre post : List ε} {e : ε} {n m : ℕ}

@[simp] theorem total_nil : F.total [] = 0 := rfl

@[simp] theorem total_cons : F.total (e :: es) = F.size e + F.total es := rfl

@[simp] theorem total_append : F.total (pre ++ post) = F.total pre + F.total post := by
  induction pre with
  | nil => exact (Nat.zero_add _).symm
  | cons e pre ih => rw [List.cons_append, total_cons, ih, total_cons, Nat.add_assoc]

@[simp] theorem marks_nil : F.marks n [] = [] := rfl

@[simp] theorem marks_cons :
    F.marks n (e :: es) = (e, n + F.size e) :: F.marks (n + F.size e) es := rfl

theorem marks_append :
    F.marks n (pre ++ post) = F.marks n pre ++ F.marks (n + F.total pre) post := by
  induction pre generalizing n with
  | nil => rfl
  | cons e pre ih =>
    rw [List.cons_append, marks_cons, ih, total_cons, marks_cons, Nat.add_assoc]; rfl

@[simp] theorem map_fst_marks : (F.marks n es).map Prod.fst = es := by
  induction es generalizing n with
  | nil => rfl
  | cons e es ih => rw [marks_cons, List.map_cons, ih]

theorem mem_marks {x : ε × ℕ} (h : x ∈ F.marks n es) : x.1 ∈ es ∧ x.2 ≤ n + F.total es := by
  induction es generalizing n with
  | nil => cases h
  | cons e es ih =>
    rw [total_cons]
    rcases List.mem_cons.mp h with rfl | h
    · exact ⟨List.mem_cons_self, by omega⟩
    · have hx := ih h
      exact ⟨List.mem_cons_of_mem _ hx.1, by omega⟩

/-- The last offset is that of the end. -/
theorem getLast_marks : ((F.marks n es).getLast?.map Prod.snd).getD n = n + F.total es := by
  induction es generalizing n with
  | nil => rfl
  | cons e es ih =>
    have h := ih (n := n + F.size e)
    rw [marks_cons, List.getLast?_cons, total_cons, ← Nat.add_assoc, ← h]
    cases (F.marks (n + F.size e) es).getLast? with
    | none => rfl
    | some x => rfl

@[simp] theorem buffer_nil : F.buffer n [] = [] := rfl

@[simp] theorem buffer_cons :
    F.buffer n (e :: es) = F.write e (n + F.size e) ++ F.buffer (n + F.size e) es := rfl

theorem buffer_append :
    F.buffer n (pre ++ post) = F.buffer n pre ++ F.buffer (n + F.total pre) post := by
  rw [buffer, marks_append, List.flatMap_append]
  rfl

theorem length_buffer (h : ∀ x ∈ F.marks n es, F.Good x.1 x.2) :
    (F.buffer n es).length = F.total es := by
  induction es generalizing n with
  | nil => rfl
  | cons e es ih =>
    rw [marks_cons, List.forall_mem_cons] at h
    rw [buffer_cons, List.length_append, h.1.length, ih h.2, total_cons]

/-- The buffer from the end of an entry on. -/
theorem drop_buffer (h : ∀ x ∈ F.marks n (pre ++ post), F.Good x.1 x.2) :
    (F.buffer n (pre ++ post)).drop (F.total pre) = F.buffer (n + F.total pre) post := by
  rw [marks_append] at h
  rw [buffer_append, ← length_buffer fun x hx => h x (List.mem_append_left _ hx), List.drop_left]

theorem entries_nil : F.entries [] = [] := by
  unfold entries
  split
  · rfl
  · exact if_neg (Nat.not_lt_zero _)

/-- **A page has the entries that fit.** -/
theorem entries_take (h : ∀ x ∈ F.marks n es, F.Good x.1 x.2) (m : ℕ) :
    ∃ pre post, es = pre ++ post ∧ F.entries ((F.buffer n es).take m) = F.marks n pre ∧
      ∀ e ∈ post.head?, m < F.total pre + F.size e := by
  induction es generalizing n m with
  | nil => exact ⟨[], [], rfl, by rw [buffer_nil, List.take_nil, entries_nil, marks_nil], by simp⟩
  | cons e es ih =>
    rw [marks_cons, List.forall_mem_cons] at h
    have hgood : F.Good e (n + F.size e) := h.1
    have hlen := hgood.length
    rw [buffer_cons]
    by_cases hm : F.size e ≤ m
    · obtain ⟨pre, post, rfl, hpre, hpost⟩ := ih h.2 (m - F.size e)
      refine ⟨e :: pre, post, rfl, ?_, fun e' he' => ?_⟩
      · have hpos := hgood.pos
        rw [List.take_append, List.take_of_length_le (by omega), hlen, entries, hgood.next]
        simp only [List.length_append, hpre, marks_cons]
        exact if_pos (by omega)
      · have := hpost e' he'
        rw [total_cons]
        omega
    · -- the entry is cut
      refine ⟨[], e :: es, rfl, ?_, fun e' he' => ?_⟩
      · rw [List.take_append_of_le_length (by omega), entries,
          hgood.cut _ (List.take_prefix ..) (by rw [List.length_take]; omega)]
        rfl
      · obtain rfl : e = e' := by simpa using he'
        rw [total_nil]
        omega

end Pages

/-! ## The reader -/

section Reader

variable (reply : ℕ → ℕ → List β)

/-- The offset that the reader gives when it asks for page `k`. -/
def offset : ℕ → ℕ
  | 0 => 0
  | k + 1 => F.after (offset k) (reply k (offset k))

/-- Page `k`. -/
def page (k : ℕ) : List β := reply k (F.offset reply k)

/-- What the reader has got from the first `k` pages. -/
def received (k : ℕ) : List ε :=
  (List.range k).flatMap fun j => (F.entries (F.page reply j)).map Prod.fst

variable {F reply} {es pre post : List ε} {k n : ℕ} {size : ℕ → ℕ}

theorem received_succ :
    F.received reply (k + 1) = F.received reply k ++ (F.entries (F.page reply k)).map Prod.fst := by
  rw [received, List.range_succ, List.flatMap_append, List.flatMap_singleton]
  rfl

/-- The reader has got these entries when it asks for page `k`. -/
structure Got (F : Format β ε) (reply : ℕ → ℕ → List β) (k : ℕ) (es : List ε) : Prop where
  offset : F.offset reply k = F.total es
  received : F.received reply k = es

theorem Got.start : Got F reply 0 [] := ⟨rfl, rfl⟩

/-- **One page** brings what is next, and something if there is anything. -/
theorem Got.step (h : Got F reply k pre) (hgood : ∀ x ∈ F.marks 0 (pre ++ post), F.Good x.1 x.2)
    (hreply : F.page reply k = ((F.buffer 0 (pre ++ post)).drop (F.total pre)).take (size k))
    (hsize : ∀ e ∈ post, F.size e ≤ size k) :
    ∃ got post', post = got ++ post' ∧ Got F reply (k + 1) (pre ++ got) ∧
      F.entries (F.page reply k) = F.marks (F.total pre) got ∧ (post ≠ [] → got ≠ []) := by
  have hrest : ∀ x ∈ F.marks (0 + F.total pre) post, F.Good x.1 x.2 := fun x hx =>
    hgood x (marks_append ▸ List.mem_append_right _ hx)
  obtain ⟨got, post', rfl, hgot, hcut⟩ := entries_take hrest (size k)
  rw [drop_buffer hgood] at hreply
  rw [← hreply, Nat.zero_add] at hgot
  refine ⟨got, post', rfl, ⟨?_, ?_⟩, hgot, fun hne hnil => ?_⟩
  · show F.after (F.offset reply k) (F.page reply k) = _
    rw [after, hgot, h.offset, getLast_marks, total_append]
  · rw [received_succ, h.received, hgot, map_fst_marks]
  · subst hnil
    obtain ⟨e, post, rfl⟩ := List.exists_cons_of_ne_nil hne
    have hlt := hcut e rfl
    rw [total_nil, Nat.zero_add] at hlt
    exact absurd (hsize e List.mem_cons_self) (Nat.not_le.mpr hlt)

section All

variable (hgood : ∀ x ∈ F.marks 0 es, F.Good x.1 x.2)
  (hreply : ∀ k off, reply k off = ((F.buffer 0 es).drop off).take (size k))
  (hsize : ∀ k, ∀ e ∈ es, F.size e ≤ size k)

include hgood hreply hsize

theorem Got.next (h : Got F reply k pre) (hes : es = pre ++ post) :
    ∃ got post', post = got ++ post' ∧ Got F reply (k + 1) (pre ++ got) ∧
      F.entries (F.page reply k) = F.marks (F.total pre) got ∧ (post ≠ [] → got ≠ []) := by
  subst hes
  refine h.step hgood ?_ fun e he => hsize k e (List.mem_append_right _ he)
  rw [page, hreply, h.offset]

/-- Before each page the reader has the first of the entries: one from every page, or all. -/
theorem exists_got (k : ℕ) :
    ∃ pre post, es = pre ++ post ∧ Got F reply k pre ∧ (post = [] ∨ k ≤ pre.length) := by
  induction k with
  | zero => exact ⟨[], es, rfl, .start, .inr (Nat.zero_le _)⟩
  | succ k ih =>
    obtain ⟨pre, post, hes, h, hk⟩ := ih
    obtain ⟨got, post', rfl, h', -, hgot⟩ := h.next hgood hreply hsize hes
    refine ⟨pre ++ got, post', by rw [hes, List.append_assoc], h', ?_⟩
    rcases hk with hnil | hk
    · exact .inl (List.append_eq_nil_iff.mp hnil).2
    · by_cases hnil : got = []
      · have hpost : got ++ post' = [] := by
          by_contra hne
          exact hgot hne hnil
        exact .inl (List.append_eq_nil_iff.mp hpost).2
      · have hpos := List.length_pos_iff.mpr hnil
        refine .inr ?_
        rw [List.length_append]
        omega

/-- When the reader has all entries the pages are empty. -/
theorem Got.page_eq_nil (h : Got F reply k es) : F.page reply k = [] ∧ Got F reply (k + 1) es := by
  have hpage : F.page reply k = [] := by
    rw [page, hreply, h.offset, ← length_buffer hgood, List.drop_length, List.take_nil]
  obtain ⟨got, post', hnil, h', -, -⟩ := h.next hgood hreply hsize (List.append_nil es).symm
  rw [(List.append_eq_nil_iff.mp hnil.symm).1, List.append_nil] at h'
  exact ⟨hpage, h'⟩

/-- **The reader gets all entries**, in order and once each, something with every page; and from
then on the pages are empty. -/
theorem reads_all : ∃ n, F.received reply n = es ∧ (∀ k < n, F.entries (F.page reply k) ≠ []) ∧
    ∀ k, n ≤ k → F.page reply k = [] := by
  classical
  have hex : ∃ k, F.received reply k = es := by
    obtain ⟨pre, post, hes, h, hk⟩ := exists_got hgood hreply hsize es.length
    refine ⟨es.length, ?_⟩
    have hpost : post = [] := by
      rcases hk with hnil | hk
      · exact hnil
      · rw [hes, List.length_append] at hk
        exact List.eq_nil_of_length_eq_zero (by omega)
    rw [h.received, hes, hpost, List.append_nil]
  refine ⟨Nat.find hex, Nat.find_spec hex, fun k hk hnil => ?_, fun k hk => ?_⟩
  · -- something is still to come
    obtain ⟨pre, post, hes, h, -⟩ := exists_got hgood hreply hsize k
    obtain ⟨got, post', -, -, hgot, hne⟩ := h.next hgood hreply hsize hes
    have hpost : post ≠ [] := by
      rintro rfl
      rw [List.append_nil] at hes
      exact Nat.find_min hex hk (h.received.trans hes.symm)
    obtain ⟨e, got, rfl⟩ := List.exists_cons_of_ne_nil (hne hpost)
    rw [hgot, marks_cons] at hnil
    cases hnil
  · have hall : Got F reply k es := by
      induction k, hk using Nat.le_induction with
      | base =>
        obtain ⟨pre, post, hes, h, -⟩ := exists_got hgood hreply hsize (Nat.find hex)
        rwa [← h.received, Nat.find_spec hex] at h
      | succ k _ ih => exact (ih.page_eq_nil hgood hreply hsize).2
    exact (hall.page_eq_nil hgood hreply hsize).1

end All

end Reader

end Format

end Yfs
