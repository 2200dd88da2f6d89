import Yfs.Fs.Namespace

/-!
# Histories

What a history of calls says about the namespace: a name that was made stays until it is
unlinked, is not made twice, and bytes that were written stay until they are overwritten.
These are facts about the namespace alone; which histories the clients can have is the
subject of `Fs.Serial`.
-/

namespace Yfs.Fs

open Extent (Bytes toInt)

namespace Namespace

/-- The namespace that calls lead to. -/
def after (ns : Namespace) (log : List (Call × Reply)) : Namespace :=
  log.foldl (fun ns x => ns.effect x.1 x.2) ns

/-- All calls of a history are legal when they are made. -/
def LegalRun : Namespace → List (Call × Reply) → Prop
  | _, [] => True
  | ns, (c, r) :: log => ns.Legal c ∧ LegalRun (ns.effect c r) log

/-- All replies of a history are answers that may be given. -/
def AnswersRun : Namespace → List (Call × Reply) → Prop
  | _, [] => True
  | ns, (c, r) :: log => ns.Answers c r ∧ AnswersRun (ns.effect c r) log

section Runs

variable {ns : Namespace} {log log' : List (Call × Reply)} {c : Call} {r : Reply}

theorem after_append : ns.after (log ++ log') = (ns.after log).after log' := List.foldl_append

theorem legalRun_append :
    ns.LegalRun (log ++ log') ↔ ns.LegalRun log ∧ (ns.after log).LegalRun log' := by
  induction log generalizing ns with
  | nil => exact (iff_of_eq (true_and _)).symm
  | cons x log ih => exact (and_congr_right fun _ => ih).trans and_assoc.symm

theorem answersRun_append :
    ns.AnswersRun (log ++ log') ↔ ns.AnswersRun log ∧ (ns.after log).AnswersRun log' := by
  induction log generalizing ns with
  | nil => exact (iff_of_eq (true_and _)).symm
  | cons x log ih => exact (and_congr_right fun _ => ih).trans and_assoc.symm

/-- One call of a history of legal calls, and what follows it. -/
theorem run_split {x : Call × Reply} (hlegal : ns.LegalRun (log ++ x :: log'))
    (hans : ns.AnswersRun (log ++ x :: log')) :
    ((ns.after log).Legal x.1 ∧ (ns.after log).Answers x.1 x.2) ∧
      ((ns.after log).effect x.1 x.2).LegalRun log' ∧
      ((ns.after log).effect x.1 x.2).AnswersRun log' := by
  obtain ⟨-, hl, hlegal'⟩ := legalRun_append.mp hlegal
  obtain ⟨-, ha, hans'⟩ := answersRun_append.mp hans
  exact ⟨⟨hl, ha⟩, hlegal', hans'⟩

/-- Legal calls keep the namespace well-formed. -/
theorem Wf.after (h : ns.Wf) (hlegal : ns.LegalRun log) (hans : ns.AnswersRun log) :
    (ns.after log).Wf := by
  induction log generalizing ns with
  | nil => exact h
  | cons x log ih => exact ih (h.effect hlegal.1 hans.1) hlegal.2 hans.2

end Runs

/-! ## Names -/

section Names

variable {ns : Namespace} {log : List (Call × Reply)} {c : Call} {r : Reply}
  {d i : Inum} {name : Bytes}

/-- The calls after which a name is not there: a client that is started empties the root
directory. -/
def Clears (d : Inum) (name : Bytes) (c : Call) : Prop := c = .unlink d name ∨ c = .mount ∧ d = 1

theorem get_congr {ns' : Namespace} (h : ns'.entries d = ns.entries d) :
    ns'.get d name = ns.get d name := by
  rw [get, get, h]

theorem get_update_of_ne {d' : Inum} {n : Node} (hd : d ≠ d') :
    get (Function.update ns d' (some n)) d name = ns.get d name :=
  get_congr (by rw [entries_update, if_neg hd])

/-- A name that is there stays, with its inode. -/
theorem get_effect (hget : ns.get d name = some i) (hlegal : ns.Legal c) (hans : ns.Answers c r)
    (hc : ¬ Clears d name c) : (ns.effect c r).get d name = some i := by
  cases hn : c.new with
  | some x =>
    obtain ⟨d', name', n⟩ := x
    obtain ⟨⟨es, hd'⟩, -⟩ := (legal_new hn).mp hlegal
    obtain ⟨-, rfl⟩ | ⟨-, j, rfl, -, hj, -⟩ := ((answers_new hn).mp hans).cases
    · rwa [effect_exist hn]
    · have hentries : entries (ns.add d' name' j n) d =
          if d = d' then es ++ [⟨name', j⟩] else ns.entries d := entries_add hd' hj (new_dir hn)
      rw [effect_new hn, get, hentries]
      split
      case isTrue hdd =>
        rw [get, hdd, entries_eq hd'] at hget
        obtain ⟨e, he, rfl⟩ := Option.map_eq_some_iff.mp hget
        rw [List.find?_append, he]
        rfl
      case isFalse => exact hget
  | none =>
    cases c with
    | create | mkdir | symlink => cases hn
    | mount =>
      have hd : d ≠ 1 := fun h1 => hc (.inr ⟨rfl, h1⟩)
      rw [effect, get_update_of_ne hd, hget]
    | unlink d' name' =>
      obtain ⟨⟨es, hd'⟩, -⟩ := hlegal
      rw [effect, drop]
      by_cases hdd : d = d'
      · subst hdd
        have hname : name ≠ name' := fun h => hc (.inl (h ▸ rfl))
        rw [get, entries_eq hd'] at hget
        rw [get, entries_update, if_pos rfl, entries_eq hd', List.find?_filter]
        refine Eq.trans (congrArg _ (congrArg (List.find? · es) (funext fun e => ?_))) hget
        by_cases he : e.name = name
        · simp [he, hname]
        · simp [he]
      · rw [get_update_of_ne hdd, hget]
    | write j off data =>
      obtain ⟨v, hv⟩ := hlegal
      simp only [effect, write, hv]
      cases writeAt v off data with
      | ok v' => rw [get_congr (entries_file hv), hget]
      | error => exact hget
    | isfile | islink | isdir | lookup | readdir | read | readlink => exact hget

/-- A name stays until it is unlinked. -/
theorem get_after (hget : ns.get d name = some i) (hlegal : ns.LegalRun log)
    (hans : ns.AnswersRun log)
    (hc : ∀ x ∈ log, ¬ Clears d name x.1) : (ns.after log).get d name = some i := by
  induction log generalizing ns with
  | nil => exact hget
  | cons x log ih =>
    refine ih (get_effect hget hlegal.1 hans.1 (hc x (List.mem_cons_self ..))) hlegal.2 hans.2 ?_
    exact fun y hy => hc y (List.mem_cons_of_mem x hy)

/-- What was made is there. -/
theorem get_new {n : Node} (hc : c.new = some (d, name, n)) (hlegal : ns.Legal c)
    (hans : ns.Answers c (.made .ok (some i))) :
    (ns.effect c (.made .ok (some i))).get d name = some i := by
  obtain ⟨⟨es, hd⟩, -⟩ := (legal_new hc).mp hlegal
  obtain ⟨-, he⟩ | ⟨hnew, j, hj, -, hnone, -⟩ := ((answers_new hc).mp hans).cases
  · cases he
  · cases hj
    rw [effect_new hc, get, entries_add hd hnone (new_dir hc), if_pos rfl]
    rw [get, entries_eq hd, Option.map_eq_none_iff] at hnew
    rw [List.find?_append, hnew]
    simp

/-- The entries that calls have made in a directory, in the order of the calls. -/
def made (d : Inum) (log : List (Call × Reply)) : List Dirent :=
  log.filterMap fun x =>
    match x.1.new, x.2 with
    | some (d', name, _), .made .ok (some i) => if d' = d then some ⟨name, i⟩ else none
    | _, _ => none

theorem entries_effect (hlegal : ns.Legal c) (hans : ns.Answers c r) :
    ((ns.effect c r).entries d).Sublist (ns.entries d ++ made d [(c, r)]) := by
  have hold : ∀ {es : List Dirent}, es.Sublist (ns.entries d) →
      es.Sublist (ns.entries d ++ made d [(c, r)]) :=
    fun h => h.trans (List.sublist_append_left ..)
  cases hn : c.new with
  | some x =>
    obtain ⟨d', name', n⟩ := x
    obtain ⟨⟨es, hd'⟩, -⟩ := (legal_new hn).mp hlegal
    obtain ⟨-, rfl⟩ | ⟨-, j, rfl, -, hj, -⟩ := ((answers_new hn).mp hans).cases
    · rw [effect_exist hn]
      exact hold (List.Sublist.refl _)
    · rw [effect_new hn, entries_add hd' hj (new_dir hn)]
      split
      case isTrue hdd =>
        have hmade : made d [(c, .made .ok (some j))] = [⟨name', j⟩] := by simp [made, hn, hdd]
        rw [hmade, hdd, entries_eq hd']
      case isFalse => exact hold (List.Sublist.refl _)
  | none =>
    refine hold ?_
    cases c with
    | create | mkdir | symlink => cases hn
    | mount =>
      rw [effect, entries_update]
      split
      case isTrue => exact List.nil_sublist _
      case isFalse => exact List.Sublist.refl _
    | unlink d' name' =>
      rw [effect, drop, entries_update]
      split
      case isTrue hdd =>
        rw [hdd]
        exact List.filter_sublist
      case isFalse => exact List.Sublist.refl _
    | write j off data =>
      obtain ⟨v, hv⟩ := hlegal
      simp only [effect, write, hv]
      cases writeAt v off data with
      | ok v' => rw [entries_file hv]
      | error => exact List.Sublist.refl _
    | isfile | islink | isdir | lookup | readdir | read | readlink => exact List.Sublist.refl _

/-- Directories list what was made, in the order in which it was made. -/
theorem entries_after (hlegal : ns.LegalRun log) (hans : ns.AnswersRun log) :
    ((ns.after log).entries d).Sublist (ns.entries d ++ made d log) := by
  induction log generalizing ns with
  | nil => exact List.sublist_append_left ..
  | cons x log ih =>
    have hmade : made d (x :: log) = made d [x] ++ made d log := List.filterMap_append (l := [x])
    rw [hmade, ← List.append_assoc]
    exact (ih hlegal.2 hans.2).trans ((entries_effect hlegal.1 hans.1).append (List.Sublist.refl _))

end Names

end Namespace

/-! ## Contents -/

section Contents

variable {v v' data data' : Bytes} {off off' : Int64} {n m k : ℕ}

/-- The content has `data` at position `n`. -/
def HasAt (v : Bytes) (n : ℕ) (data : Bytes) : Prop := ∀ k < data.length, v[n + k]? = data[k]?

/-- A write within the 2^31 bytes that an `int` can count. -/
def InRange (off : Int64) (data : Bytes) : Prop := 0 ≤ off.toInt ∧ off.toInt + data.length < 2 ^ 31

/-- The content with `data` at position `n`; a gap is filled with zeros. -/
def splice (v : Bytes) (n : ℕ) (data : Bytes) : Bytes :=
  (v ++ List.replicate (n - v.length) 0).take n ++ data ++ v.drop (n + data.length)

theorem length_splice_front : ((v ++ List.replicate (n - v.length) 0).take n).length = n := by
  simp
  omega

theorem length_splice : (splice v n data).length = max v.length (n + data.length) := by
  rw [splice, List.length_append, List.length_append, length_splice_front, List.length_drop]
  omega

/-- The bytes that are written. -/
theorem splice_hasAt : HasAt (splice v n data) n data := by
  intro k hk
  have hlen := length_splice_front (v := v) (n := n)
  rw [splice, List.append_assoc, List.getElem?_append_right (by omega), hlen,
    Nat.add_sub_cancel_left, List.getElem?_append_left hk]

/-- The bytes that are not. -/
theorem splice_other (hk : k < v.length) (hout : k < n ∨ n + data.length ≤ k) :
    (splice v n data)[k]? = v[k]? := by
  have hlen := length_splice_front (v := v) (n := n)
  rcases hout with hout | hout
  · rw [splice, List.append_assoc, List.getElem?_append_left (by omega),
      List.getElem?_take_of_lt hout, List.getElem?_append_left hk]
  · rw [splice, List.getElem?_append_right (by rw [List.length_append]; omega),
      List.length_append, hlen, List.getElem?_drop, Nat.add_sub_cancel' hout]

theorem HasAt.lt (h : HasAt v n data) (hk : k < data.length) : n + k < v.length := by
  by_contra hle
  have hnone : v[n + k]? = none := List.getElem?_eq_none (Nat.not_lt.mp hle)
  rw [h k hk, List.getElem?_eq_none_iff] at hnone
  omega

/-- Bytes survive a write elsewhere. -/
theorem HasAt.splice (h : HasAt v n data) (hdisj : n + data.length ≤ m ∨ m + data'.length ≤ n) :
    HasAt (splice v m data') n data := by
  intro k hk
  rw [splice_other (h.lt hk) (by omega)]
  exact h k hk

theorem toNat_of_nonneg (h : 0 ≤ off.toInt) : off.toUInt64.toNat = off.toInt.toNat :=
  Int64.toNat_toUInt64_of_le (Int64.le_iff_toInt_le.mpr h)

/-- `write`, if the gap is below 2^31 bytes. -/
theorem writeAt_of_gap (hv : v.length < 2 ^ 31) (h0 : 0 ≤ off.toInt)
    (hlt : off.toInt < v.length + 2 ^ 31) :
    writeAt v off data = .ok (splice v off.toInt.toNat data) := by
  have hsize : toInt v.length = (v.length : Int) := Int32.toInt_ofNat_of_lt hv
  have hpos : off.toUInt64.toNat = off.toInt.toNat := toNat_of_nonneg h0
  simp only [writeAt, hsize]
  split
  case isTrue h =>
    have hle : ¬ v.length < off.toInt.toNat := by omega
    have hz : off.toInt.toNat - v.length = 0 := by omega
    rw [replace, hpos, if_neg hle, splice, hz]
    simp
  case isFalse h =>
    have hgap : (off.toInt - v.length).toInt32.toInt =
        ((off.toInt.toNat - v.length : ℕ) : Int) := by
      rw [show off.toInt - v.length = ((off.toInt.toNat - v.length : ℕ) : Int) by omega]
      exact Int32.toInt_ofNat_of_lt (by omega)
    have hdrop : v.drop (off.toInt.toNat + data.length) = [] := List.drop_eq_nil_of_le (by omega)
    have hfront : (v ++ List.replicate (off.toInt.toNat - v.length) 0).length ≤
        off.toInt.toNat := by
      rw [List.length_append, List.length_replicate]
      omega
    rw [hgap, fill, if_neg (by omega), splice, hdrop, List.take_of_length_le hfront,
      List.append_nil]
    rfl

/-- `write`, within 2^31 bytes. -/
theorem writeAt_eq (hv : v.length < 2 ^ 31) (hoff : InRange off data) :
    writeAt v off data = .ok (splice v off.toInt.toNat data) :=
  writeAt_of_gap hv hoff.1 (by have := hoff.2; omega)

/-- `read`, of bytes that are there. -/
theorem HasAt.readAt {size : UInt64} (h : HasAt v off.toInt.toNat data) (h0 : 0 ≤ off.toInt)
    (hsize : size.toNat = data.length) : Fs.readAt v size off = data := by
  rw [Fs.readAt, toNat_of_nonneg h0, hsize]
  split
  case isTrue hle =>
    -- there is nothing to read
    refine (List.length_eq_zero_iff.mp ?_).symm
    by_contra hne
    have := h.lt (Nat.pos_of_ne_zero hne)
    omega
  case isFalse =>
    refine List.ext_getElem? fun k => ?_
    rw [List.getElem?_take]
    split
    case isTrue hk => rw [List.getElem?_drop, h k hk]
    case isFalse hk => rw [List.getElem?_eq_none (Nat.not_lt.mp hk)]

end Contents

namespace Namespace

section Files

variable {ns : Namespace} {log : List (Call × Reply)} {c : Call} {r : Reply} {i : Inum}
  {v data : Bytes} {off : Int64} {n : ℕ}

/-- What a call leaves at `i`: what was there, or a directory, or a new inode, or what was
written. -/
theorem effect_cases (hlegal : ns.Legal c) (hans : ns.Answers c r) (i : Inum) :
    ns.effect c r i = ns i ∨ (∃ es es', ns i = some (.dir es) ∧ ns.effect c r i = some (.dir es')) ∨
      (∃ d name n, c.new = some (d, name, n) ∧ ns i = none ∧ ns.effect c r i = some n) ∨
      ∃ off data v v', c = .write i off data ∧ ns i = some (.file v) ∧ writeAt v off data = .ok v' ∧
        ns.effect c r i = some (.file v') := by
  -- an update of a directory
  have hdir : ∀ {d es es'}, ns d = some (.dir es) →
    Function.update ns d (some (.dir es')) i = ns i ∨
      ∃ es es'', ns i = some (.dir es) ∧
        Function.update ns d (some (.dir es')) i = some (.dir es'') := by
    intro d es es' hd
    by_cases hid : i = d
    · subst hid
      exact .inr ⟨es, es', hd, Function.update_self ..⟩
    · exact .inl (Function.update_of_ne hid _ _)
  cases hn : c.new with
  | some x =>
    obtain ⟨d, name, n⟩ := x
    obtain ⟨⟨es, hd⟩, -⟩ := (legal_new hn).mp hlegal
    obtain ⟨-, rfl⟩ | ⟨-, j, rfl, -, hj, -⟩ := ((answers_new hn).mp hans).cases
    · rw [effect_exist hn]
      exact .inl rfl
    · rw [effect_new hn, add]
      by_cases hid : i = d
      · subst hid
        exact .inr (.inl ⟨es, _, hd, Function.update_self ..⟩)
      · rw [Function.update_of_ne hid]
        by_cases hij : i = j
        · subst hij
          exact .inr (.inr (.inl ⟨d, name, n, rfl, hj, Function.update_self ..⟩))
        · exact .inl (Function.update_of_ne hij _ _)
  | none =>
    cases c with
    | create | mkdir | symlink => cases hn
    | mount =>
      obtain ⟨es, hd⟩ := hlegal
      exact (hdir hd).imp id .inl
    | unlink d name =>
      obtain ⟨⟨es, hd⟩, -⟩ := hlegal
      exact (hdir hd).imp id .inl
    | write j off data =>
      obtain ⟨v, hv⟩ := hlegal
      simp only [effect, write, hv]
      cases hw : writeAt v off data with
      | ok v' =>
        by_cases hij : i = j
        · subst hij
          exact .inr (.inr (.inr ⟨off, data, v, v', rfl, hv, hw, Function.update_self ..⟩))
        · exact .inl (Function.update_of_ne hij _ _)
      | error => exact .inl rfl
    | isfile | islink | isdir | lookup | readdir | read | readlink => exact .inl rfl

/-- A file at `i` has fewer bytes than an `int` can count. -/
def Small (ns : Namespace) (i : Inum) : Prop := ∀ v, ns i = some (.file v) → v.length < 2 ^ 31

theorem Small.effect (h : ns.Small i) (hlegal : ns.Legal c) (hans : ns.Answers c r)
    (hw : ∀ off data, c = .write i off data → InRange off data) : (ns.effect c r).Small i := by
  intro v hv
  rcases effect_cases hlegal hans i with hsame | ⟨_, _, -, hd⟩ | ⟨d, name, n, hn, -, hnew⟩ |
    ⟨off, data, v₀, v', rfl, hv₀, hwrite, hv'⟩
  · exact h v (hsame ▸ hv)
  · rw [hd] at hv
    cases hv
  · rw [hnew] at hv
    cases hv
    -- a new file is empty
    cases c <;> cases hn
    decide
  · have hr := hw off data rfl
    rw [writeAt_eq (h v₀ hv₀) hr] at hwrite
    rw [hv'] at hv
    cases hv
    cases hwrite
    have := h v₀ hv₀
    have := hr.2
    have := hr.1
    rw [length_splice]
    omega

theorem Small.after (h : ns.Small i) (hlegal : ns.LegalRun log) (hans : ns.AnswersRun log)
    (hw : ∀ off data r, (.write i off data, r) ∈ log → InRange off data) :
    (ns.after log).Small i := by
  induction log generalizing ns with
  | nil => exact h
  | cons x log ih =>
    refine ih (h.effect hlegal.1 hans.1 fun off data hx => ?_) hlegal.2 hans.2
      fun off data r hm => ?_
    · exact hw off data x.2 (by simp [← hx])
    · exact hw off data r (List.mem_cons_of_mem x hm)

theorem small_root : root.Small i := by
  intro v hv
  unfold root at hv
  split at hv <;> cases hv

/-- The file at `i` has `data` at position `n`. -/
def Stores (ns : Namespace) (i : Inum) (n : ℕ) (data : Bytes) : Prop :=
  ∃ v, ns i = some (.file v) ∧ HasAt v n data

/-- A write elsewhere. -/
def Apart (n : ℕ) (data : Bytes) (off : Int64) (data' : Bytes) : Prop :=
  n + data.length ≤ off.toInt.toNat ∨ off.toInt.toNat + data'.length ≤ n

theorem Stores.effect (h : ns.Stores i n data) (hsmall : ns.Small i) (hlegal : ns.Legal c)
    (hans : ns.Answers c r)
    (hw : ∀ off data', c = .write i off data' → InRange off data' ∧ Apart n data off data') :
    (ns.effect c r).Stores i n data := by
  obtain ⟨v, hv, hat⟩ := h
  rcases effect_cases hlegal hans i with hsame | ⟨_, _, hd, -⟩ | ⟨d, name, n, -, hnone, -⟩ |
    ⟨off, data', v₀, v', rfl, hv₀, hwrite, hv'⟩
  · exact ⟨v, hsame.trans hv, hat⟩
  · rw [hv] at hd
    cases hd
  · rw [hv] at hnone
    cases hnone
  · obtain ⟨hr, hapart⟩ := hw off data' rfl
    rw [hv] at hv₀
    cases hv₀
    rw [writeAt_eq (hsmall v hv) hr] at hwrite
    cases hwrite
    exact ⟨_, hv', hat.splice hapart⟩

/-- Bytes stay until they are overwritten. -/
theorem Stores.after (h : ns.Stores i n data) (hsmall : ns.Small i) (hlegal : ns.LegalRun log)
    (hans : ns.AnswersRun log)
    (hw : ∀ off data' r, (.write i off data', r) ∈ log → InRange off data' ∧
      Apart n data off data') :
    (ns.after log).Stores i n data := by
  induction log generalizing ns with
  | nil => exact h
  | cons x log ih =>
    have hx : ∀ off data', x.1 = .write i off data' → InRange off data' ∧ Apart n data off data' :=
      fun off data' hx => hw off data' x.2 (by simp [← hx])
    exact ih (h.effect hsmall hlegal.1 hans.1 hx)
      (hsmall.effect hlegal.1 hans.1 fun off data' he => (hx off data' he).1) hlegal.2 hans.2
      fun off data' r hm => hw off data' r (List.mem_cons_of_mem x hm)

/-- What was written is there. -/
theorem stores_write (hsmall : ns.Small i) (hlegal : ns.Legal (.write i off data))
    (hr : InRange off data) :
    (ns.effect (.write i off data) r).Stores i off.toInt.toNat data := by
  obtain ⟨v, hv⟩ := hlegal
  refine ⟨splice v off.toInt.toNat data, ?_, splice_hasAt⟩
  simp only [effect, write, hv, writeAt_eq (hsmall v hv) hr, Function.update_self]

end Files

/-! ## What is never lost -/

section Histories

variable {log pre mid post : List (Call × Reply)} {c c₁ c₂ : Call} {r r₁ r₂ : Reply} {d i : Inum}
  {name data : Bytes} {n n₁ n₂ : Node} {off : Int64} {size : UInt64}

/-- Of two calls that make one name the first makes it, and the second finds it there. -/
theorem made_once (hlegal : root.LegalRun log) (hans : root.AnswersRun log)
    (hlog : log = pre ++ (c₁, r₁) :: (mid ++ (c₂, r₂) :: post)) (h₁ : c₁.new = some (d, name, n₁))
    (h₂ : c₂.new = some (d, name, n₂)) (hfree : (root.after pre).get d name = none)
    (hmid : ∀ x ∈ mid, ¬ Clears d name x.1) :
    (∃ i, r₁ = .made .ok (some i)) ∧ r₂ = .made .exist none := by
  subst hlog
  obtain ⟨⟨hl₁, ha₁⟩, hlegal', hans'⟩ := run_split hlegal hans
  obtain ⟨⟨hl₂, ha₂⟩, -⟩ := run_split hlegal' hans'
  obtain ⟨⟨i, hi⟩, -⟩ | ⟨-, i, rfl, -⟩ := ((answers_new h₁).mp ha₁).cases
  · rw [hfree] at hi
    cases hi
  · refine ⟨⟨i, rfl⟩, ?_⟩
    have hget := get_after (get_new h₁ hl₁ ha₁) (legalRun_append.mp hlegal').1
      (answersRun_append.mp hans').1 hmid
    obtain ⟨-, rfl⟩ | ⟨hnone, -⟩ := ((answers_new h₂).mp ha₂).cases
    · rfl
    · rw [hget] at hnone
      cases hnone

/-- A name that was made is found, and listed, until it is unlinked. -/
theorem made_survives (hlegal : root.LegalRun log) (hans : root.AnswersRun log)
    (hlog : log = pre ++ (c₁, .made .ok (some i)) :: (mid ++ (c, r) :: post))
    (h₁ : c₁.new = some (d, name, n₁)) (hmid : ∀ x ∈ mid, ¬ Clears d name x.1) :
    (c = .lookup d name → r = .found .ok (some (true, i))) ∧
      (c = .readdir d → ∃ list, r = .entries .ok list ∧ ⟨name, i⟩ ∈ list) := by
  subst hlog
  obtain ⟨⟨hl₁, ha₁⟩, hlegal', hans'⟩ := run_split hlegal hans
  obtain ⟨⟨-, ha⟩, -⟩ := run_split hlegal' hans'
  have hget := get_after (get_new h₁ hl₁ ha₁) (legalRun_append.mp hlegal').1
    (answersRun_append.mp hans').1 hmid
  constructor
  · rintro rfl
    simpa only [Answers, hget] using ha
  · rintro rfl
    refine ⟨_, ha, ?_⟩
    obtain ⟨e, he, rfl⟩ := Option.map_eq_some_iff.mp hget
    have hname : e.name = name := by simpa using List.find?_some he
    exact hname ▸ List.mem_of_find?_eq_some he

/-- Bytes that were written are read, until they are overwritten. -/
theorem written_survives (hlegal : root.LegalRun log) (hans : root.AnswersRun log)
    (hlog : log = pre ++ (.write i off data, r₁) :: (mid ++ (.read i size off, r₂) :: post))
    (hrange : ∀ off data r, (.write i off data, r) ∈ log → InRange off data)
    (hmid : ∀ off' data' r, (.write i off' data', r) ∈ mid → Apart off.toInt.toNat data off' data')
    (hsize : size.toNat = data.length) : r₁ = .status .ok ∧ r₂ = .bytes .ok data := by
  subst hlog
  have hr : InRange off data := hrange off data r₁ (by simp)
  obtain ⟨⟨hl₁, ha₁⟩, hlegal', hans'⟩ := run_split hlegal hans
  obtain ⟨⟨-, v, hv, hread⟩, -⟩ := run_split hlegal' hans'
  have hsmall : (root.after pre).Small i := small_root.after (legalRun_append.mp hlegal).1
    (answersRun_append.mp hans).1 fun off data r hm => hrange off data r (by simp [hm])
  have hsmall' := hsmall.effect hl₁ ha₁ fun off data he => hrange off data r₁ (by simp [← he])
  obtain ⟨v', hv', hat⟩ := (stores_write (r := r₁) hsmall hl₁ hr).after hsmall'
    (legalRun_append.mp hlegal').1 (answersRun_append.mp hans').1
    fun off data r hm => ⟨hrange off data r (by simp [hm]), hmid off data r hm⟩
  rw [hv'] at hv
  cases hv
  rw [hat.readAt hr.1 hsize] at hread
  exact ⟨ha₁, hread⟩

end Histories

end Namespace

end Yfs.Fs
