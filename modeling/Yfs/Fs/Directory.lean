import Mathlib.Data.List.TakeWhile
import Mathlib.Data.Nat.Digits.Lemmas
import Yfs.Extent.Client

/-!
# Directories as text

`yfs_client::directory`: a directory is the string `name/inum/name/inum/...`, parsed with
`std::getline` and `>>` and printed with `<<`.
-/

namespace Yfs.Fs

open Extent (Bytes)

/-- `yfs_client::inum`. -/
abbrev Inum := UInt64

/-- The character `/`. -/
def slash : UInt8 := 47

/-- `os << n` for an unsigned integer. -/
def printNat (n : ℕ) : Bytes :=
  if n = 0 then [48] else ((Nat.digits 10 n).map fun d => 48 + UInt8.ofNat d).reverse

/-- A decimal digit. -/
def isDigit (b : UInt8) : Bool := 48 ≤ b && b ≤ 57

/-- A blank, as `>>` skips it. -/
def isSpace (b : UInt8) : Bool := b == 32 || (9 ≤ b && b ≤ 13)

/-- `is >> x` for an `unsigned long long x` that was `prev`: if there is nothing but blanks
it stays; without digits it is 0; too many digits give the largest value; and a minus sign
negates modulo 2^64. -/
def readInum (prev : Inum) (s : Bytes) : Inum :=
  match s.dropWhile isSpace with
  | [] => prev
  | b :: rest =>
    let digits := ((if b = 43 ∨ b = 45 then rest else b :: rest).takeWhile isDigit)
    let n := digits.foldl (fun acc d => 10 * acc + (d.toNat - 48)) 0
    if 2 ^ 64 ≤ n then .ofNat (2 ^ 64 - 1)
    else if b = 45 then - .ofNat n
    else .ofNat n

/-- `std::getline(is, line, '/')`: the line and the rest, or `none` at the end. -/
def getline (s : Bytes) : Option (Bytes × Bytes) :=
  if s = [] then none else some (s.takeWhile (· ≠ slash), (s.dropWhile (· ≠ slash)).tail)

/-- `yfs_client::dirent`. -/
structure Dirent where
  name : Bytes
  inum : Inum
  deriving DecidableEq, Repr

theorem getline_lt {s line rest : Bytes} (h : getline s = some (line, rest)) :
    rest.length < s.length := by
  unfold getline at h
  split at h
  case isTrue => cases h
  case isFalse hne =>
    simp only [Option.some.injEq, Prod.mk.injEq] at h
    obtain ⟨-, rfl⟩ := h
    have hle : (s.dropWhile (· ≠ slash)).length ≤ s.length := (List.dropWhile_suffix _).length_le
    have hpos : 0 < s.length := List.length_pos_of_ne_nil hne
    rw [List.length_tail]
    omega

/-- The loop of `directory::directory`; `finum` is the variable the numbers are read into. -/
def parse (finum : Inum) (s : Bytes) : List Dirent :=
  match _h : getline s with
  | none => []
  | some (name, rest) =>
    match _h' : getline rest with
    | none => { name := name, inum := readInum finum [] } :: []
    | some (str_finum, rest') =>
      let finum := readInum finum str_finum
      { name := name, inum := finum } :: parse finum rest'
termination_by s.length
decreasing_by
  have := getline_lt _h
  have := getline_lt _h'
  omega

/-- `yfs_client::directory`. -/
structure Directory where
  dir_string : Bytes
  dir : List Dirent

namespace Directory

/-- `directory::directory`. The variable `finum` is not initialized; what it holds matters
only for text that is no directory. -/
def ofString (dir_str : Bytes) : Directory :=
  { dir_string := dir_str, dir := parse 0 dir_str }

/-- `directory::find`. -/
def find (d : Directory) (name : Bytes) : Inum :=
  match d.dir.find? (·.name = name) with
  | some e => e.inum
  | none => 0

/-- `directory::getdir`. -/
def getdir (d : Directory) : List Dirent := d.dir

/-- One entry as text. -/
def entryString (e : Dirent) : Bytes := e.name ++ [slash] ++ printNat e.inum.toNat ++ [slash]

/-- `directory::addent`. -/
def addent (d : Directory) (e : Dirent) : Directory :=
  { dir_string := d.dir_string ++ entryString e, dir := d.dir ++ [e] }

/-- `directory::delent`. -/
def delent (d : Directory) (name : Bytes) : Directory :=
  let new_list := d.dir.filter (·.name ≠ name)
  { dir_string := new_list.flatMap entryString, dir := new_list }

/-- `directory::tostring`. -/
def tostring (d : Directory) : Bytes := d.dir_string

end Directory

/-! ## What is printed is parsed -/

section Codec

variable {n : ℕ} {prev : Inum} {name rest : Bytes} {es : List Dirent}

theorem digit_toNat {d : ℕ} (hd : d < 10) : (48 + UInt8.ofNat d).toNat = 48 + d := by
  rw [UInt8.toNat_add, UInt8.toNat_ofNat']
  show (48 + d % 2 ^ 8) % 2 ^ 8 = 48 + d
  omega

theorem isDigit_iff {b : UInt8} : isDigit b ↔ 48 ≤ b.toNat ∧ b.toNat ≤ 57 := by
  rw [isDigit, Bool.and_eq_true, decide_eq_true_iff, decide_eq_true_iff, UInt8.le_iff_toNat_le,
    UInt8.le_iff_toNat_le]
  rfl

theorem isDigit_of_mem_printNat {b : UInt8} (hb : b ∈ printNat n) : isDigit b := by
  unfold printNat at hb
  split at hb
  case isTrue =>
    rw [List.mem_singleton.mp hb]
    decide
  case isFalse =>
    obtain ⟨d, hd, rfl⟩ := List.mem_map.mp (List.mem_reverse.mp hb)
    have hlt : d < 10 := Nat.digits_lt_base (by decide) hd
    rw [isDigit_iff, digit_toNat hlt]
    omega

theorem printNat_ne_nil : printNat n ≠ [] := by
  unfold printNat
  split
  case isTrue => exact nofun
  case isFalse h =>
    simpa [Nat.digits_ne_nil_iff_ne_zero] using h

/-- The digits make up the number. -/
theorem foldl_printNat : (printNat n).foldl (fun acc d => 10 * acc + (d.toNat - 48)) 0 = n := by
  unfold printNat
  split
  case isTrue h => rw [h]; rfl
  case isFalse =>
    have hfold : ∀ ds : List ℕ, (∀ d ∈ ds, d < 10) →
        (ds.map fun d => 48 + UInt8.ofNat d).foldr (fun d acc => 10 * acc + (d.toNat - 48)) 0 =
          Nat.ofDigits 10 ds := by
      intro ds
      induction ds with
      | nil => intro _; rfl
      | cons d ds ih =>
        intro hds
        have hd := digit_toNat (hds d (List.mem_cons_self ..))
        rw [List.map_cons, List.foldr_cons, ih fun x hx => hds x (List.mem_cons_of_mem _ hx),
          Nat.ofDigits_cons, hd]
        omega
    rw [List.foldl_reverse, hfold _ fun d hd => Nat.digits_lt_base (by decide) hd,
      Nat.ofDigits_digits]

/-- **A number is read back as it was printed.** -/
theorem readInum_printNat (h : n < 2 ^ 64) : readInum prev (printNat n) = .ofNat n := by
  have hval : (printNat n).foldl (fun acc d => 10 * acc + (d.toNat - 48)) 0 = n := foldl_printNat
  have hall : ∀ b ∈ printNat n, isDigit b := fun b => isDigit_of_mem_printNat
  obtain ⟨b, bs, hb⟩ : ∃ b bs, printNat n = b :: bs := List.exists_cons_of_ne_nil printNat_ne_nil
  rw [hb] at hval hall ⊢
  have hb48 := isDigit_iff.mp (hall b (List.mem_cons_self ..))
  -- it begins with a digit
  have hsp : isSpace b = false := by
    rw [← Bool.not_eq_true, isSpace, Bool.or_eq_true, Bool.and_eq_true, beq_iff_eq,
      decide_eq_true_iff,
      decide_eq_true_iff, UInt8.le_iff_toNat_le, UInt8.le_iff_toNat_le, ← UInt8.toNat_inj]
    rintro (h | ⟨-, h⟩)
    · have h : b.toNat = 32 := h
      omega
    · have h : b.toNat ≤ 13 := h
      omega
  have hsign : ¬ b = 43 ∧ ¬ b = 45 := by
    rw [← UInt8.toNat_inj, ← UInt8.toNat_inj]
    constructor <;> intro h
    · have h : b.toNat = 43 := h
      omega
    · have h : b.toNat = 45 := h
      omega
  have hdigits : (b :: bs).takeWhile isDigit = b :: bs := List.takeWhile_eq_self_iff.mpr hall
  unfold readInum
  rw [List.dropWhile_cons, hsp]
  simp only [Bool.false_eq_true, if_false, hsign.1, hsign.2, or_self, hdigits, hval,
    if_neg (Nat.not_le.mpr h)]

theorem getline_append (h : slash ∉ name) :
    getline (name ++ slash :: rest) = some (name, rest) := by
  have hall : ∀ b ∈ name, (b ≠ slash : Bool) := fun b hb => by
    simpa using fun he : b = slash => h (he ▸ hb)
  have hne : name ++ slash :: rest ≠ [] := by simp
  rw [getline, if_neg hne, List.takeWhile_append_of_pos hall, List.dropWhile_append_of_pos hall]
  simp

theorem slash_not_mem_printNat : slash ∉ printNat n := fun h =>
  absurd (isDigit_of_mem_printNat h) (by decide)

/-- One entry. -/
theorem parse_entry {e : Dirent} (h : slash ∉ e.name) :
    parse prev (Directory.entryString e ++ rest) = e :: parse e.inum rest := by
  have htext : Directory.entryString e ++ rest =
      e.name ++ slash :: (printNat e.inum.toNat ++ slash :: rest) := by
    simp [Directory.entryString]
  have hnum : readInum prev (printNat e.inum.toNat) = e.inum := by
    rw [readInum_printNat e.inum.toNat_lt, UInt64.ofNat_toNat]
  rw [htext, parse]
  split
  case h_1 hnone =>
    rw [getline_append h] at hnone
    cases hnone
  case h_2 name rest₁ hline =>
    rw [getline_append h] at hline
    cases hline
    split
    case h_1 hnone =>
      rw [getline_append slash_not_mem_printNat] at hnone
      cases hnone
    case h_2 str rest₂ hline =>
      rw [getline_append slash_not_mem_printNat] at hline
      cases hline
      rw [hnum]

/-- **A directory is parsed as the entries that were printed.** -/
theorem parse_print (h : ∀ e ∈ es, slash ∉ e.name) :
    parse prev (es.flatMap Directory.entryString) = es := by
  induction es generalizing prev with
  | nil =>
    rw [List.flatMap_nil, parse]
    rfl
  | cons e es ih =>
    rw [List.flatMap_cons, parse_entry (h e (List.mem_cons_self ..)),
      ih fun e' he' => h e' (List.mem_cons_of_mem _ he')]

end Codec

/-! ## Editing a directory -/

namespace Directory

/-- The two calls that change a directory. -/
inductive Edit where
  | addent (e : Dirent)
  | delent (name : Bytes)
  deriving DecidableEq

/-- One call. -/
def edit (d : Directory) : Edit → Directory
  | .addent e => d.addent e
  | .delent name => d.delent name

/-- The calls the file system makes: it numbers files from 1 on, and a name is one
component of a path. -/
def Edit.Ok : Edit → Prop
  | .addent e => e.inum ≠ 0 ∧ slash ∉ e.name
  | .delent name => slash ∉ name

/-- The string lists the entries, and both are as `Edit.Ok` promises. -/
structure Consistent (d : Directory) : Prop where
  text : d.dir_string = d.dir.flatMap entryString
  names : ∀ e ∈ d.dir, slash ∉ e.name
  inums : ∀ e ∈ d.dir, e.inum ≠ 0

theorem consistent_empty : (ofString []).Consistent := by
  have h : (ofString []).dir = [] := @parse_print _ [] (by simp)
  refine ⟨?_, ?_, ?_⟩
  · rw [h]
    rfl
  · simp [h]
  · simp [h]

theorem consistent_delent {d : Directory} (h : d.Consistent) (name : Bytes) :
    (d.delent name).Consistent where
  text := rfl
  names e he := h.names e (List.mem_of_mem_filter he)
  inums e he := h.inums e (List.mem_of_mem_filter he)

theorem consistent_edit {d : Directory} (h : d.Consistent) {op : Edit} (hop : op.Ok) :
    (d.edit op).Consistent := by
  cases op with
  | addent e =>
    refine ⟨?_, fun x hx => ?_, fun x hx => ?_⟩
    · show d.dir_string ++ entryString e = (d.dir ++ [e]).flatMap entryString
      rw [h.text, List.flatMap_append, List.flatMap_singleton]
    · obtain hx | hx := List.mem_append.mp hx
      · exact h.names x hx
      · exact List.mem_singleton.mp hx ▸ hop.2
    · obtain hx | hx := List.mem_append.mp hx
      · exact h.inums x hx
      · exact List.mem_singleton.mp hx ▸ hop.1
  | delent name => exact consistent_delent h name

theorem consistent_edits {d : Directory} (h : d.Consistent) {ops : List Edit}
    (hops : ∀ op ∈ ops, op.Ok) : (ops.foldl edit d).Consistent := by
  induction ops generalizing d with
  | nil => exact h
  | cons op ops ih =>
    exact ih (consistent_edit h (hops op (List.mem_cons_self ..)))
      fun x hx => hops x (List.mem_cons_of_mem _ hx)

/-- Reading the text again gives the directory that printed it. -/
theorem Consistent.reread {d : Directory} (h : d.Consistent) : ofString d.tostring = d := by
  obtain ⟨text, es⟩ := d
  have htext : text = es.flatMap entryString := h.text
  subst htext
  show Directory.mk _ (parse 0 (es.flatMap entryString)) = _
  rw [parse_print h.names]
  rfl

theorem find_first {d : Directory} {name : Bytes} {pre post : List Dirent} {e : Dirent}
    (hd : d.getdir = pre ++ e :: post) (hpre : ∀ x ∈ pre, x.name ≠ name) (he : e.name = name) :
    d.find name = e.inum := by
  have hd : d.dir = pre ++ e :: post := hd
  have hnone : pre.find? (·.name = name) = none := by simpa using hpre
  rw [find, hd, List.find?_append, hnone, Option.none_or,
    List.find?_cons_of_pos (by simpa using he)]

theorem find_absent {d : Directory} {name : Bytes} (h : ∀ e ∈ d.getdir, e.name ≠ name) :
    d.find name = 0 := by
  have hnone : d.dir.find? (·.name = name) = none := by simpa [getdir] using h
  rw [find, hnone]

theorem getdir_delent (d : Directory) (name : Bytes) :
    (d.delent name).getdir = d.getdir.filter (·.name ≠ name) := rfl

theorem find_delent_self (d : Directory) (name : Bytes) : (d.delent name).find name = 0 :=
  find_absent fun e he => by
    rw [getdir_delent] at he
    simpa using (List.mem_filter.mp he).2

/-- A search for another name does not see what was filtered out. -/
theorem find_delent_other (d : Directory) {name other : Bytes} (h : other ≠ name) :
    (d.delent name).find other = d.find other := by
  have : (d.dir.filter (·.name ≠ name)).find? (·.name = other) =
      d.dir.find? (·.name = other) := by
    rw [List.find?_filter]
    congr 1
    ext x
    by_cases hx : x.name = other
    · simp [hx, h]
    · simp [hx]
  show (match (d.dir.filter (·.name ≠ name)).find? (·.name = other) with
    | some e => e.inum
    | none => 0) = _
  rw [this]
  rfl

theorem delent_addent {d : Directory} (hd : d.Consistent) {e : Dirent}
    (h : ∀ x ∈ d.getdir, x.name ≠ e.name) : ((d.addent e).delent e.name).tostring = d.tostring := by
  have hkeep : (d.dir ++ [e]).filter (·.name ≠ e.name) = d.dir := by
    have hd : d.dir.filter (·.name ≠ e.name) = d.dir :=
      List.filter_eq_self.mpr fun x hx => by simpa using h x hx
    rw [List.filter_append, hd]
    simp
  show ((d.dir ++ [e]).filter (·.name ≠ e.name)).flatMap entryString = d.dir_string
  rw [hkeep, hd.text]

/-- **A directory is a finite map that survives being printed**: whatever was added and
removed, reading the text again gives the same entries in the same order; a search gives
the first entry of that name, or 0; removing a name touches no other; and adding an
absent name and removing it again gives back the same text. -/
theorem codec_and_map_laws (ops : List Edit) (hops : ∀ op ∈ ops, op.Ok) :
    let d := ops.foldl edit (ofString [])
    (ofString d.tostring).getdir = d.getdir ∧
    (∀ name pre e post, d.getdir = pre ++ e :: post → (∀ x ∈ pre, x.name ≠ name) →
      e.name = name → d.find name = e.inum ∧ d.find name ≠ 0) ∧
    (∀ name, (∀ e ∈ d.getdir, e.name ≠ name) → d.find name = 0) ∧
    (∀ name, (d.delent name).find name = 0 ∧
      (∀ other, other ≠ name → (d.delent name).find other = d.find other) ∧
      (d.delent name).getdir = d.getdir.filter (·.name ≠ name)) ∧
    ∀ e, slash ∉ e.name → (∀ x ∈ d.getdir, x.name ≠ e.name) →
      ((d.addent e).delent e.name).tostring = d.tostring := by
  intro d
  have hd : d.Consistent := consistent_edits consistent_empty hops
  refine ⟨by rw [hd.reread], fun name pre e post hdir hpre he => ?_, fun name => find_absent,
    fun name => ⟨find_delent_self d name, fun other => find_delent_other d, getdir_delent d name⟩,
    fun e _ habs => delent_addent hd habs⟩
  have hfind := find_first hdir hpre he
  refine ⟨hfind, ?_⟩
  rw [hfind]
  exact hd.inums e (show e ∈ d.getdir by rw [hdir]; simp)

/-- Names with a newline, of digits only, and the empty one. -/
theorem codec_and_map_laws_odd :
    let ops := [.addent ⟨[10], 2⟩, .addent ⟨[49, 50], 3⟩, .addent ⟨[], 18446744073709551615⟩,
      .delent [49, 50]]
    let d := ops.foldl edit (ofString [])
    (ofString d.tostring).getdir = [⟨[10], 2⟩, ⟨[], 18446744073709551615⟩] := by
  intro ops d
  have h := (codec_and_map_laws ops (by simp [ops, Edit.Ok, slash])).1
  have hdir : d.getdir = [⟨[10], 2⟩, ⟨[], 18446744073709551615⟩] := by
    show (ops.foldl edit (ofString [])).dir = _
    simp [ops, edit, addent, delent, ofString, parse, getline]
  exact h.trans hdir

end Directory

end Yfs.Fs
