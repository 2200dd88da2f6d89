import Mathlib.Data.Multiset.AddSub
import Mathlib.Data.Stream.Defs
import Yfs.Fs.Ops

/-!
# Locks of the file operations

Every operation of `yfs_client` on an extent client that answers what it likes: each call
can fail or succeed, with any bytes, attributes or number (`Script`). The locks the thread
holds are kept in the state, with every release of a lock that is not held and every `get`
or `put` without the lock of its inode.

All operations give their locks back, except for one: `readlink` keeps the lock when its
`get` fails (`balanced_iff`).
-/

namespace Yfs.Fs

open Extent (Bytes Attr Ec Fault T_DIR T_FILE T_LINK)

/-- The answer to a call at the extent client. -/
structure Answer where
  ret : Extent.Status
  buf : Bytes := []
  attr : Attr := {}
  id : Inum := 0

/-- A thread in an operation: the locks it holds, the answers it will get, the inodes that
the operation has made, and what it did that it must not do. -/
structure Script where
  held : Multiset Inum
  answers : Stream' Answer
  made : List Inum := []
  strayReleases : List Inum := []
  bareAccesses : List Inum := []

namespace Script

/-- The thread gets a lock. -/
def acquire (i : Inum) (s : Script) : Script := { s with held := i ::ₘ s.held }

/-- The thread gives a lock up. -/
def release (i : Inum) (s : Script) : Script :=
  if i ∈ s.held then { s with held := s.held.erase i }
  else { s with strayReleases := i :: s.strayReleases }

/-- The next answer. -/
def answer {α : Type} (f : Answer → α) : Prog Fault Inum Script α :=
  .step fun s => (f s.answers.head, { s with answers := s.answers.tail })

/-- The content of an inode is used. An inode that the operation has just made is not
linked yet, so nobody else can know it. -/
def access (i : Inum) : Prog Fault Inum Script Unit :=
  .modify fun s =>
    if i ∈ s.held ∨ i ∈ s.made then s else { s with bareAccesses := i :: s.bareAccesses }

/-- The extent client. -/
def ec : Ec Fault Inum Script where
  create _ _ := do
    let r ← answer fun r => (r.ret, r.id)
    .modify fun s => { s with made := r.2 :: s.made }
    pure r
  get i _ := do
    access i
    answer fun r => (r.ret, r.buf)
  getattr _ _ := answer fun r => (r.ret, r.attr)
  put i _ := do
    access i
    answer fun r => r.ret
  remove _ := answer fun r => r.ret

end Script

/-- The operations, with their arguments. -/
inductive Op where
  | isfile (inum : Inum)
  | islink (inum : Inum)
  | isdir (inum : Inum)
  | getfile (inum : Inum)
  | getdir (inum : Inum)
  | setattr (ino : Inum) (size : UInt64)
  | create (parent : Inum) (name : Bytes)
  | mkdir (parent : Inum) (name : Bytes)
  | lookup (parent : Inum) (name : Bytes)
  | readdir (dir : Inum)
  | read (ino : Inum) (size : UInt64) (off : Int64)
  | write (ino : Inum) (off : Int64) (data : Bytes)
  | unlink (parent : Inum) (name : Bytes)
  | symlink (parent : Inum) (link name : Bytes)
  | readlink (ino : Inum)

/-- A program without its result. -/
def void {σ α : Type} (p : Prog Fault Inum σ α) : Prog Fault Inum σ Unit := do
  let _ ← p
  pure ()

/-- The operation on an extent client. -/
def Op.prog {σ : Type} (ec : Ec Fault Inum σ) : Op → Prog Fault Inum σ Unit
  | isfile inum => void (Fs.isfile ec inum)
  | islink inum => void (Fs.islink ec inum)
  | isdir inum => void (Fs.isdir ec inum)
  | getfile inum => void (Fs.getfile ec inum)
  | getdir inum => void (Fs.getdir ec inum)
  | setattr ino size => void (Fs.setattr ec ino size)
  | create parent name => void (Fs.create ec parent name)
  | mkdir parent name => void (Fs.mkdir ec parent name)
  | lookup parent name => void (Fs.lookup ec parent name)
  | readdir dir => void (Fs.readdir ec dir)
  | read ino size off => void (Fs.read ec ino size off)
  | write ino off data => void (Fs.write ec ino off data)
  | unlink parent name => void (Fs.unlink ec parent name)
  | symlink parent link name => void (Fs.symlink ec parent link name)
  | readlink ino => void (Fs.readlink ec ino)

/-- How an operation ends that is called with these locks and gets these answers. -/
def Op.outcome (op : Op) (held : Multiset Inum) (answers : Stream' Answer) :
    Prog.Outcome Fault Script Unit :=
  (op.prog Script.ec).runWith Script.acquire Script.release ⟨held, answers, [], [], []⟩

/-- The operation keeps to its locks: what it holds when it returns is what it held when it
was called, it releases only what it holds, and it reads and writes no inode without its
lock. -/
structure Balanced (op : Op) (held : Multiset Inum) (answers : Stream' Answer) : Prop where
  returns : ∀ s, op.outcome held answers = .done () s → s.held = held
  releases : (op.outcome held answers).state.strayReleases = []
  accesses : (op.outcome held answers).state.bareAccesses = []

section Rules

variable {α : Type} {s : Script} {t : Multiset Inum} {i : Inum} {Q : α → Script → Prop}

/-- The thread holds these locks, and has done nothing wrong. -/
structure Holding (s : Script) (t : Multiset Inum) : Prop where
  held : s.held = t
  releases : s.strayReleases = []
  accesses : s.bareAccesses = []

/-- From here on nothing goes wrong, and at the end the thread has the property `Q`. -/
abbrev Goes (p : Prog Fault Inum Script α) (Q : α → Script → Prop) (s : Script) : Prop :=
  p.wpWith Script.acquire Script.release Q (fun _ s => ∃ t, Holding s t) s

theorem goes_lock {k : Unit → Prog Fault Inum Script α} (h : Holding s t)
    (hk : ∀ s', Holding s' (i ::ₘ t) → Goes (k ()) Q s') : Goes (.lock i >>= k) Q s :=
  hk _ ⟨congrArg (i ::ₘ ·) h.held, h.releases, h.accesses⟩

theorem goes_unlock {k : Unit → Prog Fault Inum Script α} (h : Holding s (i ::ₘ t))
    (hk : ∀ s', Holding s' t → Goes (k ()) Q s') : Goes (.unlock i >>= k) Q s := by
  refine hk (Script.release i s) ?_
  have hi : i ∈ s.held := by
    rw [h.held]
    exact Multiset.mem_cons_self i t
  rw [Script.release, if_pos hi]
  refine ⟨?_, h.releases, h.accesses⟩
  show s.held.erase i = t
  rw [h.held, Multiset.erase_cons_head]

theorem goes_answer {β : Type} {f : Answer → β} {k : β → Prog Fault Inum Script α} (h : Holding s t)
    (hk : ∀ s', Holding s' t → s'.made = s.made → Goes (k (f s.answers.head)) Q s') :
    Goes (Script.answer f >>= k) Q s :=
  hk { s with answers := s.answers.tail } ⟨h.held, h.releases, h.accesses⟩ rfl

theorem goes_access {k : Unit → Prog Fault Inum Script α} (h : Holding s t)
    (hi : i ∈ t ∨ i ∈ s.made) (hk : Goes (k ()) Q s) : Goes (Script.access i >>= k) Q s := by
  have hi' : i ∈ s.held ∨ i ∈ s.made := by rwa [h.held]
  show Goes (k ()) Q (if i ∈ s.held ∨ i ∈ s.made then s else _)
  rwa [if_pos hi']

theorem goes_get {buf : Bytes} {k : Extent.Status × Bytes → Prog Fault Inum Script α}
    (h : Holding s t) (hi : i ∈ t)
    (hk : ∀ ret b s', ret = s.answers.head.ret → Holding s' t → Goes (k (ret, b)) Q s') :
    Goes (Script.ec.get i buf >>= k) Q s := by
  show Goes ((Script.access i >>= fun _ => Script.answer fun r => (r.ret, r.buf)) >>= k) Q s
  rw [bind_assoc]
  exact goes_access h (.inl hi) (goes_answer h fun s' hs' _ => hk _ _ s' rfl hs')

theorem goes_put {buf : Bytes} {k : Extent.Status → Prog Fault Inum Script α} (h : Holding s t)
    (hi : i ∈ t ∨ i ∈ s.made) (hk : ∀ ret s', Holding s' t → Goes (k ret) Q s') :
    Goes (Script.ec.put i buf >>= k) Q s := by
  show Goes ((Script.access i >>= fun _ => Script.answer fun r => r.ret) >>= k) Q s
  rw [bind_assoc]
  exact goes_access h hi (goes_answer h fun s' hs' _ => hk _ s' hs')

theorem goes_getattr {a : Attr} {k : Extent.Status × Attr → Prog Fault Inum Script α}
    (h : Holding s t) (hk : ∀ ret a s', Holding s' t → Goes (k (ret, a)) Q s') :
    Goes (Script.ec.getattr i a >>= k) Q s :=
  goes_answer (f := fun r => (r.ret, r.attr)) h fun s' hs' _ => hk _ _ s' hs'

theorem goes_create {type : UInt32} {id : Inum}
    {k : Extent.Status × Inum → Prog Fault Inum Script α}
    (h : Holding s t) (hk : ∀ ret id s', Holding s' t → id ∈ s'.made → Goes (k (ret, id)) Q s') :
    Goes (Script.ec.create type id >>= k) Q s := by
  show Goes ((Script.answer (fun r => (r.ret, r.id)) >>= _) >>= k) Q s
  rw [bind_assoc]
  refine goes_answer h fun s' hs' _ => ?_
  exact hk _ _ _ ⟨hs'.held, hs'.releases, hs'.accesses⟩ (List.mem_cons_self ..)

theorem goes_lift {β : Type} {x : Except Fault β} {k : β → Prog Fault Inum Script α}
    (h : Holding s t) (hk : ∀ a, Goes (k a) Q s) : Goes (lift x >>= k) Q s := by
  cases x with
  | ok a => exact hk a
  | error e => exact ⟨t, h⟩

end Rules

section Ops

variable {s : Script} {t : Multiset Inum} {i : Inum}

/-- The end of an operation. -/
theorem goes_return {α : Type} {r : α} (h : Holding s (i ::ₘ t)) :
    Goes (do
      .unlock i
      pure r) (fun _ s' => Holding s' t) s :=
  goes_unlock h fun _ h' => h'

theorem goes_isType {type : UInt32} (h : Holding s t) :
    Goes (isType Script.ec type i) (fun _ s' => Holding s' t) s := by
  unfold isType
  refine goes_lock h fun s₁ h₁ => goes_getattr h₁ fun ret a s₂ h₂ => ?_
  dsimp only
  split
  case isTrue => exact goes_return h₂
  case isFalse =>
    split
    case isTrue => exact goes_return h₂
    case isFalse => exact goes_return h₂

theorem goes_getfile (h : Holding s t) :
    Goes (getfile Script.ec i) (fun _ s' => Holding s' t) s := by
  unfold getfile
  exact goes_lock h fun s₁ h₁ => goes_getattr h₁ fun ret a s₂ h₂ => goes_return h₂

theorem goes_getdir (h : Holding s t) :
    Goes (getdir Script.ec i) (fun _ s' => Holding s' t) s := by
  unfold getdir
  exact goes_lock h fun s₁ h₁ => goes_getattr h₁ fun ret a s₂ h₂ => goes_return h₂

theorem goes_setattr {size : UInt64} (h : Holding s t) :
    Goes (setattr Script.ec i size) (fun _ s' => Holding s' t) s := by
  have hi : i ∈ i ::ₘ t := Multiset.mem_cons_self i t
  unfold setattr
  refine goes_lock h fun s₁ h₁ => goes_getattr h₁ fun ret a s₂ h₂ => ?_
  dsimp only
  split
  case isTrue => exact goes_return h₂
  case isFalse =>
    split
    case isTrue => exact goes_return h₂
    case isFalse =>
      refine goes_get h₂ hi fun ret b s₃ _ h₃ => ?_
      dsimp only
      split
      case isTrue => exact goes_return h₃
      case isFalse =>
        refine goes_lift h₃ fun b => goes_put h₃ (.inl hi) fun ret s₄ h₄ => ?_
        split
        case isTrue => exact goes_return h₄
        case isFalse => exact goes_return h₄

/-- The end of `create`, `mkdir` and `symlink`: lock 0 is given back first, though it was
taken first. -/
theorem goes_return_both {α : Type} {r : α} (h : Holding s (i ::ₘ 0 ::ₘ t)) :
    Goes (pure r >>= fun r => do
      .unlock 0
      .unlock i
      pure r) (fun _ s' => Holding s' t) s := by
  rw [Multiset.cons_swap] at h
  exact goes_unlock h fun s₁ h₁ => goes_return h₁

theorem goes_createType {type : UInt32} {name : Bytes} (h : Holding s t) :
    Goes (createType Script.ec type i name) (fun _ s' => Holding s' t) s := by
  have hi : i ∈ i ::ₘ 0 ::ₘ t := Multiset.mem_cons_self i _
  unfold createType
  refine goes_lock h fun s₁ h₁ => goes_lock h₁ fun s₂ h₂ => ?_
  refine goes_get h₂ hi fun ret b s₃ _ h₃ => ?_
  dsimp only
  split
  case isTrue => exact goes_return_both h₃
  case isFalse =>
    split
    case isTrue => exact goes_return_both h₃
    case isFalse =>
      rw [bind_assoc]
      refine goes_create h₃ fun ret id s₄ h₄ _ => ?_
      dsimp only
      split
      case isTrue => exact goes_return_both h₄
      case isFalse =>
        rw [bind_assoc]
        refine goes_put h₄ (.inl hi) fun ret s₅ h₅ => ?_
        split
        case isTrue => exact goes_return_both h₅
        case isFalse => exact goes_return_both h₅

theorem goes_symlink {link name : Bytes} (h : Holding s t) :
    Goes (symlink Script.ec i link name) (fun _ s' => Holding s' t) s := by
  have hi : i ∈ i ::ₘ 0 ::ₘ t := Multiset.mem_cons_self i _
  unfold symlink
  refine goes_lock h fun s₁ h₁ => goes_lock h₁ fun s₂ h₂ => ?_
  refine goes_get h₂ hi fun ret b s₃ _ h₃ => ?_
  dsimp only
  split
  case isTrue => exact goes_return_both h₃
  case isFalse =>
    split
    case isTrue => exact goes_return_both h₃
    case isFalse =>
      rw [bind_assoc]
      refine goes_create h₃ fun ret id s₄ h₄ hid => ?_
      dsimp only
      split
      case isTrue => exact goes_return_both h₄
      case isFalse =>
        -- the new inode has no lock yet, and is not linked either
        rw [bind_assoc]
        refine goes_put h₄ (.inr hid) fun _ s₅ h₅ => ?_
        rw [bind_assoc]
        refine goes_put h₅ (.inl hi) fun ret s₆ h₆ => ?_
        split
        case isTrue => exact goes_return_both h₆
        case isFalse => exact goes_return_both h₆

theorem goes_lookup {name : Bytes} (h : Holding s t) :
    Goes (lookup Script.ec i name) (fun _ s' => Holding s' t) s := by
  unfold lookup
  refine goes_lock h fun s₁ h₁ => goes_get h₁ (Multiset.mem_cons_self i t) fun ret b s₂ _ h₂ => ?_
  dsimp only
  split
  case isTrue => exact goes_return h₂
  case isFalse => exact goes_return h₂

theorem goes_readdir (h : Holding s t) :
    Goes (readdir Script.ec i) (fun _ s' => Holding s' t) s := by
  unfold readdir
  refine goes_lock h fun s₁ h₁ => goes_get h₁ (Multiset.mem_cons_self i t) fun ret b s₂ _ h₂ => ?_
  dsimp only
  split
  case isTrue => exact goes_return h₂
  case isFalse => exact goes_return h₂

theorem goes_read {size : UInt64} {off : Int64} (h : Holding s t) :
    Goes (read Script.ec i size off) (fun _ s' => Holding s' t) s := by
  unfold read
  refine goes_lock h fun s₁ h₁ => goes_get h₁ (Multiset.mem_cons_self i t) fun ret b s₂ _ h₂ => ?_
  dsimp only
  split
  case isTrue => exact goes_return h₂
  case isFalse => exact goes_return h₂

theorem goes_write {off : Int64} {data : Bytes} (h : Holding s t) :
    Goes (write Script.ec i off data) (fun _ s' => Holding s' t) s := by
  unfold write
  have hi : i ∈ i ::ₘ t := Multiset.mem_cons_self i t
  refine goes_lock h fun s₁ h₁ => goes_get h₁ hi fun ret b s₂ _ h₂ => ?_
  dsimp only
  split
  case isTrue => exact goes_return h₂
  case isFalse =>
    exact goes_lift h₂ fun b => goes_put h₂ (.inl hi) fun ret s₃ h₃ => goes_return h₃

theorem goes_unlink {name : Bytes} (h : Holding s t) :
    Goes (unlink Script.ec i name) (fun _ s' => Holding s' t) s := by
  have hi : i ∈ i ::ₘ t := Multiset.mem_cons_self i t
  unfold unlink
  refine goes_lock h fun s₁ h₁ => goes_get h₁ hi fun ret b s₂ _ h₂ => ?_
  dsimp only
  split
  case isTrue => exact goes_return h₂
  case isFalse =>
    by_cases hf : (Directory.ofString b).find name = 0
    · rw [if_pos hf, if_pos (by decide)]
      exact goes_return h₂
    · rw [if_neg hf, if_neg (by decide)]
      refine goes_put h₂ (.inl hi) fun ret s₃ h₃ => ?_
      -- `finum` is 0, and nothing is removed
      rw [if_neg (by decide), pure_bind]
      exact goes_return h₃

/-- `readlink` up to the answer it gets. -/
theorem goes_readlink_get {Q : Status × Bytes → Script → Prop} (h : Holding s t)
    (hk : ∀ b s', Holding s' (i ::ₘ t) →
      Goes (if s.answers.head.ret ≠ Extent.OK then pure (Status.rpcerr, b)
        else do
          .unlock i
          pure (Status.ok, b)) Q s') :
    Goes (readlink Script.ec i) Q s := by
  have h₁ : Holding (Script.acquire i s) (i ::ₘ t) :=
    ⟨congrArg (i ::ₘ ·) h.held, h.releases, h.accesses⟩
  show Goes (Script.ec.get i [] >>= _) Q (Script.acquire i s)
  refine goes_get h₁ (Multiset.mem_cons_self i t) fun ret b s₂ hr h₂ => ?_
  rw [show ret = s.answers.head.ret from hr]
  exact hk b s₂ h₂

/-- `readlink` gives its lock back if its `get` succeeds. -/
theorem goes_readlink (h : Holding s t) (hret : s.answers.head.ret = Extent.OK) :
    Goes (readlink Script.ec i) (fun _ s' => Holding s' t) s := by
  refine goes_readlink_get h fun b s₂ h₂ => ?_
  rw [if_neg (not_not.mpr hret)]
  exact goes_return h₂

/-- And keeps it if not. -/
theorem goes_readlink_fails (h : Holding s t) (hret : s.answers.head.ret ≠ Extent.OK) :
    Goes (readlink Script.ec i) (fun _ s' => Holding s' (i ::ₘ t)) s := by
  refine goes_readlink_get h fun b s₂ h₂ => ?_
  rw [if_pos hret]
  exact h₂

end Ops

/-- An operation whose run goes well is balanced. -/
theorem Balanced.of_goes {α : Type} {op : Op} {held : Multiset Inum} {answers : Stream' Answer}
    {p : Prog Fault Inum Script α} (hop : op.prog Script.ec = void p)
    (h : Goes p (fun _ s' => Holding s' held) ⟨held, answers, [], [], []⟩) :
    Balanced op held answers := by
  have hg : Goes (void p) (fun _ s' => Holding s' held) ⟨held, answers, [], [], []⟩ := by
    rw [void, Goes, Prog.wpWith_bind]
    exact h
  rw [← hop] at hg
  have hout : op.outcome held answers = (op.prog Script.ec).runWith Script.acquire Script.release
    ⟨held, answers, [], [], []⟩ := rfl
  unfold Goes Prog.wpWith at hg
  rw [← hout] at hg
  cases ho : op.outcome held answers with
  | done a s =>
    rw [ho] at hg
    refine ⟨fun s' hs' => ?_, ?_, ?_⟩
    · obtain rfl : s = s' := by
        rw [ho] at hs'
        exact (Prog.Outcome.done.inj hs').2
      exact hg.held
    · rw [ho]
      exact hg.releases
    · rw [ho]
      exact hg.accesses
  | failed e s =>
    rw [ho] at hg
    obtain ⟨t, ht⟩ := hg
    refine ⟨fun s' hs' => ?_, ?_, ?_⟩
    · rw [ho] at hs'
      cases hs'
    · rw [ho]
      exact ht.releases
    · rw [ho]
      exact ht.accesses
  | blocked s =>
    rw [ho] at hg
    exact hg.elim

/-- A `readlink` whose `get` fails returns with one lock more. -/
theorem outcome_readlink_fails (ino : Inum) (held : Multiset Inum) {answers : Stream' Answer}
    (hret : answers.head.ret ≠ Extent.OK) :
    ∃ s, (Op.readlink ino).outcome held answers = .done () s ∧ s.held = ino ::ₘ held := by
  let s₁ : Script := ⟨ino ::ₘ held, answers.tail, [], [], []⟩
  refine ⟨s₁, ?_, rfl⟩
  simp [Op.outcome, Op.prog, void, readlink, Script.ec, Script.access, Script.answer,
    Prog.modify, Prog.step, Prog.runWith, Script.acquire, hret, Prog.pure_eq, s₁]

/-- The operation is a `readlink`. -/
def Op.isReadlink : Op → Bool
  | readlink _ => true
  | _ => false

/-- **Every operation keeps to its locks, but for a `readlink` whose `get` fails.** -/
theorem balanced_iff (op : Op) (held : Multiset Inum) (answers : Stream' Answer) :
    Balanced op held answers ↔ ¬ (op.isReadlink ∧ answers.head.ret ≠ Extent.OK) := by
  have h₀ : Holding ⟨held, answers, [], [], []⟩ held := ⟨rfl, rfl, rfl⟩
  cases op with
  | isfile inum => exact iff_of_true (.of_goes rfl (goes_isType h₀)) (by simp [Op.isReadlink])
  | islink inum => exact iff_of_true (.of_goes rfl (goes_isType h₀)) (by simp [Op.isReadlink])
  | isdir inum => exact iff_of_true (.of_goes rfl (goes_isType h₀)) (by simp [Op.isReadlink])
  | getfile inum => exact iff_of_true (.of_goes rfl (goes_getfile h₀)) (by simp [Op.isReadlink])
  | getdir inum => exact iff_of_true (.of_goes rfl (goes_getdir h₀)) (by simp [Op.isReadlink])
  | setattr ino size => exact iff_of_true (.of_goes rfl (goes_setattr h₀)) (by simp [Op.isReadlink])
  | create parent name =>
    exact iff_of_true (.of_goes rfl (goes_createType h₀)) (by simp [Op.isReadlink])
  | mkdir parent name =>
    exact iff_of_true (.of_goes rfl (goes_createType h₀)) (by simp [Op.isReadlink])
  | lookup parent name =>
    exact iff_of_true (.of_goes rfl (goes_lookup h₀)) (by simp [Op.isReadlink])
  | readdir dir => exact iff_of_true (.of_goes rfl (goes_readdir h₀)) (by simp [Op.isReadlink])
  | read ino size off => exact iff_of_true (.of_goes rfl (goes_read h₀)) (by simp [Op.isReadlink])
  | write ino off data => exact iff_of_true (.of_goes rfl (goes_write h₀)) (by simp [Op.isReadlink])
  | unlink parent name =>
    exact iff_of_true (.of_goes rfl (goes_unlink h₀)) (by simp [Op.isReadlink])
  | symlink parent link name =>
    exact iff_of_true (.of_goes rfl (goes_symlink h₀)) (by simp [Op.isReadlink])
  | readlink ino =>
    by_cases hret : answers.head.ret = Extent.OK
    · exact iff_of_true (.of_goes rfl (goes_readlink h₀ hret)) (by simp [hret])
    · refine iff_of_false (fun hb => ?_) (by simp [Op.isReadlink, hret])
      obtain ⟨s, hs, hheld⟩ := outcome_readlink_fails ino held hret
      have hsame : ino ::ₘ held = held := hheld.symm.trans (hb.returns s hs)
      have hcard := congrArg Multiset.card hsame
      rw [Multiset.card_cons] at hcard
      omega

/-- A thread without a lock reads link 2, and the `get` fails: lock 2 is never free again. -/
theorem readlink_keeps_lock :
    ¬ Balanced (.readlink 2) 0 (Stream'.const ⟨1, [], {}, 0⟩) := by
  intro hb
  have hret : (Stream'.const (⟨1, [], {}, 0⟩ : Answer)).head.ret ≠ Extent.OK := by decide
  obtain ⟨s, hs, hheld⟩ := outcome_readlink_fails 2 0 hret
  have h0 : (2 : Inum) ::ₘ 0 = 0 := hheld.symm.trans (hb.returns s hs)
  exact Multiset.cons_ne_zero h0

end Yfs.Fs
