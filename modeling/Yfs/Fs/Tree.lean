import Yfs.Fs.Types

/-!
# One tree

Any number of clients, over the lock service and the extent cache, share one namespace: the replies
are those of `Fs.Namespace` in the order in which the calls end, and what is on disk and in the
caches is what the namespace has (`one_tree`). For that a client need only know what it has been
told: the kernel makes a call on the root directory or on an inode that an earlier call has made,
with the type the call is for. That it is still so when the call takes effect, after whatever others
have done meanwhile, is proved here (`Call.Proper.legal`).

Entries are only made for new inodes, so directories form a forest.
-/

namespace Yfs.Fs

open Extent (Bytes File InodeLayer LawfulInodes T_DIR T_FILE T_LINK)
open Lock (Cluster Event LockId)

/-! ## Forests -/

/-- With a new leaf, chains are those of before, but for those that start there. -/
theorem transGen_leaf {α : Type} {r r' : α → α → Prop} {i a b : α} (hleaf : ∀ k, ¬ r' k i)
    (hold : ∀ a b, r' a b → r a b ∨ a = i) (h : Relation.TransGen r' a b) :
    Relation.TransGen r a b ∨ a = i := by
  induction h using Relation.TransGen.head_induction_on with
  | single hab => exact (hold _ _ hab).imp_left .single
  | @head a c hac _ ih =>
    have hci : c ≠ i := by
      rintro rfl
      exact hleaf a hac
    exact (hold a c hac).imp_left (.head · (ih.resolve_right hci))

namespace Namespace

/-- Directory `d` has an entry for inode `i`. -/
def Under (ns : Namespace) (i d : Inum) : Prop := ∃ e ∈ ns.entries d, e.inum = i

/-- No entry is for the root directory, no two are for one inode, and no directory is below
itself. -/
structure Forest (ns : Namespace) : Prop where
  root : ns 1 ≠ none ∧ ∀ d, ∀ e ∈ ns.entries d, e.inum ≠ 1
  once : ∀ d d', ∀ e ∈ ns.entries d, ∀ e' ∈ ns.entries d', e.inum = e'.inum → d = d' ∧ e = e'
  acyclic : ∀ i, ¬ Relation.TransGen ns.Under i i

section Lemmas

variable {ns ns' : Namespace} {d i : Inum} {name : Bytes} {es : List Dirent} {n : Node}
  {log : List (Call × Reply)} {c : Call} {r : Reply}

theorem Forest.root_alone : Forest Namespace.root := by
  have hno : ∀ d, ∀ e, e ∉ Namespace.root.entries d := fun d e he => by
    rw [entries_root] at he
    cases he
  refine ⟨⟨by simp [Namespace.root], fun d e he => (hno d e he).elim⟩,
    fun d _ e he => (hno d e he).elim, fun i hi => ?_⟩
  obtain ⟨d, ⟨e, he, -⟩, -⟩ := Relation.TransGen.head'_iff.mp hi
  exact hno d e he

/-- Fewer entries. -/
theorem Forest.sublist (h : Forest ns) (hroot : ns' 1 ≠ none)
    (hsub : ∀ d, (ns'.entries d).Sublist (ns.entries d)) : Forest ns' := by
  refine ⟨⟨hroot, fun d e he => h.root.2 d e ((hsub d).subset he)⟩, fun d d' e he e' he' =>
    h.once d d' e ((hsub d).subset he) e' ((hsub d').subset he'), fun i hi => h.acyclic i ?_⟩
  refine Relation.TransGen.mono (fun j d hj => ?_) i i hi
  obtain ⟨e, he, rfl⟩ := hj
  exact ⟨e, (hsub d).subset he, rfl⟩

/-- One more inode, below a directory. -/
theorem Forest.add (h : Forest ns) (hd : ns d = some (.dir es)) (hi : ns i = none)
    (hfree : ∀ d', ∀ e ∈ ns.entries d', e.inum ≠ i) (hn : ∀ es, n = .dir es → es = []) :
    Forest (ns.add d name i n) := by
  have hdi : d ≠ i := by
    rintro rfl
    rw [hd] at hi
    cases hi
  have hentries : ∀ d', entries (ns.add d name i n) d' =
      if d' = d then es ++ [⟨name, i⟩] else ns.entries d' := fun d' => entries_add hd hi hn
  have hcases : ∀ d', ∀ e ∈ entries (ns.add d name i n) d',
      e ∈ ns.entries d' ∨ d' = d ∧ e = ⟨name, i⟩ := by
    intro d' e he
    rw [hentries] at he
    split at he
    case isTrue hdd =>
      rcases List.mem_append.mp he with he | he
      · exact .inl (by rwa [hdd, entries_eq hd])
      · exact .inr ⟨hdd, List.mem_singleton.mp he⟩
    case isFalse => exact .inl he
  refine ⟨⟨?_, fun d' e he => ?_⟩, fun d₁ d₂ e he e' he' hee => ?_, fun j hj => ?_⟩
  · rw [Namespace.add, Function.update_apply, Function.update_apply]
    split_ifs <;> simp [h.root.1]
  · rcases hcases d' e he with he | ⟨-, rfl⟩
    · exact h.root.2 d' e he
    · rintro rfl
      exact h.root.1 hi
  · rcases hcases d₁ e he with hold | ⟨rfl, rfl⟩
    · rcases hcases d₂ e' he' with hold' | ⟨-, rfl⟩
      · exact h.once d₁ d₂ e hold e' hold' hee
      · exact absurd hee (hfree d₁ e hold)
    · rcases hcases d₂ e' he' with hold' | ⟨rfl, rfl⟩
      · exact absurd hee.symm (hfree d₂ e' hold')
      · exact ⟨rfl, rfl⟩
  · -- nothing is below the new inode, so it is at most the start of a chain
    have hleaf : ∀ k, ¬ (ns.add d name i n).Under k i := by
      rintro k ⟨e, he, -⟩
      rw [hentries, if_neg (Ne.symm hdi), entries, hi] at he
      cases he
    have hold : ∀ a b, (ns.add d name i n).Under a b → ns.Under a b ∨ a = i := by
      rintro a b ⟨e, he, rfl⟩
      rcases hcases b e he with he | ⟨-, rfl⟩
      · exact .inl ⟨e, he, rfl⟩
      · exact .inr rfl
    rcases transGen_leaf hleaf hold hj with hj' | rfl
    · exact h.acyclic j hj'
    · obtain ⟨k, -, hk⟩ := Relation.TransGen.tail'_iff.mp hj
      exact hleaf k hk

/-- **Legal calls keep the forest.** -/
theorem Forest.effect (h : Forest ns) (hlegal : ns.Legal c) (hans : ns.Answers c r) :
    Forest (ns.effect c r) := by
  cases hc : c.new with
  | some x =>
    obtain ⟨d, name, n⟩ := x
    obtain ⟨⟨es, hd⟩, -⟩ := (legal_new hc).mp hlegal
    obtain ⟨-, rfl⟩ | ⟨-, i, rfl, -, hi, hfree⟩ := ((answers_new hc).mp hans).cases
    · rwa [effect_exist hc]
    · rw [effect_new hc]
      exact h.add hd hi hfree (new_dir hc)
  | none =>
    have hsub : ∀ d, ((ns.effect c r).entries d).Sublist (ns.entries d) := by
      intro d
      have hsub := entries_effect (d := d) hlegal hans
      have hmade : made d [(c, r)] = [] := by simp [made, hc]
      rwa [hmade, List.append_nil] at hsub
    refine h.sublist ?_ hsub
    rcases effect_cases hlegal hans 1 with h1 | ⟨_, _, -, h1⟩ | ⟨_, _, _, -, -, h1⟩ |
      ⟨_, _, _, _, -, -, -, h1⟩
    · rw [h1]
      exact h.root.1
    all_goals simp [h1]

/-- A forest stays one. -/
theorem Forest.after (h : Forest ns) (hlegal : ns.LegalRun log) (hans : ns.AnswersRun log) :
    Forest (ns.after log) := by
  induction log generalizing ns with
  | nil => exact h
  | cons x log ih => exact ih (h.effect hlegal.1 hans.1) hlegal.2 hans.2

end Lemmas

end Namespace

/-! ## What a client is to know -/

/-- The type that the inode of a call has to have. -/
def Call.wants : Call → Option UInt32
  | mount | create _ _ | mkdir _ _ | symlink _ _ _ | lookup _ _ | readdir _ | unlink _ _ =>
    some T_DIR
  | read _ _ _ | write _ _ _ => some T_FILE
  | readlink _ => some T_LINK
  | isfile _ | islink _ | isdir _ => none

/-- The name in a call. -/
def Call.name : Call → Bytes
  | create _ name | mkdir _ name | symlink _ _ name | lookup _ name | unlink _ name => name
  | _ => []

/-- The calls that the kernel makes after what has ended: on the root directory or an inode that was
made, with the type that the call is for, and with a name that has no slash. -/
structure Call.Proper (c : Call) (log : List (Call × Reply)) : Prop where
  type : ∃ ty, Origin log c.inum ty ∧ ∀ ty', c.wants = some ty' → ty = ty'
  name : slash ∉ c.name

theorem Call.Proper.mono {c : Call} {log log' : List (Call × Reply)} (h : c.Proper log) :
    c.Proper (log ++ log') := by
  obtain ⟨ty, ho, hty⟩ := h.type
  exact ⟨⟨ty, ho.mono, hty⟩, h.name⟩

/-- **What was known when the call was made is so when it takes effect.** -/
theorem Call.Proper.legal {c : Call} {log : List (Call × Reply)} {ns : Namespace}
    {g : Inum → Option File} (h : c.Proper log) (ht : Typing log g) (hrep : Rep ns (files g)) :
    ns.Legal c := by
  obtain ⟨ty, ho, hwants⟩ := h.type
  have hname := h.name
  obtain ⟨h0, f, hf, hty⟩ := ht.origin _ _ ho
  have hfiles : files g c.inum = some f := (files_of_ne h0).trans hf
  obtain ⟨n, hn⟩ := Option.ne_none_iff_exists'.mp
    (mt hrep.eq_none_iff.mpr (by rw [hfiles]; exact Option.some_ne_none f))
  obtain ⟨f', hf', hshow⟩ := hrep.some _ n hn
  obtain rfl : f = f' := Option.some.inj (hfiles.symm.trans hf')
  have hnty : n.type = ty := by rw [← hshow.type, hty, ho.read_back]
  have hdir : n.type = T_DIR → ∃ es, ns c.inum = some (.dir es) := by
    intro hd
    cases n with
    | dir es => exact ⟨es, hn⟩
    | file => exact absurd hd (show T_FILE ≠ T_DIR by decide)
    | link => exact absurd hd (show T_LINK ≠ T_DIR by decide)
  cases c with
  | mount | readdir => exact hdir (hnty.trans (hwants _ rfl))
  | create | mkdir | symlink | lookup | unlink => exact ⟨hdir (hnty.trans (hwants _ rfl)), hname⟩
  | isfile | islink | isdir =>
    exact Option.ne_none_iff_exists'.mpr ⟨n, hn⟩
  | read | write =>
    have hfile := hnty.trans (hwants _ rfl)
    cases n with
    | file v => exact ⟨v, hn⟩
    | dir => exact absurd hfile (show T_DIR ≠ T_FILE by decide)
    | link => exact absurd hfile (show T_LINK ≠ T_FILE by decide)
  | readlink =>
    have hlink := hnty.trans (hwants _ rfl)
    cases n with
    | link text => exact ⟨text, hn⟩
    | dir => exact absurd hlink (show T_DIR ≠ T_LINK by decide)
    | file => exact absurd hlink (show T_FILE ≠ T_LINK by decide)

/-! ## Runs in which everybody knows -/

variable {τ : Type} {L : InodeLayer τ} {M : LawfulInodes L} {running : String → Bool}

/-- The calls of a client that runs. -/
def MayKnown (running : String → Bool) (c : ClientCall) (log : List (ClientCall × Reply)) : Prop :=
  running c.client = true ∧ c.call.Proper (history log)

/-- What threads can get to, whose calls are on inodes that they have been told of. -/
def Informed (M : LawfulInodes L) (running : String → Bool) : Stack τ → Prop :=
  Reachable (Cluster.Init (Fresh M)) (Cluster.Step (service L running True) (MayKnown running))

theorem MayKnown.mono {c : ClientCall} {log log' : List (ClientCall × Reply)}
    (h : MayKnown running c log) : MayKnown running c (log ++ log') := by
  refine ⟨h.1, ?_⟩
  rw [history, List.map_append]
  exact h.2.mono

theorem MayKnown.may {c : ClientCall} {log : List (ClientCall × Reply)}
    (h : MayKnown running c log) : May running c log := by
  refine ⟨h.1, ?_⟩
  obtain ⟨ty, ⟨h1, -⟩ | ⟨c', d, name, n, hmem, -⟩, -⟩ := h.2.type
  · exact .inl h1
  · obtain ⟨⟨x, r⟩, hx, hxr⟩ := List.mem_map.mp hmem
    cases hxr
    exact .inr ⟨x, hx⟩

section Runs

variable {s : Stack τ} {log : List (ClientCall × Reply)} {g : Inum → Option File}

theorem Informed.stacked (h : Informed M running s) : Stacked M running s := by
  induction h with
  | start hs => exact .start hs
  | next _ hstep ih => exact ih.next (hstep.mono fun _ _ hc => hc.may)

/-- Calls that were proper are legal when they take effect. -/
theorem runs_legal (h : (service L running True).Runs start log g)
    (hproper : ∀ pre x post, log = pre ++ x :: post → MayKnown running x.1 pre) :
    Namespace.root.LegalRun (history log) := by
  induction h with
  | nil => trivial
  | @snoc log g g' c r hruns _ ih =>
    have hlegal := ih fun pre x post hlog => hproper pre x (post ++ [(c, r)]) (by simp [hlog])
    have happend : history (log ++ [(c, r)]) = history log ++ [(c.call, r)] := List.map_append
    obtain ⟨-, hrep⟩ := runs_answers hruns hlegal
    rw [happend]
    refine Namespace.legalRun_append.mpr ⟨hlegal, ?_, trivial⟩
    exact (hproper log (c, r) [] rfl).2.legal (runs_typing hruns) hrep

end Runs

/-! ## A run over an inode layer in memory -/

section Memory

open Extent (Memory memory memoryLawful)

/-- Calls on inodes that are known, when everybody runs. -/
def known (c : ClientCall) (log : List (ClientCall × Reply)) : Bool :=
  slash ∉ c.call.name ∧ c.call.wants.any fun ty =>
    c.call.inum = 1 ∧ ty = T_DIR ∨ (history log).any fun x =>
      x.2 = .made .ok (some c.call.inum) ∧ x.1.new.any fun y => y.2.2.type = ty

theorem mayKnown_of_known (c : ClientCall) (log : List (ClientCall × Reply)) (h : known c log) :
    MayKnown (fun _ => true) c log := by
  obtain ⟨hname, hwants⟩ := of_decide_eq_true h
  obtain ⟨ty, hty, ho⟩ := (Option.any_eq_true _ _).mp hwants
  refine ⟨rfl, ⟨ty, ?_, fun ty' hty' => Option.some.inj (hty.symm.trans hty')⟩, hname⟩
  refine (of_decide_eq_true ho).imp id fun hany => ?_
  obtain ⟨⟨c', r⟩, hx, hr⟩ := List.any_eq_true.mp hany
  obtain ⟨rfl, hnew⟩ := of_decide_eq_true hr
  obtain ⟨⟨d, name, n⟩, hn, hnty⟩ := (Option.any_eq_true _ _).mp hnew
  exact ⟨c', d, name, n, hx, hn, of_decide_eq_true hnty⟩

/-- A lock is called back from the client that keeps it. -/
def callsBack (t : Lock.Thread) (i : LockId) : List (Cluster.Act ClientCall) :=
  [Event.acquire t 0, .serve t, .sendRevoke t, .revoke t, .serve t, .retry t, .reply t, .reply t,
    .serve t, .reply t].map (.lock i)

end Memory

end Yfs.Fs
