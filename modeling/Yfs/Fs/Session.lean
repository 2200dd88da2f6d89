import Yfs.Fs.Serial
import Yfs.Storage.Layer

/-!
# One client

A single client on a new server, with `inode_manager` and its disk below: the file system is
the namespace that the history of its calls says (`namespace_refined`). Every legal call
returns, with an answer that the namespace allows, unless `alloc_block` returns 0.

Here the data never reaches the disk, since nobody asks for it: it stays in the client's
cache. What the disk gives is the numbers of the inodes.
-/

namespace Yfs.Fs

open Extent (Bytes Fault File InodeLayer LawfulInodes Sys)
open Storage (Disk layer lawful)

/-- Only the client `c` runs. -/
def only (c x : String) : Bool := x == c

/-- A client on a new server: its constructor, and then legal calls one after the other, with
their replies. -/
inductive Session (c : String) : List (Call × Reply) → Sys Disk → Prop
  | mounted {s₀ s : Sys Disk} : Storage.Init s₀.im.st → s₀.im.st.live = [1] →
      (∀ i, s₀.fileManger i = none) → (∀ x i, s₀.cache x i = none) →
      (construct layer (only c) c).run s₀ = .done () s → Session c [] s
  | snoc {log : List (Call × Reply)} {s s' : Sys Disk} {call : Call} {r : Reply} : Session c log s →
      (Namespace.root.after log).Legal call →
      (ClientCall.prog layer (only c) ⟨c, call⟩).run s = .done r s' →
        Session c (log ++ [(call, r)]) s'

section Alone

variable {τ : Type} {L : InodeLayer τ} {running : String → Bool}

/-- The constructor, as a call. -/
theorem run_mount {c : String} {s s' : Sys τ} (h : (construct L running c).run s = .done () s') :
    (ClientCall.prog L running ⟨c, .mount⟩).run s = .done (.status .ok) s' := by
  simp only [ClientCall.prog, Call.prog, Prog.lock_bind, Prog.run, Prog.unlock_bind]
  unfold construct at h
  rw [Prog.run_bind, h]
  rfl

/-- Legal calls are on inodes that are there. -/
theorem legal_inum {ns : Namespace} {c : Call} (h : ns.Legal c) : ns c.inum ≠ none := by
  cases c with
  | isfile | islink | isdir => exact h
  | mount | readdir | readlink | read | write =>
    obtain ⟨_, hn⟩ := h
    simp [Call.inum, hn]
  | create | mkdir | symlink | lookup | unlink =>
    obtain ⟨⟨_, hn⟩, -⟩ := h
    simp [Call.inum, hn]

end Alone

section Main

variable {c : String} {log : List (Call × Reply)} {s : Sys Disk} {call : Call}

/-- What a session has done: the constructor and the calls have taken effect, one after the
other. -/
structure Done (c : String) (log : List (Call × Reply)) (s : Sys Disk) (g : Inum → Option File) :
    Prop where
  runs : ∃ clog, history clog = (.mount, .status .ok) :: log ∧
    (service layer (only c) True).Runs start clog g
  settled : Settled (inodes lawful (only c)) g ∅ s
  legal : Namespace.root.LegalRun log

/-- To empty the root directory when it is empty changes nothing. -/
theorem effect_mount_root : Namespace.root.effect .mount (.status .ok) = Namespace.root :=
  Function.update_eq_self 1 Namespace.root

/-- The replies of a session are those of the namespace, and the files too. -/
theorem Done.answers {g : Inum → Option File} (h : Done c log s g) :
    Namespace.root.AnswersRun log ∧ Rep (Namespace.root.after log) (files g) := by
  obtain ⟨clog, hlog, hruns⟩ := h.runs
  have hlegal : Namespace.root.LegalRun (history clog) := by
    rw [hlog]
    refine ⟨⟨[], rfl⟩, ?_⟩
    rw [effect_mount_root]
    exact h.legal
  obtain ⟨hans, hrep⟩ := runs_answers hruns hlegal
  rw [hlog] at hans hrep
  have hans' := hans.2
  rw [effect_mount_root] at hans'
  refine ⟨hans', ?_⟩
  have hafter : Namespace.root.after ((.mount, .status .ok) :: log) = Namespace.root.after log := by
    show (Namespace.root.effect .mount (.status .ok)).after log = _
    rw [effect_mount_root]
  rwa [hafter] at hrep

/-- A legal call of a session keeps to its inodes. -/
theorem Done.holds {g : Inum → Option File} {W : Prop} (h : Done c log s g)
    (hlegal : (Namespace.root.after log).Legal call)
    (hW : ∀ i off data, call = .write i off data → W) :
    Keeps lawful (only c) W ⟨c, call⟩ (ClientCall.prog layer (only c) ⟨c, call⟩) ∅ s g := by
  obtain ⟨clog, -, hruns⟩ := h.runs
  obtain ⟨n, hn⟩ := Option.ne_none_iff_exists'.mp (legal_inum hlegal)
  obtain ⟨f, hf, -⟩ := h.answers.2.some _ n hn
  have hne : call.inum ≠ 0 := by
    intro h0
    rw [h0] at hf
    simp [files] at hf
  rw [files_of_ne hne] at hf
  exact holds_call hW (by simp [only]) (runs_grows hruns (by simp [start])) hne (by simp [hf])

/-- One more call. -/
theorem Done.snoc {g g' : Inum → Option File} {r : Reply} {s' : Sys Disk} {W : Prop}
    (h : Done c log s g) (hlegal : (Namespace.root.after log).Legal call)
    (hr : RunsTo (inodes lawful (only c)) (service layer (only c) W) (fun _ => ())
      ⟨c, call⟩ ∅ s g r s' g') :
    Done c (log ++ [(call, r)]) s' g' := by
  obtain ⟨clog, hlog, hruns⟩ := h.runs
  have hcommit : (service layer (only c) True).commit ⟨c, call⟩ r g g' := hr.commit
  refine ⟨⟨clog ++ [(⟨c, call⟩, r)], ?_, hruns.snoc hcommit⟩, hr.settled, ?_⟩
  · rw [history, List.map_append, ← history, hlog]
    rfl
  · exact Namespace.legalRun_append.mpr ⟨h.legal, hlegal, trivial⟩

theorem Session.done (h : Session c log s) : ∃ g, Done c log s g := by
  induction h with
  | @mounted s₀ s hinit hlive hown hcache hrun =>
    have hfresh : Fresh lawful s₀ := ⟨hown, hcache, Disk.file_init hinit hlive⟩
    have hset := hfresh.settled (only c)
    have hkeeps : Keeps lawful (only c) True ⟨c, .mount⟩
      (ClientCall.prog layer (only c) ⟨c, .mount⟩) ∅ s₀
        start := holds_call (fun _ _ _ _ => trivial) (by simp [only]) (by simp [start])
      (show (1 : Inum) ≠ 0 by decide) (by simp [start, root, Call.inum])
    rcases hkeeps.run hset (fun _ _ => trivial) with ⟨r, s', g, hdone, hr⟩ | ⟨e, s', hfailed, -⟩ |
      ⟨s', hblocked, -⟩
    · rw [run_mount hrun] at hdone
      cases hdone
      exact ⟨g, ⟨[(⟨c, .mount⟩, .status .ok)], rfl, .snoc .nil hr.commit⟩, hr.settled, trivial⟩
    · rw [run_mount hrun] at hfailed
      cases hfailed
    · rw [run_mount hrun] at hblocked
      cases hblocked
  | @snoc log s s' call r _ hlegal hrun ih =>
    obtain ⟨g, hg⟩ := ih
    rcases (hg.holds hlegal fun _ _ _ _ => trivial).run hg.settled (fun _ _ => trivial) with
      ⟨r', s₁, g', hdone, hr⟩ |
      ⟨e, s₁, hfailed, -⟩ | ⟨s₁, hblocked, -⟩
    · rw [hrun] at hdone
      cases hdone
      exact ⟨g', hg.snoc hlegal hr⟩
    · rw [hrun] at hfailed
      cases hfailed
    · rw [hrun] at hblocked
      cases hblocked

/-- Nobody else runs. -/
theorem not_several : ¬ Several (only c) := by
  rintro ⟨x, y, hx, hy, hne⟩
  have hx' : x = c := by simpa [only] using hx
  have hy' : y = c := by simpa [only] using hy
  exact hne (hy'.trans hx'.symm)

/-- The numbers in use, and the files. -/
theorem live_iff {i : UInt32} :
    i ∈ s.im.st.live ↔ i.toUInt64 ≠ 0 ∧ (s.slice lawful i.toUInt64).disk ≠ none := by
  have h32 : i.toUInt64.toUInt32 = i := UInt32.toUInt32_toUInt64 i
  have hnat : i.toUInt64.toNat = i.toNat := UInt32.toNat_toUInt64 i
  constructor
  · intro hi
    obtain ⟨hpos, hlt⟩ := Disk.live_range hi
    simp only [Storage.INODE_NUM] at hlt
    have hlt' : i.toUInt64.toNat < 2 ^ 31 := by omega
    refine ⟨fun h0 => ?_, ?_⟩
    · rw [h0] at hnat
      exact absurd hnat (Nat.ne_of_lt hpos)
    · simp only [Sys.slice, if_pos hlt', h32]
      exact Storage.file_ne_none.mpr hi
  · rintro ⟨-, hd⟩
    simp only [Sys.slice, h32] at hd
    split at hd
    case isTrue => exact Storage.file_ne_none.mp hd
    case isFalse => exact absurd rfl hd

/-- Calls that leave the inodes of the namespace leave the numbers in use. -/
theorem live_same {g g' : Inum → Option File} {s' : Sys Disk}
    (hg : Settled (inodes lawful (only c)) g ∅ s) (hg' : Settled (inodes lawful (only c)) g' ∅ s')
    (hsame : ∀ i, g' i = none → s'.slice lawful i = s.slice lawful i)
    (hdom : ∀ i, i ≠ 0 → (g i = none ↔ g' i = none)) (i : UInt32) :
    i ∈ s'.im.st.live ↔ i ∈ s.im.st.live := by
  rw [live_iff, live_iff]
  refine and_congr_right fun h0 => ?_
  cases hi : g' i.toUInt64 with
  | none => rw [hsame _ hi]
  | some f' =>
    obtain ⟨f, hf⟩ := Option.ne_none_iff_exists'.mp fun hn => by simp [(hdom _ h0).mp hn] at hi
    exact iff_of_true (fun hd => hg'.known _ f' hi ⟨h0, hd⟩) fun hd => hg.known _ f hf ⟨h0, hd⟩

/-- A call that finds the name there changes nothing. -/
theorem effect_of_exist {ns : Namespace} (h : ns.Answers call (.made .exist none)) :
    ns.effect call (.made .exist none) = ns := by
  cases call with
  | mount | unlink | write => cases h
  | _ => rfl

/-- **The file system of one client is the namespace of its history.** After any session of
legal calls the namespace has no name twice in a directory, its entries are in the order in which
they were made, and every call has replied as it should. Every legal call that follows returns
with an answer that the namespace allows, and if the name is there no inode is allocated; unless
`alloc_block` returns 0 in it. (`write` can end the process in other ways, and is left out.) -/
theorem namespace_refined (h : Session c log s) (hlegal : (Namespace.root.after log).Legal call)
    (hw : ∀ i off data, call ≠ .write i off data) :
    (Namespace.root.after log).Wf ∧ Namespace.root.AnswersRun log ∧
    (∀ d, ((Namespace.root.after log).entries d).Sublist (Namespace.made d log)) ∧
    ((∃ r s', (ClientCall.prog layer (only c) ⟨c, call⟩).run s = .done r s' ∧
        (Namespace.root.after log).Answers call r ∧
        (r = .made .exist none → ∀ i, i ∈ s'.im.st.live ↔ i ∈ s.im.st.live)) ∨
      ∃ s' ty i w, (ClientCall.prog layer (only c) ⟨c, call⟩).run s = .blocked s' ∧
        (Storage.alloc_inode ty).run s'.im.st.world = .done i w ∧ w.full) := by
  obtain ⟨g, hg⟩ := h.done
  obtain ⟨hans, hrep⟩ := hg.answers
  refine ⟨Namespace.Wf.root.after hg.legal hans, hans, fun d => ?_, ?_⟩
  · have hsub := Namespace.entries_after hg.legal hans (d := d)
    rwa [Namespace.entries_root, List.nil_append] at hsub
  have hkeeps := hg.holds (W := False) hlegal fun i off data he => absurd he (hw i off data)
  rcases hkeeps.run hg.settled (fun _ _ => trivial) with ⟨r, s', g', hdone, hr⟩ |
    ⟨e, s', -, hfalse, -⟩ |
    ⟨s', hblocked, hstuck⟩
  · refine .inl ⟨r, s', hdone, ?_, fun hexist i => ?_⟩
    · obtain ⟨hans', -⟩ := (hg.snoc hlegal hr).answers
      exact (Namespace.answersRun_append.mp hans').2.1
    · have hdone' := hg.snoc hlegal hr
      obtain ⟨hans', hrep'⟩ := hdone'.answers
      have ha := (Namespace.answersRun_append.mp hans').2.1
      subst hexist
      -- both states have the files of one namespace
      have heffect : Namespace.root.after (log ++ [(call, .made .exist none)]) =
          Namespace.root.after log := by
        rw [Namespace.after_append]
        exact effect_of_exist ha
      rw [heffect] at hrep'
      refine live_same hg.settled hdone'.settled hr.same (fun j hj => ?_) i
      rw [← files_of_ne (g := g) hj, ← files_of_ne (g := g') hj, hrep.eq_none_iff,
        hrep'.eq_none_iff]
  · exact hfalse.elim
  · obtain ⟨ty, i, w, hrun, hfull⟩ := Storage.refused not_several hstuck
    exact .inr ⟨s', ty, i, w, hblocked, hrun, hfull⟩

end Main

/-! ## A session -/

/-- A new server. -/
def newServer : Sys Disk := { im := Storage.newDisk, clock := .const 0, memory := .const {} }

/-- `A` has started. -/
def started : Sys Disk := ((construct layer (only "A") "A").run newServer).state

/-- `A` has made the file `x`. -/
def created : Sys Disk :=
  ((ClientCall.prog layer (only "A") ⟨"A", .create 1 [120]⟩).run started).state

theorem session_created : Session "A" [(.create 1 [120], .made .ok (some 5))] created := by
  have h₁ : (construct layer (only "A") "A").run newServer = .done () started :=
    Prog.Outcome.eq_done (by decide +kernel)
  have h₂ : (ClientCall.prog layer (only "A") ⟨"A", .create 1 [120]⟩).run started =
      .done (.made .ok (some 5)) created := Prog.Outcome.eq_done (by decide +kernel)
  exact .snoc (.mounted Storage.init_zeros rfl (fun _ => rfl) (fun _ _ => rfl) h₁)
    ⟨⟨[], rfl⟩, by decide⟩ h₂

/-- To make it again gives `EXIST`, and no inode is allocated. -/
theorem namespace_refined_exist :
    ∃ s', (ClientCall.prog layer (only "A") ⟨"A", .create 1 [120]⟩).run created =
    .done (.made .exist none) s' ∧ ∀ i, i ∈ s'.im.st.live ↔ i ∈ created.im.st.live := by
  have hrun : (ClientCall.prog layer (only "A") ⟨"A", .create 1 [120]⟩).run created =
      .done (.made .exist none) _ := Prog.Outcome.eq_done (by decide +kernel)
  have hlegal : (Namespace.root.after [(.create 1 [120], .made .ok (some 5))]).Legal
      (.create 1 [120]) :=
    ⟨⟨_, rfl⟩, by decide⟩
  obtain ⟨-, -, -, ⟨r, s', hdone, -, hlive⟩ | ⟨s', _, _, _, hblocked, -⟩⟩ :=
    namespace_refined session_created hlegal nofun
  · rw [hrun] at hdone
    cases hdone
    exact ⟨_, hrun, hlive rfl⟩
  · rw [hrun] at hblocked
    cases hblocked

end Yfs.Fs
