import Yfs.Fs.Service

/-!
# Any number of clients

The runs of the file system: clients are started on a new server, and make calls in any
interleaving, each on the root directory or on an inode that an earlier call has made. The
calls take effect one at a time (`linearized`).

A client that is started later empties the root directory: its constructor writes it, through
the cache like any content (`mount_unchanged_iff`). `running` are the clients that are ever
started; nobody calls back one that has not made a call yet.
-/

namespace Yfs.Fs

open Extent (Bytes Fault File InodeLayer LawfulInodes Sys Idle OK T_DIR)

variable {τ : Type} {L : InodeLayer τ} {M : LawfulInodes L} {running : String → Bool}

/-- The server has just started: it has the root directory, and nobody has asked for it. -/
structure Fresh (M : LawfulInodes L) (s : Sys τ) : Prop where
  owner : ∀ i, s.fileManger i = none
  cache : ∀ c i, s.cache c i = none
  files : ∀ i, M.files s.im i = if i = 1 then some ⟨Store.short T_DIR, []⟩ else none

/-- The files at the start: the root directory, which is empty. -/
def root (i : Inum) : Option File := if i = 1 then some ⟨Store.short T_DIR, []⟩ else none

/-- The objects at the start: the root directory, and what lock 0 protects. -/
def start : Inum → Option File := Function.update root 0 (some ⟨0, []⟩)

theorem files_start : files start = root := by
  rw [start, files, Function.update_idem]
  exact Function.update_eq_self 0 root

/-- On a new server the root directory is in order, and empty. -/
theorem Fresh.settled {s : Sys τ} (h : Fresh M s) (running : String → Bool) :
    Settled (inodes M running) start ∅ s := by
  have hlt : (1 : Inum).toNat < 2 ^ 31 := by decide
  have hdisk : (s.slice M 1).disk = some ⟨Store.short T_DIR, []⟩ := by
    simp only [Extent.Sys.slice, if_pos hlt, h.files]
    rfl
  have hroot : Idle running False (Store.short T_DIR) [] (s.slice M 1) := by
    have hsl : s.slice M 1 = ⟨none, fun _ => none, some ⟨Store.short T_DIR, []⟩⟩ :=
      Extent.Slice.ext (h.owner 1) (funext fun c => h.cache c 1) hdisk
    rw [hsl]
    exact .new
  have hstart : ∀ i f, start i = some f → i = 0 ∨ i = 1 ∧ f = ⟨Store.short T_DIR, []⟩ := by
    intro i f hi
    by_cases h0 : i = 0
    · exact .inl h0
    · rw [start, Function.update_of_ne h0, root] at hi
      split at hi
      case isTrue h1 => exact .inr ⟨h1, (Option.some.inj hi).symm⟩
      case isFalse => cases hi
  refine ⟨fun i f _ hi => ?_, fun i f hi hfree => ?_, fun _ h => h.elim, fun i => ⟨?_, fun _ => ?_⟩⟩
  · rcases hstart i f hi with h0 | ⟨rfl, rfl⟩
    · exact .inl h0
    · exact .inr ⟨hlt, hroot⟩
  · rcases hstart i f hi with h0 | ⟨rfl, rfl⟩
    · exact hfree.1 h0
    · exact absurd (hdisk.symm.trans hfree.2) (by simp)
  · intro c f hc
    exact absurd ((h.cache c i).symm.trans hc) (by simp)
  · exact ⟨h.owner i, fun c => h.cache c i⟩

/-! ## Runs -/

/-- The calls that may be made: by a client that runs, on the root directory or on an inode
that an earlier call has made. -/
def May (running : String → Bool) (c : ClientCall) (log : List (ClientCall × Reply)) : Prop :=
  running c.client = true ∧
    (c.call.inum = 1 ∨ ∃ c', (c', Reply.made .ok (some c.call.inum)) ∈ log)

section Runs

variable {log : List (ClientCall × Reply)} {g : Inum → Option File} {i : Inum}

/-- What is there stays. -/
theorem runs_grows {g₀ : Inum → Option File} (h : (service L running True).Runs g₀ log g)
    (hi : g₀ i ≠ none) :
    g i ≠ none := by
  induction h with
  | nil => exact hi
  | snoc _ hcommit ih => exact hcommit.grows i ih

/-- What was made is there. -/
theorem runs_made {c : ClientCall} (h : (service L running True).Runs start log g)
    (hmade : (c, Reply.made .ok (some i)) ∈ log) : i ≠ 0 ∧ g i ≠ none := by
  induction h with
  | nil => cases hmade
  | snoc _ hcommit ih =>
    rcases List.mem_append.mp hmade with hmade | hmade
    · obtain ⟨hne, hg⟩ := ih hmade
      exact ⟨hne, hcommit.grows i hg⟩
    · cases List.mem_singleton.mp hmade
      exact hcommit.made i rfl

/-- Every call that may be made keeps to its inodes. -/
theorem holds_may {c : ClientCall} {s : Sys τ} (hruns : (service L running True).Runs start log g)
    (hmay : May running c log) : Keeps M running True c (c.prog L running) ∅ s g := by
  obtain ⟨hr, hi⟩ := hmay
  obtain ⟨hne, hg⟩ : c.call.inum ≠ 0 ∧ g c.call.inum ≠ none := by
    rcases hi with h1 | ⟨c', hmade⟩
    · rw [h1]
      exact ⟨by decide, runs_grows hruns (by simp [start, root])⟩
    · exact runs_made hruns hmade
  exact holds_call (fun _ _ _ _ => trivial) hr (runs_grows hruns (by simp [start])) hne hg

/-- Threads with names in `θ` that make calls. -/
abbrev Threads (τ θ : Type) := Pool Fault Inum (Sys τ) ClientCall Reply θ

variable {θ : Type} [DecidableEq θ] {p : Threads τ θ}

/-- What threads can get to, step by step and in any interleaving. -/
def Reached (M : LawfulInodes L) (running : String → Bool) : Threads τ θ → Prop :=
  Reachable (Pool.Init (Fresh M)) (Pool.Step (service L running True) (May running))

/-- **Calls take effect one at a time**, in the order in which they end. -/
theorem linearized (h : Reached M running p) :
    (∃ g, (service L running True).Runs start p.log g ∧
      ∀ i f, g i = some f → p.owner i = none → (inodes M running).obj i f p.state) ∧
    (∀ i, (inodes M running).always i p.state) ∧
    ∀ t c e, p.thread t = some (c, .fail e) → True ∧ (e = .outOfRange ∨ e = .badLength) := by
  have hmay : ∀ c log g s, (service L running True).Runs start log g → May running c log →
      Keeps M running True c (c.prog L running) ∅ s g := fun _ _ _ _ => holds_may
  refine Pool.linearized hmay (fun s hs => ?_) h
  have hset := hs.settled running
  exact ⟨hset.always, fun i f hf => ⟨hset.known i f hf, hset.obj i f (Set.notMem_empty i) hf⟩⟩

end Runs

/-! ## A client that is started later -/

/-- The constructor of the client `c`. -/
def construct (L : InodeLayer τ) (running : String → Bool) (c : String) :
    Prog Fault Inum (Sys τ) Unit :=
  yfs_client (Extent.Client.ec (Sys.host c) (Sys.calls L running))

/-- Directory `i` has an entry for `j`. -/
def Linked (M : LawfulInodes L) (s : Sys τ) (i j : Inum) : Prop :=
  (s.slice M i).Typed (Store.short T_DIR) ∧ ∃ v, (s.slice M i).Value v ∧ ∃ e ∈ parse 0 v, e.inum = j

section Mount

variable {s s' : Sys τ} {c : String} {i : Inum} {ty : Int16} {v : Bytes} {r : Reply}

/-- A constructor that runs alone empties the root directory. -/
theorem run_construct (hr : running c = true) (hidle : Idle running False ty v (s.slice M 1))
    (halw : ∀ i, (inodes M running).always i s)
    (hrun : (construct L running c).run s = .done () s') :
    Idle running False ty [] (s'.slice M 1) ∧ ∀ i, (inodes M running).always i s' := by
  have hseg : Seg (inodes M running) (fun _ => False) (construct L running c)
      (fun _ _ s' => Idle running False ty [] (s'.slice M 1)) {1} s := by
    refine Extent.seg_put rfl (by decide) rfl hidle hr (fun o ho hne => ⟨c, o, hr, ho, hne⟩)
      (fun hW => hW.elim) fun s' sl' hs' hidle' => ?_
    show Idle running False ty [] (s'.slice M 1)
    rwa [hs']
  rcases hseg.run halw with ⟨_, _, s₁, hdone, -, -, hidle', halw'⟩ | ⟨e, _, -, hE⟩ |
    ⟨s₁, hblocked, -⟩
  · rw [hrun] at hdone
    cases hdone
    exact ⟨hidle', halw'⟩
  · exact hE.elim
  · rw [hrun] at hblocked
    cases hblocked

/-- Only one content counts. -/
theorem value_unique {sl : Extent.Slice} {w : Bytes} (hok : sl.Ok) (hv : sl.Value v)
    (hw : sl.Value w) :
    v = w := by
  obtain ⟨d, hd, ⟨c, f, hc, hf, rfl⟩ | ⟨hn, rfl⟩⟩ := hv
  · exact (hw.of_ok hok hc hf).symm
  · exact (hw.of_none hd hn).symm

theorem parse_eq_nil : parse 0 v = [] ↔ v = [] := by
  constructor
  · intro h
    by_contra hv
    rw [parse] at h
    split at h
    case h_1 hline => simp [getline, hv] at hline
    case h_2 => split at h <;> cases h
  · rintro rfl
    rw [parse]
    rfl

/-- `readdir`, alone. -/
theorem run_readdir_idle (hr : running c = true) (hlt : i.toNat < 2 ^ 31)
    (hidle : Idle running False ty v (s.slice M i)) (halw : ∀ i, (inodes M running).always i s)
    (hrun : (ClientCall.prog L running ⟨c, .readdir i⟩).run s = .done r s') :
    r = .entries .ok (parse 0 v) := by
  have hseg : Seg (inodes M running) (fun _ => False)
      (Extent.Client.get (Sys.host c) (Sys.calls L running) i [])
        (fun b _ _ => b = (OK, v)) {i} s := by
    rw [← bind_pure (Extent.Client.get _ _ _ _)]
    exact Extent.seg_get rfl hlt rfl hidle hr
      (fun o ho hne => ⟨c, o, hr, ho, hne⟩) fun _ _ _ _ _ => rfl
  simp only [ClientCall.prog, Call.prog, readdir, Prog.lock_bind, Prog.acquire_bind,
    bind_assoc, Prog.run, Extent.Client.ec] at hrun
  rw [Prog.run_bind] at hrun
  rcases hseg.run halw with ⟨_, _, s₁, hdone, -, -, rfl, -⟩ | ⟨e, _, -, hE⟩ | ⟨s₁, hblocked, -⟩
  · simp only [hdone, ne_eq, not_true_eq_false, if_false, Prog.unlock_bind] at hrun
    cases hrun
    rfl
  · exact hE.elim
  · simp only [hblocked] at hrun
    cases hrun

variable {θ : Type} [DecidableEq θ] {p : Threads τ θ}

/-- **A client that is started later preserves the file system only if the root directory is
empty.** In any reachable state in which nobody is at the root directory, if `c` is started and then
any client lists the root directory: the listing is the one of before, and no inode becomes
unreachable, if and only if the content of the root directory was empty. -/
theorem mount_unchanged_iff (h : Reached M running p) (hfree : p.owner 1 = none) {c r₀ r : String}
    {s₀ s₁ s₂ : Sys τ} {before after : Reply} (hc : running c = true) (hr₀ : running r₀ = true)
    (hr : running r = true)
    (hbefore : (ClientCall.prog L running ⟨r₀, .readdir 1⟩).run p.state = .done before s₀)
    (hmount : (construct L running c).run p.state = .done () s₁)
    (hafter : (ClientCall.prog L running ⟨r, .readdir 1⟩).run s₁ = .done after s₂) :
    (after = before ∧ ∀ j, Relation.ReflTransGen (Linked M p.state) 1 j →
      Relation.ReflTransGen (Linked M s₁) 1 j) ↔ (p.state.slice M 1).Value [] := by
  obtain ⟨⟨g, hruns, hobj⟩, halw, -⟩ := linearized h
  obtain ⟨f, hf⟩ := Option.ne_none_iff_exists'.mp
    (runs_grows hruns (i := 1) (by simp [start, root]))
  obtain ⟨hlt, hidle⟩ := (hobj 1 f hf hfree).resolve_left (by decide)
  obtain ⟨hidle₁, halw₁⟩ := run_construct hc hidle halw hmount
  have hlist₀ := run_readdir_idle hr₀ hlt hidle halw hbefore
  have hlist := run_readdir_idle hr hlt hidle₁ halw₁ hafter
  have hnil : (p.state.slice M 1).Value [] ↔ f.data = [] := by
    constructor
    · exact fun hv => value_unique hidle.ok hidle.value hv
    · exact fun hd => hd ▸ hidle.value
  rw [hnil, hlist₀, hlist]
  constructor
  · rintro ⟨hsame, -⟩
    simp only [Reply.entries.injEq, true_and] at hsame
    exact parse_eq_nil.mp (hsame.symm.trans (parse_eq_nil.mpr rfl))
  · intro hd
    refine ⟨by rw [hd], fun j hj => ?_⟩
    -- from an empty directory one gets nowhere
    rcases hj.cases_head with rfl | ⟨k, ⟨-, v, hv, e, he, -⟩, -⟩
    · exact .refl
    · rw [value_unique hidle.ok hv (hnil.mpr hd), parse_eq_nil.mpr rfl] at he
      cases he

end Mount

/-! ## Runs over an inode layer in memory -/

section Memory

open Extent (Memory memory memoryLawful)

/-- A new server, and nobody does anything. -/
def fresh (θ : Type) : Threads Memory θ where
  state := {
    im := { next := 5, files := fun i => if i = 1 then some ⟨1, []⟩ else none }
    clock := fun _ => 0
    memory := fun _ => {} }
  owner _ := none
  thread _ := none
  log := []

theorem fresh_init (θ : Type) : Pool.Init (Fresh memoryLawful) (fresh θ) :=
  ⟨⟨fun _ => rfl, fun _ _ => rfl, fun _ => rfl⟩, fun _ => rfl, fun _ => rfl, rfl⟩

/-- The calls that may be made, when everybody runs. -/
def ok (c : ClientCall) (log : List (ClientCall × Reply)) : Bool :=
  c.call.inum = 1 ∨ log.any fun x => x.2 = .made .ok (some c.call.inum)

theorem may_of_ok (c : ClientCall) (log : List (ClientCall × Reply)) (h : ok c log) :
    May (fun _ => true) c log := by
  refine ⟨rfl, (of_decide_eq_true h).imp id fun hany => ?_⟩
  obtain ⟨⟨c', r⟩, hx, hr⟩ := List.any_eq_true.mp hany
  obtain rfl := of_decide_eq_true hr
  exact ⟨c', hx⟩

/-- Calls made one after the other, that lead to what `obs` sees. -/
theorem reached_of_script {δ : Type} (obs : Threads Memory Unit → δ) (cs : List ClientCall) (d : δ)
    (h : (Pool.script (service memory (fun _ => true) True) ok (fun _ _ _ => true) 100 () cs
      (fresh Unit)).map obs =
      some d) :
    ∃ p : Threads Memory Unit, Reached memoryLawful (fun _ => true) p ∧ obs p = d :=
  Pool.reachable_script may_of_ok (fun _ _ _ _ => trivial) (.start (fresh_init Unit)) h

/-- Steps of two threads in a given order. -/
theorem reached_of_schedule (ts : List (Bool × Option ClientCall)) (log : List (ClientCall × Reply))
    (h : (Pool.schedule (service memory (fun _ => true) True) ok (fun _ _ _ => true) ts
      (fresh Bool)).map Pool.log =
      some log) :
    ∃ p : Threads Memory Bool, Reached memoryLawful (fun _ => true) p ∧ p.log = log :=
  Pool.reachable_schedule may_of_ok (fun _ _ _ _ => trivial) (.start (fresh_init Bool)) h

/-- What `A` sees of the root directory before `B` is started, and after it. -/
def views (p : Threads Memory Unit) : Option (Reply × Reply) :=
  let readdir := (ClientCall.prog memory (fun _ => true) ⟨"A", .readdir 1⟩).run
  match readdir p.state, (construct memory (fun _ => true) "B").run p.state with
  | .done before _, .done _ s =>
    match readdir s with
    | .done after _ => some (before, after)
    | _ => none
  | _, _ => none

theorem views_eq {p : Threads Memory Unit} {before after : Reply}
    (h : views p = some (before, after)) :
    ∃ s₀ s₁ s₂, (ClientCall.prog memory (fun _ => true) ⟨"A", .readdir 1⟩).run p.state =
      .done before s₀ ∧
      (construct memory (fun _ => true) "B").run p.state = .done () s₁ ∧
      (ClientCall.prog memory (fun _ => true) ⟨"A", .readdir 1⟩).run s₁ = .done after s₂ := by
  simp only [views] at h
  split at h
  case h_1 before s₀ _ s₁ h₀ h₁ =>
    split at h
    case h_1 after s₂ h₂ =>
      cases h
      exact ⟨s₀, s₁, s₂, h₀, h₁, h₂⟩
    case h_2 => cases h
  case h_2 => cases h

/-- A file that `A` has made is gone when `B` has started. -/
theorem mount_empties : ∃ p : Threads Memory Unit, Reached memoryLawful (fun _ => true) p ∧
    p.owner 1 = none ∧ ∃ s₀ s₁ s₂ before after,
      (ClientCall.prog memory (fun _ => true) ⟨"A", .readdir 1⟩).run p.state = .done before s₀ ∧
      (construct memory (fun _ => true) "B").run p.state = .done () s₁ ∧
      (ClientCall.prog memory (fun _ => true) ⟨"A", .readdir 1⟩).run s₁ = .done after s₂ ∧
      before = .entries .ok [⟨[120], 5⟩] ∧ after = .entries .ok [] := by
  obtain ⟨p, hp, hobs⟩ := reached_of_script (fun p => (views p, p.owner 1))
    [⟨"A", .mount⟩, ⟨"A", .create 1 [120]⟩]
    (some (.entries .ok [⟨[120], 5⟩], .entries .ok []), none) (by decide +kernel)
  obtain ⟨hviews, hfree⟩ := Prod.mk.inj hobs
  obtain ⟨s₀, s₁, s₂, h₀, h₁, h₂⟩ := views_eq hviews
  exact ⟨p, hp, hfree, s₀, s₁, s₂, _, _, h₀, h₁, h₂, rfl, rfl⟩

/-- So the root directory was not empty. -/
theorem mount_unchanged_iff_file :
    ∃ p : Threads Memory Unit, Reached memoryLawful (fun _ => true) p ∧
    p.owner 1 = none ∧ ¬ (p.state.slice memoryLawful 1).Value [] := by
  obtain ⟨p, hp, hobs⟩ := reached_of_script (fun p => (views p, p.owner 1))
    [⟨"A", .mount⟩, ⟨"A", .create 1 [120]⟩]
    (some (.entries .ok [⟨[120], 5⟩], .entries .ok []), none) (by decide +kernel)
  obtain ⟨hviews, hfree⟩ := Prod.mk.inj hobs
  obtain ⟨s₀, s₁, s₂, h₀, h₁, h₂⟩ := views_eq hviews
  refine ⟨p, hp, hfree, fun hnil => ?_⟩
  obtain ⟨hsame, -⟩ := (mount_unchanged_iff hp hfree rfl rfl rfl h₀ h₁ h₂).mpr hnil
  cases hsame

end Memory

end Yfs.Fs
