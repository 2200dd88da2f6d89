import Yfs.Fs.Clients
import Yfs.Fs.History

/-!
# No lost update

Any number of clients, any interleaving: the replies are those that one client would get, on
a store without caches, from the same calls made one after the other in the order in which
they ended (`serial`). So no name that was made is lost, none is made twice, and no bytes are
lost that nobody has overwritten.
-/

namespace Yfs.Fs

open Extent (Bytes File InodeLayer LawfulInodes Sys)

variable {τ : Type} {L : InodeLayer τ} {M : LawfulInodes L} {running : String → Bool}

/-- The calls and replies of a log. -/
def history (log : List (ClientCall × Reply)) : List (Call × Reply) :=
  log.map fun x => (x.1.call, x.2)

theorem Store.replay_append (cs cs' : List Call) (s : Store) :
    replay (cs ++ cs') s =
      (replay cs s).bind fun x => (replay cs' x.2).map fun y => (x.1 ++ y.1, y.2) := by
  induction cs generalizing s with
  | nil => simp [replay]
  | cons c cs ih =>
    simp only [List.cons_append, replay]
    cases (c.prog ec).run s with
    | done r s' =>
      simp only [ih]
      cases replay cs s' <;> simp [Option.map_map, Function.comp_def]
    | failed e s' => rfl
    | blocked s' => rfl

/-- The root directory alone. -/
theorem rep_root : Rep Namespace.root root := by
  refine ⟨fun i n hi => ?_, fun i hi => ?_⟩
  · by_cases h1 : i = 1
    · rw [Namespace.root, if_pos h1] at hi
      cases hi
      exact ⟨_, if_pos h1, rfl⟩
    · rw [Namespace.root, if_neg h1] at hi
      cases hi
  · by_cases h1 : i = 1
    · rw [Namespace.root, if_pos h1] at hi
      cases hi
    · exact if_neg h1

section Runs

variable {log : List (ClientCall × Reply)} {g : Inum → Option File}

/-- A run of the calls is a run on the store, with the new files numbered as they were. -/
theorem runs_replay (h : (service L running True).Runs start log g) :
    ∃ names : List Inum, names.Nodup ∧ (∀ n ∈ names, n ≠ 0 ∧ n ≠ 1 ∧ g n ≠ none) ∧
      ∀ rest, Store.replay (log.map (·.1.call)) ⟨root, names ++ rest⟩ =
        some (log.map (·.2), ⟨files g, rest⟩) := by
  induction h with
  | nil => exact ⟨[], .nil, nofun, fun rest => by rw [files_start]; rfl⟩
  | @snoc log g g' c r hruns hcommit ih =>
    obtain ⟨names, hnodup, hnames, hreplay⟩ := ih
    obtain ⟨new, hnew, hfresh, hrun⟩ := hcommit.replays
    refine ⟨names ++ new, hnodup.append hnew fun n hn hn' => ?_, fun n hn => ?_, fun rest => ?_⟩
    · exact (hnames n hn).2.2 (hfresh n hn').2.1
    · rcases List.mem_append.mp hn with hn | hn
      · obtain ⟨h0, h1, hg⟩ := hnames n hn
        exact ⟨h0, h1, hcommit.grows n hg⟩
      · obtain ⟨h0, hg, hg'⟩ := hfresh n hn
        refine ⟨h0, ?_, hg'⟩
        rintro rfl
        exact runs_grows hruns (i := 1) (by simp [start, root]) hg
    · rw [List.map_append, Store.replay_append, List.append_assoc, hreplay (new ++ rest)]
      simp [Store.replay, hrun rest]

/-- A run of legal calls gives the answers of the namespace, and leaves its files. -/
theorem runs_answers (h : (service L running True).Runs start log g)
    (hlegal : Namespace.root.LegalRun (history log)) :
    Namespace.root.AnswersRun (history log) ∧
      Rep (Namespace.root.after (history log)) (files g) := by
  induction h with
  | nil =>
    rw [files_start]
    exact ⟨trivial, rep_root⟩
  | @snoc log g g' c r hruns hcommit ih =>
    have happend : history (log ++ [(c, r)]) = history log ++ [(c.call, r)] := List.map_append
    rw [happend] at hlegal ⊢
    obtain ⟨hlegal', hl, -⟩ := Namespace.legalRun_append.mp hlegal
    obtain ⟨hans, hrep⟩ := ih hlegal'
    obtain ⟨names, -, hfresh, hrun⟩ := hcommit.replays
    have hnames : ∀ n ∈ names ++ [], n ≠ 0 ∧ files g n = none := by
      intro n hn
      obtain ⟨h0, hg, -⟩ := hfresh n (by simpa using hn)
      exact ⟨h0, (files_of_ne h0).trans hg⟩
    have hwf := Namespace.Wf.root.after hlegal' hans
    obtain ⟨ha, hrep'⟩ := Store.refines (hrun []) hrep hwf hnames hl
    rw [Namespace.after_append, Namespace.answersRun_append]
    exact ⟨⟨hans, ha, trivial⟩, hrep'⟩

end Runs

section Main

variable {θ : Type} [DecidableEq θ] {p : Threads τ θ}

/-- **No lost or duplicated update.** In every reachable state of any number of threads and
clients:

- the replies are those of the calls that have ended, made one after the other in the order in
  which they ended, on a store without caches that gives new files the numbers they got;
- that order is the one in which they really ended, so it is consistent with the order of
  every client;
- if the calls are legal, then of two that make one name the first makes it and the second
  finds it there; a name that was made is found and listed until it is unlinked; and bytes that
  were written are read until they are overwritten. -/
theorem serial (h : Reached M running p) :
    (∃ names st, names.Nodup ∧ (∀ n ∈ names, n ≠ 0 ∧ n ≠ 1) ∧
      Store.replay (p.log.map (·.1.call)) ⟨root, names⟩ = some (p.log.map (·.2), st)) ∧
    (∀ p' : Threads τ θ,
      Relation.ReflTransGen (Pool.Step (service L running True) (May running)) p p' →
      p.log <+: p'.log) ∧
    (Namespace.root.LegalRun (history p.log) →
      (∀ pre mid post c₁ r₁ c₂ r₂ d name n₁ n₂,
        history p.log = pre ++ (c₁, r₁) :: (mid ++ (c₂, r₂) :: post) →
        c₁.new = some (d, name, n₁) → c₂.new = some (d, name, n₂) →
        (Namespace.root.after pre).get d name = none → (∀ x ∈ mid, ¬ Namespace.Clears d name x.1) →
        (∃ i, r₁ = .made .ok (some i)) ∧ r₂ = .made .exist none) ∧
      (∀ pre mid post c₁ i c r d name n,
        history p.log = pre ++ (c₁, .made .ok (some i)) :: (mid ++ (c, r) :: post) →
        c₁.new = some (d, name, n) → (∀ x ∈ mid, ¬ Namespace.Clears d name x.1) →
        (c = .lookup d name → r = .found .ok (some (true, i))) ∧
          (c = .readdir d → ∃ list, r = .entries .ok list ∧ ⟨name, i⟩ ∈ list)) ∧
      ∀ pre mid post i off data size r₁ r₂,
        history p.log = pre ++ (.write i off data, r₁) :: (mid ++ (.read i size off, r₂) :: post) →
        (∀ off data r, (.write i off data, r) ∈ history p.log → InRange off data) →
        (∀ off' data' r, (.write i off' data', r) ∈ mid →
          Namespace.Apart off.toInt.toNat data off' data') →
        size.toNat = data.length → r₁ = .status .ok ∧ r₂ = .bytes .ok data) := by
  obtain ⟨⟨g, hruns, -⟩, -⟩ := linearized h
  refine ⟨?_, fun p' hp' => ?_, fun hlegal => ?_⟩
  · obtain ⟨names, hnodup, hnames, hreplay⟩ := runs_replay hruns
    have hrep := hreplay []
    rw [List.append_nil] at hrep
    exact ⟨names, _, hnodup, fun n hn => ⟨(hnames n hn).1, (hnames n hn).2.1⟩, hrep⟩
  · induction hp' with
    | refl => exact List.prefix_rfl
    | tail _ hstep ih => exact ih.trans hstep.log_prefix
  · obtain ⟨hans, -⟩ := runs_answers hruns hlegal
    refine ⟨?_, ?_, ?_⟩
    · intro pre mid post c₁ r₁ c₂ r₂ d name n₁ n₂ hlog h₁ h₂ hfree hmid
      exact Namespace.made_once hlegal hans hlog h₁ h₂ hfree hmid
    · intro pre mid post c₁ i c r d name n hlog h₁ hmid
      exact Namespace.made_survives hlegal hans hlog h₁ hmid
    · intro pre mid post i off data size r₁ r₂ hlog hrange hmid hsize
      exact Namespace.written_survives hlegal hans hlog hrange hmid hsize

open Extent (memoryLawful) in
/-- Two threads create one name at the same time, `A` gets the locks first. -/
theorem serial_creates : ∃ p : Threads Extent.Memory Bool, Reached memoryLawful (fun _ => true) p ∧
    p.log = [(⟨"A", .mount⟩, .status .ok), (⟨"A", .create 1 [120]⟩, .made .ok (some 5)),
      (⟨"B", .create 1 [120]⟩, .made .exist none)] ∧
    ∃ names st, names.Nodup ∧
      Store.replay [.mount, .create 1 [120], .create 1 [120]] ⟨root, names⟩ =
      some ([.status .ok, .made .ok (some 5), .made .exist none], st) := by
  obtain ⟨p, hp, hlog⟩ := reached_of_schedule
    ((true, some ⟨"A", .mount⟩) :: List.replicate 27 (true, none) ++
      [(true, some ⟨"A", .create 1 [120]⟩), (false, some ⟨"B", .create 1 [120]⟩)] ++
      List.replicate 17 (true, none) ++ List.replicate 27 (false, none))
    [(⟨"A", .mount⟩, .status .ok), (⟨"A", .create 1 [120]⟩, .made .ok (some 5)),
      (⟨"B", .create 1 [120]⟩, .made .exist none)] (by decide +kernel)
  obtain ⟨⟨names, st, hnodup, -, hreplay⟩, -⟩ := serial hp
  rw [hlog] at hreplay
  exact ⟨p, hp, hlog, names, st, hnodup, hreplay⟩

end Main

end Yfs.Fs
