import Mathlib.Data.Stream.Defs
import Yfs.Extent.Client

/-!
# The extent client on a network that fails

One client, whose calls are answered by an arbitrary stream of replies: any status, and
any value or none in the result variable. No operation that makes a call with a bad
answer reports it and leaves its entry alone: `get` and `getattr` mark what they did not
get as `OK`, `put` ignores the status of the `get` it makes, and `flush_handler` forgets
data it could not write back (`failed_call_not_intact`).
-/

namespace Yfs.Extent

/-- The answer to a call. `none` leaves the result variable as it was. -/
structure Reply where
  ret : Status
  id : Option ExtentId := none
  buf : Option Bytes := none
  attr : Option Attr := none

/-- A client and what it will hear; `rets` are the statuses it heard, the last one first. -/
structure Lonely where
  files : ExtentId → Option FileData
  replies : Stream' Reply
  clock : Stream' UInt32
  memory : Stream' Attr
  rets : List Status := []

namespace Lonely

/-- The client's process. -/
def host (clt_id : String) : Host Lonely where
  clt_id := clt_id
  fileManager s := s.files
  setFile eid f s := { s with files := Function.update s.files eid (some f) }
  time s := (s.clock.head, { s with clock := s.clock.tail })
  fresh s := (s.memory.head, { s with memory := s.memory.tail })

/-- The next reply. -/
def answer {α : Type} (f : Reply → α) : Prog Fault Empty Lonely (Status × α) :=
  .step fun s => ((s.replies.head.ret, f s.replies.head),
    { s with replies := s.replies.tail, rets := s.replies.head.ret :: s.rets })

/-- The calls, each answered by the next reply. -/
def calls : Calls Fault Empty Lonely where
  create _ _ id := answer (·.id.getD id)
  put _ _ _ := do
    let (ret, _) ← answer fun _ => ()
    pure ret
  get _ _ buf := answer (·.buf.getD buf)
  getattr _ _ attr := answer (·.attr.getD attr)
  remove _ _ := do
    let (ret, _) ← answer fun _ => ()
    pure ret

end Lonely

/-- The operations that make calls, with the value of their result variable or their
argument. -/
inductive CacheOp where
  | get (buf : Bytes)
  | getattr (attr : Attr)
  | put (buf : Bytes)
  | flush
  deriving DecidableEq, Repr

/-- The operation, on the extent `eid`, for its status. -/
def CacheOp.prog (clt_id : String) (eid : ExtentId) : CacheOp → Prog Fault Empty Lonely Status
  | .get buf => do
    let (ret, _) ← Client.get (Lonely.host clt_id) Lonely.calls eid buf
    pure ret
  | .getattr attr => do
    let (ret, _) ← Client.getattr (Lonely.host clt_id) Lonely.calls eid attr
    pure ret
  | .put buf => Client.put (Lonely.host clt_id) Lonely.calls eid buf
  | .flush => Client.flush_handler (Lonely.host clt_id) Lonely.calls.put eid

/-- The flags, the data and the size of the entry are as before; an entry that was not
there is as its constructor makes it. -/
def Kept (before after : Option FileData) : Prop :=
  match before, after with
  | none, none => True
  | none, some f => f.data_stat = .none ∧ f.attr_stat = .none ∧ f.file_data = []
  | some _, none => False
  | some f, some f' => f'.data_stat = f.data_stat ∧ f'.attr_stat = f.attr_stat ∧
      f'.file_data = f.file_data ∧ f'.file_attr.size = f.file_attr.size

namespace Lonely

variable {clt_id : String} {eid : ExtentId} {s : Lonely} {E : Fault → Lonely → Prop}

/-- The entry an operation finds once it has made sure that there is one. -/
def entered (s : Lonely) (eid : ExtentId) : FileData :=
  (s.files eid).getD { file_attr := s.memory.head }

/-- An entry that is kept has the flags it was entered with. -/
theorem kept_stat {f : FileData} (h : Kept (s.files eid) (some f)) :
    f.data_stat = (s.entered eid).data_stat ∧ f.attr_stat = (s.entered eid).attr_stat := by
  unfold entered
  cases hf : s.files eid with
  | none =>
    rw [hf] at h
    exact ⟨h.1, h.2.1⟩
  | some f₀ =>
    rw [hf] at h
    exact ⟨h.1, h.2.1⟩

theorem wp_enter {Q : Unit → Lonely → Prop}
    (h : ∀ s', s'.files eid = some (s.entered eid) → s'.rets = s.rets → Q () s') :
    (Client.enter (host clt_id) eid : Prog Fault Empty _ _).wp Q E s := by
  unfold entered at h
  cases hf : s.files eid with
  | none =>
    simpa [Client.enter, host, hf] using
      h ((host clt_id).setFile eid { file_attr := s.memory.head }
        { s with memory := s.memory.tail })
        (by simp [hf, host]) rfl
  | some f => simpa [Client.enter, host, hf] using h s (by simp [hf]) rfl

theorem wp_file {Q : FileData → Lonely → Prop} {f : FileData} (h : s.files eid = some f) :
    (Client.file (host clt_id) eid : Prog Fault Empty _ _).wp Q E s ↔ Q f s := by
  simp [Client.file, host, h]

theorem wp_update {Q : Unit → Lonely → Prop} {g : FileData → FileData} {f : FileData}
    (hf : s.files eid = some f)
    (h : ∀ s', s'.files eid = some (g f) → s'.rets = s.rets → Q () s') :
    (Client.update (host clt_id) eid g : Prog Fault Empty _ _).wp Q E s := by
  simpa [Client.update, host, hf] using h ((host clt_id).setFile eid (g f) s) (by simp [host]) rfl

theorem wp_time {Q : UInt32 → Lonely → Prop} (h : ∀ now s', s'.files = s.files →
      s'.rets = s.rets → Q now s') :
    (Client.time (host clt_id) : Prog Fault Empty _ _).wp Q E s :=
  h _ _ rfl rfl

theorem calls_get {buf : Bytes} : calls.get clt_id eid buf = answer (·.buf.getD buf) := rfl

theorem calls_getattr {attr : Attr} :
    calls.getattr clt_id eid attr = answer (·.attr.getD attr) := rfl

theorem wp_answer {α : Type} {f : Reply → α} {Q : Status × α → Lonely → Prop}
    (h : ∀ ret a s', s'.files = s.files → s'.rets = ret :: s.rets → Q (ret, a) s') :
    (answer f).wp Q E s :=
  h _ _ _ rfl rfl

/-- `getattr` ends with `attr_stat` set, whatever it heard, and touches no data. -/
theorem wp_getattr {attr : Attr} {Q : Status × Attr → Lonely → Prop}
    (h : ∀ r s' f, s'.files eid = some f → f.data_stat = (s.entered eid).data_stat →
      f.attr_stat = .ok →
      ((s.entered eid).attr_stat = .ok ∧ s'.rets = s.rets ∨
        (s.entered eid).attr_stat = .none ∧ s'.rets = r.1 :: s.rets) → Q r s') :
    (Client.getattr (host clt_id) calls eid attr).wp Q E s := by
  rw [Client.getattr, Prog.wp_bind]
  refine wp_enter fun s₁ hf₁ hr₁ => ?_
  rw [Prog.wp_bind, wp_file hf₁]
  cases hst : (s.entered eid).attr_stat with
  | none =>
    rw [Prog.wp_bind, calls_getattr]
    refine wp_answer fun ret a s₂ hf₂ hr₂ => ?_
    rw [Prog.wp_bind]
    refine wp_update (hf₂ ▸ hf₁) fun s₃ hf₃ hr₃ => ?_
    rw [Prog.wp_bind]
    refine wp_update hf₃ fun s₄ hf₄ hr₄ => ?_
    exact h _ _ _ hf₄ rfl rfl (.inr ⟨hst, by rw [hr₄, hr₃, hr₂, hr₁]⟩)
  | ok =>
    rw [Prog.wp_bind, wp_file hf₁]
    exact h _ _ _ hf₁ rfl hst (.inl ⟨hst, hr₁⟩)

/-- `fetch` ends with `data_stat` set, whatever it heard; the status it returns is the
one of its own call. -/
theorem wp_fetch {buf : Bytes} {f : FileData} {Q : Status × Bytes → Lonely → Prop}
    (hf : s.files eid = some f)
    (h : ∀ r s' f new, s'.files eid = some f → f.data_stat = .ok →
      s'.rets = new ++ r.1 :: s.rets → Q r s') :
    (Client.fetch (host clt_id) calls eid buf).wp Q E s := by
  rw [Client.fetch, Prog.wp_bind, calls_get]
  refine wp_answer fun ret b s₁ hf₁ hr₁ => ?_
  rw [Prog.wp_bind]
  refine wp_update (hf₁ ▸ hf) fun s₂ hf₂ hr₂ => ?_
  rw [Prog.wp_bind]
  refine wp_update hf₂ fun s₃ hf₃ hr₃ => ?_
  rw [Prog.wp_bind, wp_file hf₃, Prog.wp_bind]
  have hrets : s₃.rets = ret :: s.rets := by rw [hr₃, hr₂, hr₁]
  split
  case isTrue =>
    rw [Prog.wp_bind]
    refine wp_getattr fun r s₄ f hf₄ hd₄ _ hr₄ => ?_
    refine wp_update hf₄ fun s₅ hf₅ hr₅ => ?_
    have hd : f.data_stat = .ok := by simpa [entered, hf₃] using hd₄
    rcases hr₄ with ⟨-, hr₄⟩ | ⟨-, hr₄⟩
    · exact h _ s₅ _ [] hf₅ hd (by rw [hr₅, hr₄, hrets]; rfl)
    · exact h _ s₅ _ [r.1] hf₅ hd (by rw [hr₅, hr₄, hrets]; rfl)
  case isFalse => exact h _ s₃ _ [] hf₃ rfl hrets

/-- So does `get`, which makes no call if the data is there. -/
theorem wp_get {buf : Bytes} {Q : Status × Bytes → Lonely → Prop}
    (h : ∀ r s' f, s'.files eid = some f → f.data_stat = .ok →
      ((s.entered eid).data_stat = .ok ∧ s'.rets = s.rets ∨
        (s.entered eid).data_stat = .none ∧ ∃ new, s'.rets = new ++ r.1 :: s.rets) → Q r s') :
    (Client.get (host clt_id) calls eid buf).wp Q E s := by
  rw [Client.get, Prog.wp_bind]
  refine wp_enter fun s₁ hf₁ hr₁ => ?_
  rw [Prog.wp_bind, wp_file hf₁, Prog.wp_bind]
  -- both branches end with the data there, and then the access time is set
  refine Prog.wp_mono (Q := fun r s₂ => ∃ f, s₂.files eid = some f ∧ f.data_stat = .ok ∧
    ((s.entered eid).data_stat = .ok ∧ s₂.rets = s.rets ∨
      (s.entered eid).data_stat = .none ∧ ∃ new, s₂.rets = new ++ r.1 :: s.rets))
    ?_ ?_ fun _ _ => id
  · cases hst : (s.entered eid).data_stat with
    | none =>
      refine wp_fetch hf₁ fun r s₂ f new hf₂ hok hr₂ => ⟨f, hf₂, hok, .inr ⟨rfl, new, ?_⟩⟩
      rw [hr₂, hr₁]
    | ok =>
      rw [Prog.wp_bind, wp_file hf₁]
      exact ⟨_, hf₁, hst, .inl ⟨rfl, hr₁⟩⟩
  · rintro r s₂ ⟨f, hf₂, hok, hr₂⟩
    rw [Prog.wp_bind]
    refine wp_time fun now s₃ hf₃ hr₃ => ?_
    rw [Prog.wp_bind]
    refine wp_update (hf₃ ▸ hf₂) fun s₄ hf₄ hr₄ => ?_
    exact h _ _ _ hf₄ hok (by rw [hr₄, hr₃]; exact hr₂)

/-- `put` returns `OK`, whatever it heard. -/
theorem wp_put {buf : Bytes} {Q : Status → Lonely → Prop}
    (h : ∀ s' new, s'.rets = new ++ s.rets → Q OK s') :
    (Client.put (host clt_id) calls eid buf).wp Q E s := by
  rw [Client.put, Prog.wp_bind]
  refine wp_enter fun s₁ hf₁ hr₁ => ?_
  rw [Prog.wp_bind, wp_file hf₁, Prog.wp_bind]
  refine Prog.wp_mono (Q := fun _ s₂ => ∃ f new, s₂.files eid = some f ∧
    s₂.rets = new ++ s.rets) ?_ ?_ fun _ _ => id
  · split
    case isTrue =>
      rw [Prog.wp_bind]
      refine wp_get fun r s₂ f hf₂ _ hr₂ => ?_
      refine wp_update hf₂ fun s₃ hf₃ hr₃ => ?_
      rcases hr₂ with ⟨-, hr₂⟩ | ⟨-, new, hr₂⟩
      · exact ⟨_, [], hf₃, by rw [hr₃, hr₂, hr₁]; rfl⟩
      · exact ⟨_, new ++ [r.1], hf₃, by rw [hr₃, hr₂, hr₁]; simp⟩
    case isFalse => exact ⟨_, [], hf₁, hr₁⟩
  · rintro - s₂ ⟨f, new, hf₂, hr₂⟩
    rw [Prog.wp_bind]
    refine wp_time fun now s₃ hf₃ hr₃ => ?_
    rw [Prog.wp_bind]
    refine wp_update (hf₃ ▸ hf₂) fun s₄ hf₄ hr₄ => ?_
    rw [Prog.wp_bind]
    refine wp_update hf₄ fun s₅ hf₅ hr₅ => ?_
    rw [Prog.wp_bind]
    refine wp_update hf₅ fun s₆ hf₆ hr₆ => ?_
    rw [Prog.wp_bind]
    refine wp_update hf₆ fun s₇ _ hr₇ => ?_
    exact h s₇ new (by rw [hr₇, hr₆, hr₅, hr₄, hr₃, hr₂])

/-- `flush_handler` makes its call only with data to write back, and forgets it then. -/
theorem wp_flush_handler {Q : Status → Lonely → Prop} (h : ∀ ret s', s'.rets = s.rets ∨
      s'.rets = ret :: s.rets ∧ (∃ f, s.files eid = some f ∧ f.data_stat = .ok) ∧
        (∃ f, s'.files eid = some f ∧ f.data_stat = .none) → Q ret s') :
    (Client.flush_handler (host clt_id) calls.put eid).wp Q E s := by
  rw [Client.flush_handler, Prog.wp_bind, Prog.wp_read]
  cases hf : s.files eid with
  | none =>
    simp only [host, hf]
    exact h OK s (.inl rfl)
  | some f =>
    have hf' : (host clt_id).fileManager s eid = some f := hf
    rw [hf']
    show ((Client.file (host clt_id) eid) >>= _).wp Q E s
    rw [Prog.wp_bind, wp_file hf]
    split
    case isTrue => exact h OK s (.inl rfl)
    case isFalse hne =>
      have hok : f.data_stat = .ok := by
        cases hd : f.data_stat
        · exact absurd hd hne
        · rfl
      rw [Prog.wp_bind, wp_file hf, Prog.wp_bind]
      show ((answer fun _ => ()) >>= _).wp _ _ _
      rw [Prog.wp_bind]
      refine wp_answer fun ret _ s₁ hf₁ hr₁ => ?_
      rw [Prog.wp_pure, Prog.wp_bind]
      refine wp_update (hf₁ ▸ hf) fun s₂ hf₂ hr₂ => ?_
      rw [Prog.wp_bind]
      refine wp_update hf₂ fun s₃ hf₃ hr₃ => ?_
      exact h ret s₃ (.inr ⟨by rw [hr₃, hr₂, hr₁], ⟨f, hf, hok⟩, _, hf₃, rfl⟩)

end Lonely

/-- The operation makes no bad call, or it does not both report it and leave its entry. -/
theorem CacheOp.wp_prog (clt_id : String) (eid : ExtentId) (op : CacheOp) (s : Lonely) :
    (op.prog clt_id eid).wp (fun ret s' => ∃ new, s'.rets = new ++ s.rets ∧
      ((∃ r ∈ new, r ≠ OK) → ¬ (ret ≠ OK ∧ Kept (s.files eid) (s'.files eid))))
      (fun _ _ => False) s := by
  -- no call was made
  have hnone : ∀ {ret : Status} {s' : Lonely}, s'.rets = s.rets → ∃ new, s'.rets = new ++ s.rets ∧
      ((∃ r ∈ new, r ≠ OK) → ¬ (ret ≠ OK ∧ Kept (s.files eid) (s'.files eid))) :=
    fun hr => ⟨[], hr, fun ⟨_, hm, _⟩ => absurd hm List.not_mem_nil⟩
  cases op with
  | get buf =>
    rw [CacheOp.prog, Prog.wp_bind]
    refine Lonely.wp_get fun r s' f hf hok hr => ?_
    rcases hr with ⟨-, hr⟩ | ⟨hst, new, hr⟩
    · exact hnone hr
    · refine ⟨new ++ [r.1], by simp [hr], fun _ ⟨_, hk⟩ => ?_⟩
      have hd := (Lonely.kept_stat (hf ▸ hk)).1
      simp [hok, hst] at hd
  | getattr attr =>
    rw [CacheOp.prog, Prog.wp_bind]
    refine Lonely.wp_getattr fun r s' f hf _ hok hr => ?_
    rcases hr with ⟨-, hr⟩ | ⟨hst, hr⟩
    · exact hnone hr
    · refine ⟨[r.1], hr, fun _ ⟨_, hk⟩ => ?_⟩
      have ha := (Lonely.kept_stat (hf ▸ hk)).2
      simp [hok, hst] at ha
  | put buf => exact Lonely.wp_put fun s' new hr => ⟨new, hr, fun _ ⟨hne, _⟩ => hne rfl⟩
  | flush =>
    refine Lonely.wp_flush_handler fun ret s' hr => ?_
    rcases hr with hr | ⟨hr, ⟨f, hf, hok⟩, f', hf', hnone⟩
    · exact hnone hr
    · refine ⟨[ret], hr, fun _ ⟨_, hk⟩ => ?_⟩
      rw [hf, hf'] at hk
      have hd : f'.data_stat = f.data_stat := hk.1
      simp [hok, hnone] at hd

/-- **A failed call never leaves the cache intact**: whatever the cache holds, whichever
operation runs and whatever the network answers, the operation ends; and if one of the
calls it made was answered with a status other than `OK`, it does not both report a bad
status and leave its entry as it was. -/
theorem failed_call_not_intact (clt_id : String) (eid : ExtentId) (op : CacheOp) (s : Lonely) :
    ∃ ret s' new, (op.prog clt_id eid).run s = .done ret s' ∧ s'.rets = new ++ s.rets ∧
      ((∃ r ∈ new, r ≠ OK) → ¬ (ret ≠ OK ∧ Kept (s.files eid) (s'.files eid))) := by
  obtain ⟨ret, s', hrun, new, hr, h⟩ := Prog.wp_done (op.wp_prog clt_id eid s)
  exact ⟨ret, s', new, hrun, hr, h⟩

/-- A client with an empty cache, whose calls all fail with the status `-1`. -/
def offline : Lonely where
  files _ := none
  replies := fun _ => { ret := -1 }
  clock := fun _ => 0
  memory := fun _ => {}

/-- A `get` of extent 5 whose calls both fail leaves the empty string in the cache, marked
`OK`. -/
theorem offline_get_marked_ok :
    ∃ ret s' f, ((CacheOp.get []).prog "127.0.0.1:1024" 5).run offline = .done ret s' ∧
      s'.rets = [-1, -1] ∧ offline.files 5 = none ∧ s'.files 5 = some f ∧ f.data_stat = .ok ∧
      ¬ (ret ≠ OK ∧ Kept (offline.files 5) (s'.files 5)) := by
  refine ⟨-1, _, _, rfl, rfl, rfl, rfl, rfl, ?_⟩
  rintro ⟨-, hd, -⟩
  cases hd

end Yfs.Extent
