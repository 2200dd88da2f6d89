import Yfs.Lib.Pool
import Yfs.Storage.Blocks

/-!
# Handlers that run at the same time

`extent_server`, `inode_manager` and `block_manager` have no lock. The handlers of several
requests are threads that call `alloc_block` and `free_block`, and read and write other
blocks; every `read_block` and `write_block` is one step, and which calls a handler makes
is left open.

`alloc_block` and `free_block` read a block of the bitmap and write it back later. If no two
of these calls overlap, then no block is handed out twice and the bitmap is what the calls
have made it (`blocks_exclusive`). If they do, two handlers can get the same block
(`block_shared`).
-/

namespace Yfs.Storage.Concurrent

/-- The calls of a handler. -/
inductive Call where
  | alloc_block (type : Region)
  | free_block (id : UInt32)
  | read_block (id : UInt32)
  | write_block (id : UInt32) (buf : Block)

/-- The block that `alloc_block` returns; the other results do not matter here. -/
abbrev Result := Option UInt32

/-- The code of a call, if calls may overlap (`apart = false`) or not. -/
def Call.prog (apart : Bool) : Call → Prog Fault Unit World Result
  | alloc_block type => do
    if apart then .lock () else pure ()
    let r ← (Storage.alloc_block type).unlocked
    if apart then .unlock () else pure ()
    pure (some r)
  | free_block id => do
    if apart then .lock () else pure ()
    (Storage.free_block id).unlocked
    if apart then .unlock () else pure ()
    pure none
  | read_block id => do
    let _ ← (Storage.read_block id).unlocked
    pure none
  | write_block id buf => do
    (Storage.write_block id buf).unlocked
    pure none

/-- A mark of the bitmap after a call. -/
def Call.mark (m : ℕ → Bool) : Call × Result → ℕ → Bool
  | (alloc_block _, some r) => Function.update m r.toNat true
  | (free_block id, _) => if INODE_START ≤ id.toNat then Function.update m id.toNat false else m
  | _ => m

/-- What the calls do to the bitmap. -/
def Call.commit : Call → Result → (Unit → Option (ℕ → Bool)) → (Unit → Option (ℕ → Bool)) → Prop
  | alloc_block type, r, g, g' => ∃ m b, g () = some m ∧ r = some (.ofNat b) ∧ type.start ≤ b ∧
      b < type.stop ∧ m b = false ∧ g' () = some (Call.mark m (alloc_block type, r))
  | call, r, g, g' => ∃ m, g () = some m ∧ g' () = some (Call.mark m (call, r))

/-- The condition on a call: there is a block for it. -/
def Call.Cond (s : World) : Call → Prop
  | alloc_block type => ∃ b, type.start ≤ b ∧ b < type.stop ∧ s.free b
  | _ => True

/-- The calls as a service. -/
def service (apart : Bool) : Service Fault Unit (ℕ → Bool) World Call Result where
  prog := Call.prog apart
  commit := Call.commit
  cond call _ s := call.Cond s

/-- The calls that may be made: blocks of the disk are read, and blocks outside of the bitmap
are written. -/
def May (call : Call) (_ : List (Call × Result)) : Prop :=
  match call with
  | .read_block id => id.toNat < BLOCK_NUM
  | .write_block id _ => id.toNat < BLOCK_NUM ∧ (id.toNat < 2 ∨ 10 ≤ id.toNat)
  | _ => True

/-- The same bitmap. -/
def Same (s s' : World) : Prop := ∀ b, 2 ≤ b → b < 10 → s'.blocks b = s.blocks b

theorem Same.trans {s s' s'' : World} (h : Same s s') (h' : Same s' s'') : Same s s'' :=
  fun b hb hb' => (h' b hb hb').trans (h b hb hb')

/-- The bitmap block of a block on the disk. -/
theorem Same.bblock {s s' : World} (h : Same s s') {b : ℕ} (hb : b < BLOCK_NUM) :
    s'.blocks (BBLOCK b) = s.blocks (BBLOCK b) :=
  h _ (Nat.le_add_left 2 _) (World.BBLOCK_lt hb)

theorem Same.marked {s s' : World} (h : Same s s') {b : ℕ} (hb : b < BLOCK_NUM) :
    s'.marked b = s.marked b := by
  rw [World.marked, h.bblock hb, World.marked]

/-- The bitmap, as one object: its value says which blocks are marked. -/
def bitmap : Objects Unit (ℕ → Bool) World where
  same _ := Same
  free _ _ := False
  obj _ m s := ∀ b, b < BLOCK_NUM → s.marked b = m b
  always _ _ := True
  same_refl _ _ _ _ _ := rfl
  same_trans h h' := h.trans h'
  free_same _ h := h
  obj_same h ho b hb := (h.marked hb).trans (ho b hb)
  always_same _ h := h

section Rules

variable {α : Type} {E : Fault → Prop} {H : Set Unit} {s : World} {id : UInt32} {buf : Block}
  {Q : α → Set Unit → World → Prop}

/-- Read a block of the bitmap that one holds. -/
theorem seg_read_block {k : Block → Prog Fault Unit World α} {b : ℕ} (hH : () ∈ H) (hb : 2 ≤ b)
    (hb' : b < 10) (h : ∀ s', Same s s' → Seg bitmap E (k (s.blocks b)) Q H s') :
    Seg bitmap E ((Storage.read_block (.ofNat b)).unlocked >>= k) Q H s := by
  have hlt : (UInt32.ofNat b).toNat = b := toNat_ofNat (by simp only [BLOCK_NUM]; omega)
  rw [Storage.read_block, if_pos (by rw [hlt]; simp only [BLOCK_NUM]; omega)]
  refine Seg.atom hH (fun _ _ _ => trivial) fun s₁ hs₁ c s₂ hc => ?_
  cases hc
  refine ⟨fun _ hj => absurd rfl hj, fun hf => hf.elim, trivial, ?_⟩
  show Seg bitmap E (k (s₁.blocks (UInt32.ofNat b).toNat)) Q H s₁
  rw [hlt, hs₁ b hb hb']
  exact h s₁ hs₁

/-- Write a block of the bitmap that one holds. -/
theorem seg_write_block {k : Unit → Prog Fault Unit World α} {b : ℕ} (hH : () ∈ H) (hb : b < 10)
    (h : ∀ s', Same (s.write b buf) s' → Seg bitmap E (k ()) Q H s') :
    Seg bitmap E ((Storage.write_block (.ofNat b) buf).unlocked >>= k) Q H s := by
  have hlt : (UInt32.ofNat b).toNat = b := toNat_ofNat (by simp only [BLOCK_NUM]; omega)
  rw [Storage.write_block, if_pos (by rw [hlt]; simp only [BLOCK_NUM]; omega)]
  refine Seg.atom hH (fun _ _ _ => trivial) fun s₁ hs₁ c s₂ hc => ?_
  cases hc
  refine ⟨fun _ hj => absurd rfl hj, fun hf => hf.elim, trivial, h _ fun c hc hc' => ?_⟩
  rw [hlt]
  by_cases hcb : c = b
  · rw [hcb, World.write_blocks_self, World.write_blocks_self]
  · rw [World.write_blocks_of_ne hcb, World.write_blocks_of_ne hcb]
    exact hs₁ c hc hc'

/-- The scan of a bitmap that nobody else writes stops at a free block; `s₀` is the disk at
its start. -/
theorem seg_allocLoop {k : UInt32 → Prog Fault Unit World α} {type : Region} {s₀ s : World}
    {buf : Block} {i l : ℕ} (hH : () ∈ H) (hs : Same s₀ s) (hl : l = 0 ∨ buf = s₀.blocks l)
    (hfree : ∃ b, i ≤ b ∧ b < type.stop ∧ s₀.free b)
    (h : ∀ r s', i ≤ r → r < type.stop → s₀.free r → Same (s₀.mark r) s' →
      Seg bitmap E (k (.ofNat r)) Q H s') :
    Seg bitmap E ((allocLoop type l buf i).unlocked >>= k) Q H s := by
  have hstop : type.stop ≤ BLOCK_NUM := by cases type <;> decide
  obtain ⟨b, hib, hb, hbfree⟩ := hfree
  have hi : i < BLOCK_NUM := by omega
  have hblock := World.BBLOCK_lt hi
  unfold allocLoop
  rw [if_pos (by omega : i < type.stop)]
  -- after the read the buffer is the bitmap block of `i`
  have hrest : ∀ s₁, Same s₀ s₁ → Seg bitmap E ((Prog.unlocked (do
      if notCheck (s₀.blocks (BBLOCK i)) (BBLOCK_INDEX i) then do
        Storage.write_block (.ofNat (BBLOCK i)) (setBit (s₀.blocks (BBLOCK i)) (BBLOCK_INDEX i))
        pure (.ofNat i)
      else allocLoop type (BBLOCK i) (s₀.blocks (BBLOCK i)) (i + 1))) >>= k) Q H s₁ := by
    intro s₁ hs₁
    split
    case isTrue hf =>
      rw [Prog.unlocked_bind, bind_assoc]
      refine seg_write_block hH hblock fun s₂ hs₂ => ?_
      refine h i s₂ le_rfl (by omega) hf (Same.trans (fun c hc hc' => ?_) hs₂)
      by_cases hcb : c = BBLOCK i
      · rw [hcb, World.mark, World.write_blocks_self, World.write_blocks_self]
      · rw [World.mark, World.write_blocks_of_ne hcb, World.write_blocks_of_ne hcb]
        exact hs₁ c hc hc'
    case isFalse hf =>
      have hne : b ≠ i := by
        rintro rfl
        exact hf hbfree
      exact seg_allocLoop hH hs₁ (.inr rfl) ⟨b, by omega, hb, hbfree⟩
        fun r s' hr => h r s' (by omega)
  rw [Prog.unlocked_bind, bind_assoc]
  split
  case isTrue =>
    rw [Prog.unlocked_bind, bind_assoc]
    refine seg_read_block hH (Nat.le_add_left 2 _) hblock fun s₁ hs₁ => ?_
    rw [hs.bblock hi]
    exact hrest s₁ (hs.trans hs₁)
  case isFalse heq =>
    have hl' : l = BBLOCK i := not_not.mp heq
    have hbuf : buf = s₀.blocks (BBLOCK i) := by
      rcases hl with rfl | hl
      · simp [BBLOCK] at hl'
      · rw [hl, hl']
    rw [hl', hbuf]
    exact hrest s hs
termination_by type.stop - i
decreasing_by omega

/-- `alloc_block`, if nobody else writes the bitmap and there is a block. -/
theorem seg_alloc_block {k : UInt32 → Prog Fault Unit World α} {type : Region} (hH : () ∈ H)
    (hfree : ∃ b, type.start ≤ b ∧ b < type.stop ∧ s.free b)
    (h : ∀ r s', type.start ≤ r → r < type.stop → s.free r → Same (s.mark r) s' →
      Seg bitmap E (k (.ofNat r)) Q H s') :
    Seg bitmap E ((Storage.alloc_block type).unlocked >>= k) Q H s :=
  seg_allocLoop hH (fun _ _ _ => rfl) (.inl rfl) hfree h

/-- `free_block`, if nobody else writes the bitmap. -/
theorem seg_free_block {k : Unit → Prog Fault Unit World α} (hH : () ∈ H)
    (h : ∀ s', (INODE_START ≤ id.toNat ∧ id.toNat < BLOCK_NUM → Same (s.unmark id.toNat) s') →
      (id.toNat < INODE_START ∨ BLOCK_NUM ≤ id.toNat → Same s s') → Seg bitmap E (k ()) Q H s') :
    Seg bitmap E ((Storage.free_block id).unlocked >>= k) Q H s := by
  unfold Storage.free_block
  split
  case isTrue hout => exact h s (fun hin => by omega) fun _ _ _ _ => rfl
  case isFalse hin =>
    have hblock := World.BBLOCK_lt (by omega : id.toNat < BLOCK_NUM)
    rw [Prog.unlocked_bind, bind_assoc]
    refine seg_read_block hH (Nat.le_add_left 2 _) hblock fun s₁ hs₁ => ?_
    refine seg_write_block hH hblock fun s₂ hs₂ => ?_
    refine h s₂ (fun _ => Same.trans (fun c hc hc' => ?_) hs₂) fun hout => absurd hout hin
    by_cases hcb : c = BBLOCK id.toNat
    · rw [hcb, World.unmark, World.write_blocks_self, World.write_blocks_self]
    · rw [World.unmark, World.write_blocks_of_ne hcb, World.write_blocks_of_ne hcb]
      exact hs₁ c hc hc'

end Rules

/-! ## Every call keeps to the bitmap -/

section Calls

variable {s : World} {g : Unit → Option (ℕ → Bool)} {call : Call}

/-- A call takes the bitmap. -/
theorem holds_acquire {k : Prog Fault Unit World Result} (hg : g () ≠ none)
    (h : ∀ s₁ g₁ m, g₁ () = some m → (∀ b, b < BLOCK_NUM → s₁.marked b = m b) → call.Cond s₁ →
      Holds bitmap (service true) (fun _ => ()) call k {()} s₁ g₁) :
    Holds bitmap (service true) (fun _ => ()) call (.acquire () k) ∅ s g := by
  intro s₁ g₁ hr
  obtain ⟨m₀, hm₀⟩ := Option.ne_none_iff_exists'.mp hg
  obtain ⟨m, hm, -⟩ := hr.grows () m₀ hm₀
  refine ⟨Set.notMem_empty (), m, hm, fun hobj hcond => ?_⟩
  rw [insert_empty_eq]
  exact h s₁ g₁ m hm hobj hcond

/-- A call gives the bitmap back, with the marks `m`. -/
theorem holds_release {r : Result} {m : ℕ → Bool} (hm : ∀ b, b < BLOCK_NUM → s.marked b = m b)
    (hcommit : ∀ g₁ : Unit → Option (ℕ → Bool), g₁ () = g () → call.commit r g₁ fun _ => some m) :
    Holds bitmap (service true) (fun _ => ()) call (.release () (.ret r)) {()} s g := by
  intro s₁ g₁ hr
  refine ⟨Set.mem_singleton (), fun _ => some m, hcommit g₁ (hr.value () rfl), ?_, ?_, ?_⟩
  · exact fun _ _ _ => ⟨m, rfl, rfl⟩
  · exact fun _ hi => absurd rfl hi
  · exact fun _ _ => ⟨m, rfl, fun b hb => ((hr.same () rfl).marked hb).trans (hm b hb)⟩

/-- A step outside of the bitmap. -/
theorem holds_step {β : Type} {f : World → Option (β × World)} (hg : g () ≠ none)
    (hf : ∀ s₁ b s₂, f s₁ = some (b, s₂) → Same s₁ s₂)
    (hmark : ∀ m, Call.mark m (call, none) = m)
    (hcommit : ∀ r g₁ g₂, call.commit r g₁ g₂ ↔
      ∃ m, g₁ () = some m ∧ g₂ () = some (Call.mark m (call, r))) :
    Holds bitmap (service true) (fun _ => ()) call (.atom f fun _ => .ret none) ∅ s g := by
  intro s₁ g₁ hr _
  refine ⟨fun _ => trivial, fun b s₂ hb => ?_⟩
  obtain ⟨m₀, hm₀⟩ := Option.ne_none_iff_exists'.mp hg
  obtain ⟨m, hm, -⟩ := hr.grows () m₀ hm₀
  refine ⟨∅, ⟨subset_rfl, fun _ h => h.elim, fun _ h => h.elim, fun _ _ => hf s₁ b s₂ hb⟩,
    fun _ => ?_⟩
  refine ⟨g₁, (hcommit none g₁ g₁).mpr ⟨m, hm, ?_⟩, .refl _ g₁, fun _ _ => rfl, fun _ h => h.elim⟩
  rw [hmark, hm]

/-- **Every call keeps to the bitmap.** -/
theorem holds_call {log : List (Call × Result)} (hmay : May call log) (hg : g () ≠ none) :
    Holds bitmap (service true) (fun _ => ()) call (call.prog true) ∅ s g := by
  cases call with
  | alloc_block type =>
    have hstop : type.stop ≤ BLOCK_NUM := by cases type <;> decide
    simp only [Call.prog, if_true, Prog.lock_bind]
    refine holds_acquire hg fun s₁ g₁ m hm hmarks hcond => Holds.bind ?_
    rw [← bind_pure (Prog.unlocked _)]
    refine seg_alloc_block (Set.mem_singleton ()) hcond ?_
    intro r s₂ hr hr' hfree hs₂ g₂ _ hg₂ _
    have hmr : m r = false := by
      rw [← hmarks r (by omega)]
      exact World.not_marked_of_free hfree
    have hto : (UInt32.ofNat r).toNat = r := toNat_ofNat (by omega)
    refine holds_release (m := Function.update m r true) (fun b hb => ?_) fun g₃ hg₃ => ?_
    · rw [hs₂.marked hb, World.marked_mark, hmarks b hb, Function.update_apply]
      by_cases hbr : b = r <;> simp [hbr]
    · refine ⟨m, r, ?_, rfl, hr, hr', hmr, ?_⟩
      · rw [hg₃, hg₂ () rfl, hm]
      · rw [Call.mark, hto]
  | free_block id =>
    simp only [Call.prog, if_true, Prog.lock_bind]
    refine holds_acquire hg fun s₁ g₁ m hm hmarks _ => Holds.bind ?_
    rw [← bind_pure (Prog.unlocked _)]
    refine seg_free_block (Set.mem_singleton ()) ?_
    intro s₂ hin hout g₂ _ hg₂ _
    refine holds_release (m := Call.mark m (.free_block id, none)) (fun b hb => ?_) fun g₃ hg₃ => ?_
    · by_cases hid : INODE_START ≤ id.toNat ∧ id.toNat < BLOCK_NUM
      · rw [(hin hid).marked hb, World.marked_unmark, hmarks b hb, Call.mark, if_pos hid.1,
          Function.update_apply]
        by_cases hbi : b = id.toNat <;> simp [hbi]
      · rw [(hout (by omega)).marked hb, hmarks b hb, Call.mark]
        split
        case isTrue hge =>
          have hbi : b ≠ id.toNat := by omega
          rw [Function.update_of_ne hbi]
        case isFalse => rfl
    · exact ⟨m, by rw [hg₃, hg₂ () rfl, hm], rfl⟩
  | read_block id =>
    have hid : id.toNat < BLOCK_NUM := hmay
    simp only [Call.prog, Storage.read_block, if_pos hid]
    refine holds_step hg (fun s₁ b s₂ hb => ?_) (fun _ => rfl) fun _ _ _ => Iff.rfl
    cases hb
    exact fun _ _ _ => rfl
  | write_block id buf =>
    obtain ⟨hid, hout⟩ : id.toNat < BLOCK_NUM ∧ (id.toNat < 2 ∨ 10 ≤ id.toNat) := hmay
    simp only [Call.prog, Storage.write_block, if_pos hid]
    refine holds_step hg (fun s₁ b s₂ hb => ?_) (fun _ => rfl) fun _ _ _ => Iff.rfl
    cases hb
    exact fun c hc hc' => World.write_blocks_of_ne (by omega)

end Calls

section Main

variable {θ : Type} [DecidableEq θ] {p : Pool Fault Unit World Call Result θ} {m₀ : ℕ → Bool}
  {log : List (Call × Result)} {g : Unit → Option (ℕ → Bool)} {apart : Bool}

/-- What the handlers can get to, from a disk with the marks `m₀`. -/
def Reached (m₀ : ℕ → Bool) (apart : Bool) : Pool Fault Unit World Call Result θ → Prop :=
  Reachable (Pool.Init fun s => ∀ b, b < BLOCK_NUM → s.marked b = m₀ b)
    (Pool.Step (service apart) May)

/-- The marks after the calls that have ended. -/
def marksAfter (m₀ : ℕ → Bool) (log : List (Call × Result)) : ℕ → Bool := log.foldl Call.mark m₀

/-- The call writes the bitmap. -/
def Call.updates : Call → Bool
  | alloc_block _ | free_block _ => true
  | _ => false

/-- No block is shared, and no update of the bitmap is undone. -/
structure Exclusive (m₀ : ℕ → Bool) (p : Pool Fault Unit World Call Result θ) : Prop where
  nonzero : ∀ type r, (.alloc_block type, some r) ∈ p.log → r ≠ 0
  /-- two calls return the same block only if it was given back in between -/
  distinct : ∀ l₁ type r l₂ type' l₃, p.log = l₁ ++ (.alloc_block type, some r) :: l₂ ++
    (.alloc_block type', some r) :: l₃ → ∃ a, (.free_block r, a) ∈ l₂
  /-- when no update is under way, the bitmap is what the calls have made it -/
  kept : (∀ t call k, p.thread t = some (call, k) → call.updates = false) → p.owner () = none →
    ∀ b, b < BLOCK_NUM → p.state.marked b = marksAfter m₀ p.log b

theorem marksAfter_snoc {x : Call × Result} :
    marksAfter m₀ (log ++ [x]) = Call.mark (marksAfter m₀ log) x := by
  simp [marksAfter]

/-- The value of the bitmap is what the history says. -/
theorem runs_marks (h : (service apart).Runs (fun _ => some m₀) log g) :
    g () = some (marksAfter m₀ log) := by
  induction h with
  | nil => rfl
  | @snoc log g g' call r _ hc ih =>
    rw [marksAfter_snoc]
    cases call with
    | alloc_block type =>
      obtain ⟨m, b, hm, -, -, -, -, hg'⟩ := hc
      rw [hg', Option.some.inj (ih.symm.trans hm)]
    | free_block id | read_block id | write_block id buf =>
      obtain ⟨m, hm, hg'⟩ := hc
      rw [hg', Option.some.inj (ih.symm.trans hm)]

/-- A block stays marked until it is given back. -/
theorem marksAfter_of_mem {m : ℕ → Bool} {r : UInt32} (h : m r.toNat = true)
    (hfree : ∀ a, (.free_block r, a) ∉ log) : marksAfter m log r.toNat = true := by
  induction log generalizing m with
  | nil => exact h
  | cons x log ih =>
    refine ih ?_ fun a ha => hfree a (List.mem_cons_of_mem _ ha)
    obtain ⟨call, a⟩ := x
    cases call with
    | alloc_block type =>
      cases a with
      | none => exact h
      | some r' =>
        rw [Call.mark, Function.update_apply]
        split
        case isTrue => rfl
        case isFalse => exact h
    | free_block id =>
      have hne : r.toNat ≠ id.toNat := by
        intro he
        obtain rfl := UInt32.toNat_inj.mp he
        exact hfree a (List.mem_cons_self ..)
      rw [Call.mark]
      split
      case isTrue => rwa [Function.update_of_ne hne]
      case isFalse => exact h
    | read_block id | write_block id buf => exact h

/-- **No block is shared, on runs that meet the condition.** If calls of `alloc_block` and
`free_block` do not overlap, and find a block, then in every reachable state all blocks that
were handed out are different as long as they are not given back, none is 0, and the bitmap
has the marks of all calls. -/
theorem blocks_exclusive (h : Reached m₀ true p) : Exclusive m₀ p := by
  have hmay : ∀ call log g s, (service true).Runs (fun _ => some m₀) log g → May call log →
      Holds bitmap (service true) (fun _ => ()) call (call.prog true) ∅ s g := by
    intro call log g s hruns hm
    refine holds_call hm ?_
    rw [runs_marks hruns]
    exact nofun
  have hinit : ∀ s : World, (∀ b, b < BLOCK_NUM → s.marked b = m₀ b) →
      (∀ i, bitmap.always i s) ∧ ∀ i v, (fun _ => some m₀ : Unit → Option (ℕ → Bool)) i = some v →
        ¬ bitmap.free i s ∧ bitmap.obj i v s := by
    intro s hs
    refine ⟨fun _ => trivial, fun i v hv => ⟨not_false, ?_⟩⟩
    cases hv
    exact hs
  obtain ⟨⟨g, hruns, hobj⟩, -, -⟩ := Pool.linearized hmay hinit h
  constructor
  case nonzero =>
    rintro type r hmem rfl
    obtain ⟨pre, post, hlog⟩ := List.append_of_mem hmem
    rw [hlog] at hruns
    obtain ⟨g₁, g₂, -, m, b, -, hr, hstart, hstop, -⟩ := hruns.split
    have hb : b < BLOCK_NUM := Nat.lt_of_lt_of_le hstop (by cases type <;> decide)
    have h0 : 0 < type.start := by cases type <;> decide
    have := congrArg UInt32.toNat (Option.some.inj hr)
    rw [toNat_ofNat hb, UInt32.toNat_zero] at this
    omega
  case distinct =>
    intro l₁ type r l₂ type' l₃ hlog
    by_contra hno
    rw [hlog] at hruns
    obtain ⟨g₁, g₂, hruns₁, m, b, hm, hr, -, hstop, hclear, -⟩ := hruns.split
    have hb : b < BLOCK_NUM := Nat.lt_of_lt_of_le hstop (by cases type' <;> decide)
    obtain rfl : r = .ofNat b := Option.some.inj hr
    -- it is still marked from the first call
    have hmarks : m =
        marksAfter (marksAfter m₀ (l₁ ++ [(.alloc_block type, some (.ofNat b))])) l₂ := by
      have := Option.some.inj (hm.symm.trans (runs_marks hruns₁))
      simpa [marksAfter] using this
    have hmarked : marksAfter (marksAfter m₀ (l₁ ++ [(.alloc_block type, some (.ofNat b))])) l₂
        (UInt32.ofNat b).toNat = true := by
      refine marksAfter_of_mem ?_ fun a ha => hno ⟨a, ha⟩
      rw [marksAfter_snoc, Call.mark, Function.update_self]
    rw [← hmarks, toNat_ofNat hb, hclear] at hmarked
    cases hmarked
  case kept =>
    intro _ hfree b hb
    exact hobj () _ (runs_marks hruns) hfree b hb

end Main

/-! ## Calls that overlap -/

/-- A disk of zeros. -/
def blank : World where
  blocks _ := .ofBytes []
  clock := fun _ => 0
  memory := fun _ => .ofBytes []

/-- Two handlers, and nothing done yet. -/
def idle : Pool Fault Unit World Call Result Bool where
  state := blank
  owner _ := none
  thread _ := none
  log := []

theorem idle_init : Pool.Init (fun s => ∀ b, b < BLOCK_NUM → s.marked b = blank.marked b) idle :=
  ⟨fun _ _ => rfl, fun _ => rfl, fun _ => rfl, rfl⟩

theorem may_of_updates (call : Call) (log : List (Call × Result)) (h : call.updates) :
    May call log := by
  cases call <;> first | exact trivial | cases h

/-- The calls of `log` are two that return the same block. -/
def twice (log : List (Call × Result)) : Bool :=
  match log with
  | [(.alloc_block _, some r), (.alloc_block _, some r')] => r = r'
  | _ => false

/-- Two handlers read the bitmap, then both mark the same block, and both return it. -/
theorem block_shared : ∃ p : Pool Fault Unit World Call Result Bool,
    Reached blank.marked false p ∧ ¬ Exclusive blank.marked p := by
  have hrun : (Pool.schedule (service false) (fun call _ => call.updates) (fun _ _ _ => false)
      [(true, some (.alloc_block .DATA)), (false, some (.alloc_block .DATA)), (true, none),
        (false, none), (true, none), (false, none)] idle).map
          (fun p => twice p.log) = some true := by
    decide +kernel
  obtain ⟨p, hp, hlog⟩ :=
    Pool.reachable_schedule may_of_updates (fun _ _ _ h => absurd h (by decide))
    (.start idle_init) hrun
  refine ⟨p, hp, fun hex => ?_⟩
  unfold twice at hlog
  split at hlog
  case h_1 type r type' r' hl =>
    obtain rfl := of_decide_eq_true hlog
    obtain ⟨a, ha⟩ := hex.distinct [] type r [] type' [] hl
    exact absurd ha List.not_mem_nil
  case h_2 => cases hlog

/-- One call after the other: the blocks are different, and the bitmap has both marks. -/
theorem blocks_exclusive_twice : ∃ p : Pool Fault Unit World Call Result Bool,
    Reached blank.marked true p ∧ p.log.map Prod.snd = [some 4108, some 4112] ∧
      (∀ type r, (.alloc_block type, some r) ∈ p.log → r ≠ 0) := by
  have hrun : (Pool.script (service true) (fun call _ => call.updates)
      (fun call _ s => call matches .alloc_block .DATA && s.free 4112) 10 true
      [.alloc_block .DATA, .alloc_block .DATA] idle).map (fun p => p.log.map Prod.snd) =
        some [some 4108, some 4112] := by decide +kernel
  have hcond : ∀ (call : Call) (i : Unit) (s : World),
      (call matches .alloc_block .DATA && s.free 4112) → (service true).cond call i s := by
    intro call _ s h
    obtain ⟨hc, hfree⟩ := Bool.and_eq_true_iff.mp h
    cases call with
    | alloc_block type =>
      cases type with
      | DATA => exact ⟨4112, by decide, by decide, hfree⟩
      | INODE => cases hc
    | _ => cases hc
  obtain ⟨p, hp, hlog⟩ := Pool.reachable_script may_of_updates hcond (.start idle_init) hrun
  exact ⟨p, hp, hlog, (blocks_exclusive hp).nonzero⟩

end Yfs.Storage.Concurrent
