import Yfs.Rpc.Handle

/-!
# Reference counts of the connection cache

`Shape` says how map, objects and handles belong together, `Told` how the history
belongs to the state; every section keeps both (`Shape.move`, `Told.move`), so every
reachable state has them (`inv_reachable`), and what the header of the source promises
about `safebind` is read off (`refcounting`).
-/

namespace Yfs.Rpc

namespace Proc

/-! ## The invariant -/

/-- How map, objects and handles belong together. -/
structure Shape (s : Proc) : Prop where
  /-- the map lists exactly the allocated objects, under their address -/
  entry : ∀ {m h}, s.hmap m = some h ↔ ∃ i, s.hinfo h = some i ∧ i.m = m
  counted : ∀ {h i}, s.hinfo h = some i → i.refcnt = (s.holders h).card
  there : ∀ {k h}, k ∈ s.live → s.held k = some h → ∃ i, s.hinfo h = some i
  made : ∀ {h i}, s.hinfo h = some i → h < s.hinfos
  madeRpcc : ∀ {cl m}, s.rpcc cl = some m → cl < s.rpccs
  conn : ∀ {h i cl}, s.hinfo h = some i → i.cl = some cl →
    i.del = false ∧ s.rpcc cl = some i.m
  owned : ∀ {cl m}, s.rpcc cl = some m → ∃ h i, s.hinfo h = some i ∧ i.cl = some cl
  /-- a failed entry is there only as long as somebody holds it -/
  kept : ∀ {h i}, s.hinfo h = some i → i.del = true → 0 < i.refcnt

/-- How the history belongs to the state. -/
structure Told (s : Proc) : Prop where
  bindOk : ∀ {h cl}, .bind h cl true ∈ s.log → ∃ i, s.hinfo h = some i ∧ i.cl = some cl
  bindFail : ∀ {h cl}, .bind h cl false ∈ s.log →
    h < s.hinfos ∧ ∀ i, s.hinfo h = some i → i.del = true
  cl : ∀ {h i cl}, s.hinfo h = some i → i.cl = some cl → .bind h cl true ∈ s.log
  del : ∀ {h i}, s.hinfo h = some i → i.del = true → ∃ cl, .bind h cl false ∈ s.log
  retSome : ∀ {h cl}, .safebind h (some cl) ∈ s.log → .bind h cl true ∈ s.log
  retNone : ∀ {h}, .safebind h none ∈ s.log → ∃ cl, .bind h cl false ∈ s.log
  freed : ∀ {h}, .deleteHinfo h ∈ s.log → h < s.hinfos ∧ s.hinfo h = none
  freedRpcc : ∀ {cl}, .deleteRpcc cl ∈ s.log → cl < s.rpccs ∧ s.rpcc cl = none
  once : ∀ h, s.log.count (.deleteHinfo h) ≤ 1
  onceRpcc : ∀ cl, s.log.count (.deleteRpcc cl) ≤ 1

theorem deref_some {s : Proc} {h : ℕ} {i : Hinfo} (hi : s.hinfo h = some i) :
    s.deref h = .ok i := by simp [deref, hi]

/-- The two sides of an entry: a listed object is allocated. -/
theorem Shape.listed {s : Proc} (hs : s.Shape) {m : String} {h : ℕ} (hm : s.hmap m = some h) :
    ∃ i, s.hinfo h = some i ∧ i.m = m :=
  hs.entry.mp hm

theorem Shape.unmade {s : Proc} (hs : s.Shape) : s.hinfo s.hinfos = none := by
  cases h : s.hinfo s.hinfos with
  | none => rfl
  | some i => exact absurd (hs.made h) (lt_irrefl _)

theorem Shape.unmadeRpcc {s : Proc} (hs : s.Shape) : s.rpcc s.rpccs = none := by
  cases h : s.rpcc s.rpccs with
  | none => rfl
  | some m => exact absurd (hs.madeRpcc h) (lt_irrefl _)

/-- The last handle of a failed entry takes the entry along. -/
theorem Shape.doneHandle_last {s : Proc} (hs : s.Shape) {h : ℕ} {i : Hinfo}
    (hi : s.hinfo h = some i) (h1 : i.refcnt = 1) (hd : i.del = true) :
    s.doneHandle h = .ok ({ s with
      hmap := Function.update s.hmap i.m none
      hinfo := Function.update s.hinfo h none }.note (.deleteHinfo h)) := by
  have hmap : s.hmap i.m = some h := hs.entry.mpr ⟨i, hi, rfl⟩
  have hcl : i.cl = none := by
    cases hc : i.cl with
    | none => rfl
    | some cl => simp [(hs.conn hi hc).1] at hd
  simp [doneHandle, deref, hi, h1, hd, deleteHandleWo, setHinfo, hmap, hcl, deleteHinfo,
    bind, Except.bind, pure, Except.pure]

theorem doneHandle_other {s : Proc} {h : ℕ} {i : Hinfo} (hi : s.hinfo h = some i)
    (hn : ¬ (i.refcnt = 1 ∧ i.del = true)) :
    s.doneHandle h = .ok (s.setHinfo h { i with refcnt := i.refcnt - 1 }) := by
  have : ¬ (i.refcnt - 1 = 0 ∧ i.del = true) := fun h => hn ⟨by omega, h.2⟩
  simp only [doneHandle, deref_some hi, bind, Except.bind]
  rw [if_neg this]
  rfl

theorem getHandle_share {s : Proc} {m : String} {h : ℕ} {i : Hinfo} (hm : s.hmap m = some h)
    (hi : s.hinfo h = some i) (hd : i.del = false) :
    s.getHandle m = .ok (s.setHinfo h { i with refcnt := i.refcnt + 1 }, some h) := by
  simp only [getHandle, hm, deref_some hi, bind, Except.bind]
  rw [if_pos (by rw [hd]; rfl)]
  rfl

theorem getHandle_refuse {s : Proc} {m : String} {h : ℕ} {i : Hinfo} (hm : s.hmap m = some h)
    (hi : s.hinfo h = some i) (hd : i.del = true) : s.getHandle m = .ok (s, none) := by
  simp only [getHandle, hm, deref_some hi, bind, Except.bind]
  rw [if_neg (by simp [hd])]
  rfl

/-- A bind that fails leaves the entry marked, and no `rpcc`. -/
theorem Shape.safebind_failed {s : Proc} (hs : s.Shape) {h : ℕ} {i : Hinfo} {ret : ℤ}
    (hi : s.hinfo h = some i) (hd : i.del = false) (hc : i.cl = none) (hr : ret < 0) :
    s.safebind (some h) ret = .ok (((({ s with rpccs := s.rpccs + 1 }.note
      (.bind h s.rpccs false)).note (.deleteRpcc s.rpccs)).setHinfo h
      { i with del := true }).note (.safebind h none), none) := by
  have hback : Function.update
      (Function.update s.rpcc s.rpccs (some i.m)) s.rpccs none = s.rpcc := by
    rw [Function.update_idem, ← hs.unmadeRpcc, Function.update_eq_self]
  have hret : decide (0 ≤ ret) = false := decide_eq_false (not_le.mpr hr)
  simp [safebind, deref_some hi, hd, hc, hr, hret, deleteRpcc, newRpcc, note, hback,
    bind, Except.bind, pure, Except.pure]

theorem safebind_bound {s : Proc} {h : ℕ} {i : Hinfo} {ret : ℤ} (hi : s.hinfo h = some i)
    (hd : i.del = false) (hc : i.cl = none) (hr : 0 ≤ ret) :
    s.safebind (some h) ret = .ok ((((s.newRpcc i.m).note (.bind h s.rpccs true)).setHinfo h
      { i with cl := some s.rpccs }).note (.safebind h (some s.rpccs)), some s.rpccs) := by
  have hd' : ¬ i.del = true := by simp [hd]
  simp only [safebind, deref_some hi, bind, Except.bind, if_neg hd', hc, if_neg (not_lt.mpr hr),
    decide_eq_true hr]
  rfl

/-- A section never meets a dangling pointer, and does one of the moves. -/
theorem Shape.exec_move {s : Proc} (hs : s.Shape) {e : Event} {r : Except Fault Proc}
    (h : s.exec e = some r) : ∃ s', r = .ok s' ∧ s.Move e s' := by
  cases e with
  | handle k m =>
    by_cases hk : k ∈ s.live
    · simp [exec, hk] at h
    simp only [exec, if_neg hk, Option.some.injEq] at h
    cases hm : s.hmap m with
    | none =>
      simp only [getHandle, hm] at h
      exact ⟨_, h.symm, .create hk hm⟩
    | some p =>
      obtain ⟨i, hi, -⟩ := hs.listed hm
      cases hd : i.del with
      | false =>
        rw [getHandle_share hm hi hd] at h
        exact ⟨_, h.symm, .share hk hm hi hd⟩
      | true =>
        rw [getHandle_refuse hm hi hd] at h
        exact ⟨_, h.symm, .refuse hk hm hi hd⟩
  | safebind k ret =>
    by_cases hk : k ∈ s.live
    swap
    · simp [exec, hk] at h
    simp only [exec, if_pos hk, Option.some.injEq] at h
    cases hh : s.held k with
    | none =>
      rw [hh] at h
      exact ⟨_, h.symm, .idle hk hh⟩
    | some p =>
      obtain ⟨i, hi⟩ := hs.there hk hh
      rw [hh] at h
      cases hd : i.del with
      | true =>
        simp only [safebind, deref_some hi, bind, Except.bind, if_pos hd] at h
        exact ⟨_, h.symm, .dead hk hh hi hd⟩
      | false =>
        cases hc : i.cl with
        | some cl =>
          simp only [safebind, deref_some hi, bind, Except.bind, hd, hc] at h
          exact ⟨_, h.symm, .again hk hh hi hd hc⟩
        | none =>
          by_cases hr : ret < 0
          · rw [hs.safebind_failed hi hd hc hr] at h
            exact ⟨_, h.symm, .failed hk hh hi hd hc hr⟩
          · rw [safebind_bound hi hd hc (not_lt.mp hr)] at h
            exact ⟨_, h.symm, .bound hk hh hi hd hc (not_lt.mp hr)⟩
  | done k =>
    by_cases hk : k ∈ s.live
    swap
    · simp [exec, hk] at h
    simp only [exec, if_pos hk, Option.some.injEq] at h
    cases hh : s.held k with
    | none =>
      rw [hh] at h
      exact ⟨_, h.symm, .forget hk hh⟩
    | some p =>
      obtain ⟨i, hi⟩ := hs.there hk hh
      simp only [hh, destroy] at h
      by_cases hl : i.refcnt = 1 ∧ i.del = true
      · rw [hs.doneHandle_last hi hl.1 hl.2] at h
        exact ⟨_, h.symm, .retire hk hh hi hl.1 hl.2⟩
      · rw [doneHandle_other hi hl] at h
        exact ⟨_, h.symm, .release hk hh hi hl⟩

/-! ## The count -/

@[simp] theorem holders_setHinfo (s : Proc) (h h' : ℕ) (i : Hinfo) :
    (s.setHinfo h i).holders h' = s.holders h' := rfl

@[simp] theorem holders_note (s : Proc) (a : Act) (h : ℕ) :
    (s.note a).holders h = s.holders h := rfl

@[simp] theorem holders_newHinfo (s : Proc) (m : String) (h : ℕ) :
    (s.newHinfo m).holders h = s.holders h := rfl

@[simp] theorem holders_newRpcc (s : Proc) (m : String) (h : ℕ) :
    (s.newRpcc m).holders h = s.holders h := rfl

theorem mem_holders_hold {s : Proc} {k j : ℕ} {h : Option ℕ} {h' : ℕ} (hk : k ∉ s.live) :
    j ∈ (s.hold k h).holders h' ↔ j = k ∧ h = some h' ∨ j ∈ s.holders h' := by
  simp only [mem_holders, hold, Finset.mem_insert]
  by_cases hj : j = k
  · subst hj
    simp [hk]
  · simp [hj]

theorem holders_hold_self {s : Proc} {k : ℕ} (hk : k ∉ s.live) (h : ℕ) :
    ((s.hold k (some h)).holders h).card = (s.holders h).card + 1 := by
  have : (s.hold k (some h)).holders h = insert k (s.holders h) := by
    ext j
    simp [mem_holders_hold hk]
  rw [this, Finset.card_insert_of_notMem fun hm => hk (mem_holders.mp hm).1]

theorem holders_hold_other {s : Proc} {k : ℕ} (hk : k ∉ s.live) {h : Option ℕ} {h' : ℕ}
    (hne : h ≠ some h') : (s.hold k h).holders h' = s.holders h' := by
  ext j
  simp [mem_holders_hold hk, hne]

theorem mem_holders_drop {s : Proc} {k j h : ℕ} :
    j ∈ (s.drop k).holders h ↔ j ≠ k ∧ j ∈ s.holders h := by
  simp only [mem_holders, drop, Finset.mem_erase, and_assoc]

theorem holders_drop_self {s : Proc} {k h : ℕ} (hk : k ∈ s.live) (hh : s.held k = some h) :
    ((s.drop k).holders h).card + 1 = (s.holders h).card := by
  have : (s.drop k).holders h = (s.holders h).erase k := by
    ext j
    rw [mem_holders_drop, Finset.mem_erase]
  rw [this, Finset.card_erase_add_one (mem_holders.mpr ⟨hk, hh⟩)]

theorem holders_drop_other {s : Proc} {k h : ℕ} (hh : s.held k ≠ some h) :
    (s.drop k).holders h = s.holders h := by
  ext j
  rw [mem_holders_drop]
  refine ⟨fun hj => hj.2, fun hj => ⟨?_, hj⟩⟩
  rintro rfl
  exact hh (mem_holders.mp hj).2

/-! ## Each move keeps the shape -/

theorem setHinfo_hinfo (s : Proc) (h h' : ℕ) (i : Hinfo) :
    (s.setHinfo h i).hinfo h' = if h' = h then some i else s.hinfo h' :=
  Function.update_apply ..

/-- An object after an entry was overwritten: the new entry, or another one as before. -/
theorem of_setHinfo {s : Proc} {h h' : ℕ} {i i' : Hinfo}
    (hi' : (s.setHinfo h i).hinfo h' = some i') :
    h' = h ∧ i' = i ∨ h' ≠ h ∧ s.hinfo h' = some i' := by
  rw [setHinfo_hinfo] at hi'
  split_ifs at hi' with hh
  · exact .inl ⟨hh, (Option.some.inj hi').symm⟩
  · exact .inr ⟨hh, hi'⟩

/-- An object after one was deleted is another one. -/
theorem of_deleted {s : Proc} {h h' : ℕ} {i' : Hinfo}
    (hi' : Function.update s.hinfo h none h' = some i') : h' ≠ h ∧ s.hinfo h' = some i' := by
  rw [Function.update_apply] at hi'
  split_ifs at hi' with hh
  exact ⟨hh, hi'⟩

theorem Shape.note {s : Proc} (hs : s.Shape) (a : Act) : (s.note a).Shape :=
  ⟨hs.entry, hs.counted, hs.there, hs.made, hs.madeRpcc, hs.conn, hs.owned, hs.kept⟩

/-- Handles come and go without an `hinfo`. -/
theorem Shape.relive {s : Proc} (hs : s.Shape) {live : Finset ℕ} {held : ℕ → Option ℕ}
    (hh : ∀ h, ({ s with live := live, held := held } : Proc).holders h = s.holders h) :
    ({ s with live := live, held := held } : Proc).Shape where
  entry := hs.entry
  counted hi := by rw [hh]; exact hs.counted hi
  there {k h} hk hkh := by
    have hm : k ∈ s.holders h := hh h ▸ mem_holders.mpr ⟨hk, hkh⟩
    exact hs.there (mem_holders.mp hm).1 (mem_holders.mp hm).2
  made := hs.made
  madeRpcc := hs.madeRpcc
  conn := hs.conn
  owned := hs.owned
  kept := hs.kept

/-- An entry is overwritten: its address stays, and the rest of the invariant is
asked for at this entry only. -/
theorem Shape.setHinfo {s : Proc} (hs : s.Shape) {h : ℕ} {i j : Hinfo} (hi : s.hinfo h = some i)
    (hm : j.m = i.m) (hcl : j.cl = i.cl) (hcd : i.cl ≠ none → j.del = false)
    (hk : j.del = true → 0 < j.refcnt) {live : Finset ℕ} {held : ℕ → Option ℕ}
    (hc : j.refcnt = (({ s with live := live, held := held } : Proc).holders h).card)
    (ho : ∀ h', h' ≠ h →
      ({ s with live := live, held := held } : Proc).holders h' = s.holders h') :
    ({ s.setHinfo h j with live := live, held := held } : Proc).Shape where
  entry {m h'} := by
    show s.hmap m = some h' ↔ ∃ i', (s.setHinfo h j).hinfo h' = some i' ∧ i'.m = m
    rw [hs.entry, setHinfo_hinfo]
    split_ifs with hh
    · subst hh
      simp [hi, hm]
    · rfl
  counted {h' i'} hi' := by
    show i'.refcnt = (({ s with live := live, held := held } : Proc).holders h').card
    obtain ⟨rfl, rfl⟩ | ⟨hh, hi'⟩ := of_setHinfo (s := s) hi'
    · exact hc
    · rw [ho h' hh]
      exact hs.counted hi'
  there {k h'} hl hkh := by
    show ∃ i', (s.setHinfo h j).hinfo h' = some i'
    rw [setHinfo_hinfo]
    split_ifs with hh
    · exact ⟨j, rfl⟩
    · have hm : k ∈ s.holders h' := ho h' hh ▸ mem_holders.mpr ⟨hl, hkh⟩
      exact hs.there (mem_holders.mp hm).1 (mem_holders.mp hm).2
  made {h' i'} hi' := by
    obtain ⟨rfl, -⟩ | ⟨-, hi'⟩ := of_setHinfo (s := s) hi'
    · exact hs.made hi
    · exact hs.made hi'
  madeRpcc := hs.madeRpcc
  conn {h' i' cl} hi' hcl' := by
    obtain ⟨-, rfl⟩ | ⟨-, hi'⟩ := of_setHinfo (s := s) hi'
    · rw [hcl] at hcl'
      exact ⟨hcd (by simp [hcl']), hm ▸ (hs.conn hi hcl').2⟩
    · exact hs.conn hi' hcl'
  owned {cl m} ho' := by
    obtain ⟨h', i', hi', hcl'⟩ := hs.owned ho'
    by_cases hh : h' = h
    · subst hh
      cases hi.symm.trans hi'
      exact ⟨h', j, by simp [Proc.setHinfo], hcl.trans hcl'⟩
    · exact ⟨h', i', by simpa [Proc.setHinfo, hh] using hi', hcl'⟩
  kept {h' i'} hi' hd := by
    obtain ⟨-, rfl⟩ | ⟨-, hi'⟩ := of_setHinfo (s := s) hi'
    · exact hk hd
    · exact hs.kept hi' hd

/-- Nobody holds an object that is not allocated. -/
theorem Shape.holders_none {s : Proc} (hs : s.Shape) {h : ℕ} (hh : s.hinfo h = none) :
    s.holders h = ∅ := by
  refine Finset.eq_empty_of_forall_notMem fun k hk => ?_
  obtain ⟨i, hi⟩ := hs.there (mem_holders.mp hk).1 (mem_holders.mp hk).2
  simp [hh] at hi

theorem newHinfo_hinfo (s : Proc) (m : String) (h : ℕ) :
    (s.newHinfo m).hinfo h =
      if h = s.hinfos then some { cl := none, del := false, refcnt := 1, m := m }
      else s.hinfo h :=
  Function.update_apply ..

/-- An object after `new hinfo`: the new one, or one as before. -/
theorem of_newHinfo {s : Proc} {m : String} {h : ℕ} {i : Hinfo}
    (hi : (s.newHinfo m).hinfo h = some i) :
    h = s.hinfos ∧ i = { cl := none, del := false, refcnt := 1, m := m } ∨ s.hinfo h = some i := by
  rw [newHinfo_hinfo] at hi
  split_ifs at hi with hh
  · exact .inl ⟨hh, (Option.some.inj hi).symm⟩
  · exact .inr hi

theorem Shape.create {s : Proc} (hs : s.Shape) {k : ℕ} {m : String} (hk : k ∉ s.live)
    (hm : s.hmap m = none) : ((s.newHinfo m).hold k (some s.hinfos)).Shape where
  entry {m' h} := by
    show Function.update s.hmap m (some s.hinfos) m' = some h ↔
      ∃ i, (s.newHinfo m).hinfo h = some i ∧ i.m = m'
    rw [newHinfo_hinfo, Function.update_apply]
    split_ifs with h1 h2 h2
    · simp [h1, h2]
    · -- a second entry for `m` would have been found
      subst h1
      rw [← hs.entry, hm]
      simp [Ne.symm h2]
    · subst h2
      simp only [hs.entry, hs.unmade]
      simp [Ne.symm h1]
    · exact hs.entry
  counted {h i} hi := by
    obtain ⟨rfl, rfl⟩ | hi := of_newHinfo (s := s) hi
    · rw [holders_hold_self (s := s.newHinfo m) hk, holders_newHinfo, hs.holders_none hs.unmade]
      rfl
    · have hh : s.hinfos ≠ h := (hs.made hi).ne'
      rw [holders_hold_other (s := s.newHinfo m) hk (by simpa using hh)]
      exact hs.counted hi
  there {j h} hl hh := by
    show ∃ i, (s.newHinfo m).hinfo h = some i
    rw [newHinfo_hinfo]
    split_ifs with hn
    · exact ⟨_, rfl⟩
    · obtain ⟨-, he⟩ | hj := (mem_holders_hold (s := s.newHinfo m) hk).mp (mem_holders.mpr ⟨hl, hh⟩)
      · exact absurd (Option.some.inj he).symm hn
      · exact hs.there (mem_holders.mp hj).1 (mem_holders.mp hj).2
  made {h i} hi := by
    show h < s.hinfos + 1
    obtain ⟨rfl, -⟩ | hi := of_newHinfo (s := s) hi
    · omega
    · exact Nat.lt_succ_of_lt (hs.made hi)
  madeRpcc := hs.madeRpcc
  conn {h i cl} hi hcl := by
    obtain ⟨-, rfl⟩ | hi := of_newHinfo (s := s) hi
    · cases hcl
    · exact hs.conn hi hcl
  owned {cl m'} ho := by
    obtain ⟨h, i, hi, hcl⟩ := hs.owned ho
    have hh : h ≠ s.hinfos := (hs.made hi).ne
    exact ⟨h, i, by rw [← hi]; exact Function.update_of_ne hh .., hcl⟩
  kept {h i} hi hd := by
    obtain ⟨-, rfl⟩ | hi := of_newHinfo (s := s) hi
    · cases hd
    · exact hs.kept hi hd

/-- A failed bind uses up an `rpcc` that is gone again. -/
theorem Shape.skipRpcc {s : Proc} (hs : s.Shape) : ({ s with rpccs := s.rpccs + 1 } : Proc).Shape :=
  ⟨hs.entry, hs.counted, hs.there, hs.made, fun h => Nat.lt_succ_of_lt (hs.madeRpcc h), hs.conn,
    hs.owned, hs.kept⟩

theorem Shape.bound {s : Proc} (hs : s.Shape) {h : ℕ} {i : Hinfo} (hi : s.hinfo h = some i)
    (hd : i.del = false) (hc : i.cl = none) :
    ((s.newRpcc i.m).setHinfo h { i with cl := some s.rpccs }).Shape where
  entry {m h'} := by
    show s.hmap m = some h' ↔ ∃ i', (s.setHinfo h _).hinfo h' = some i' ∧ i'.m = m
    rw [hs.entry, setHinfo_hinfo]
    split_ifs with hh
    · subst hh
      simp [hi]
    · rfl
  counted {h' i'} hi' := by
    obtain ⟨rfl, rfl⟩ | ⟨-, hi'⟩ := of_setHinfo hi'
    · exact (hs.counted hi : i.refcnt = (s.holders h').card)
    · exact hs.counted hi'
  there {k h'} hl hh := by
    rw [setHinfo_hinfo]
    split_ifs with hn
    · exact ⟨_, rfl⟩
    · exact hs.there hl hh
  made {h' i'} hi' := by
    obtain ⟨rfl, -⟩ | ⟨-, hi'⟩ := of_setHinfo hi'
    · exact hs.made hi
    · exact hs.made hi'
  madeRpcc {cl m} hr := by
    have hr : Function.update s.rpcc s.rpccs (some i.m) cl = some m := hr
    show cl < s.rpccs + 1
    rw [Function.update_apply] at hr
    split_ifs at hr with hn
    · omega
    · exact Nat.lt_succ_of_lt (hs.madeRpcc hr)
  conn {h' i' cl} hi' hcl := by
    show _ ∧ Function.update s.rpcc s.rpccs (some i.m) cl = _
    obtain ⟨-, rfl⟩ | ⟨-, hi'⟩ := of_setHinfo hi'
    · cases hcl
      exact ⟨hd, Function.update_self ..⟩
    · have := hs.conn hi' hcl
      rw [Function.update_of_ne (hs.madeRpcc this.2).ne]
      exact this
  owned {cl m} hr := by
    have hr : Function.update s.rpcc s.rpccs (some i.m) cl = some m := hr
    rw [Function.update_apply] at hr
    split_ifs at hr with hn
    · exact ⟨h, _, by rw [setHinfo_hinfo, if_pos rfl], by rw [hn]⟩
    · obtain ⟨h', i', hi', hcl⟩ := hs.owned hr
      have hh : h' ≠ h := by
        rintro rfl
        cases hi.symm.trans hi'
        simp [hc] at hcl
      exact ⟨h', i', by rw [setHinfo_hinfo, if_neg hh]; exact hi', hcl⟩
  kept {h' i'} hi' hd' := by
    obtain ⟨-, rfl⟩ | ⟨-, hi'⟩ := of_setHinfo hi'
    · simp [hd] at hd'
    · exact hs.kept hi' hd'

theorem Shape.retire {s : Proc} (hs : s.Shape) {k h : ℕ} {i : Hinfo} (hk : k ∈ s.live)
    (hh : s.held k = some h) (hi : s.hinfo h = some i) (h1 : i.refcnt = 1) (hd : i.del = true) :
    ({ s with
      hmap := Function.update s.hmap i.m none
      hinfo := Function.update s.hinfo h none
      live := s.live.erase k } : Proc).Shape where
  entry {m h'} := by
    show Function.update s.hmap i.m none m = some h' ↔
      ∃ i', Function.update s.hinfo h none h' = some i' ∧ i'.m = m
    rw [Function.update_apply, Function.update_apply]
    split_ifs with hm hn hn
    · simp
    · -- another entry for the same address would be the same object
      subst hm
      simp only [false_iff]
      rintro ⟨i', hi', he⟩
      have h₁ := hs.entry.mpr ⟨i, hi, rfl⟩
      have h₂ := hs.entry.mpr ⟨i', hi', he⟩
      exact hn (Option.some.inj (h₂.symm.trans h₁))
    · subst hn
      rw [hs.entry]
      simp [hi, Ne.symm hm]
    · exact hs.entry
  counted {h' i'} hi' := by
    obtain ⟨hn, hi'⟩ := of_deleted (s := s) hi'
    show i'.refcnt = ((s.drop k).holders h').card
    rw [holders_drop_other (by simpa [hh] using Ne.symm hn)]
    exact hs.counted hi'
  there {j h'} hl hj := by
    show ∃ i', Function.update s.hinfo h none h' = some i'
    rw [Function.update_apply]
    have hj : j ∈ (s.drop k).holders h' := mem_holders.mpr ⟨hl, hj⟩
    split_ifs with hn
    · -- the count says that nobody is left
      have hc := hs.counted hi
      have := holders_drop_self hk hh
      have h0 : ((s.drop k).holders h).card = 0 := by omega
      rw [hn, Finset.card_eq_zero.mp h0] at hj
      simp at hj
    · have hj := (mem_holders_drop.mp hj).2
      exact hs.there (mem_holders.mp hj).1 (mem_holders.mp hj).2
  made {h' i'} hi' := by
    obtain ⟨-, hi'⟩ := of_deleted (s := s) hi'
    exact hs.made hi'
  madeRpcc := hs.madeRpcc
  conn {h' i' cl} hi' hcl := by
    obtain ⟨-, hi'⟩ := of_deleted (s := s) hi'
    exact hs.conn hi' hcl
  owned {cl m} hr := by
    obtain ⟨h', i', hi', hcl⟩ := hs.owned hr
    have hn : h' ≠ h := by
      rintro rfl
      cases hi.symm.trans hi'
      simp [(hs.conn hi hcl).1] at hd
    exact ⟨h', i', by rw [← hi']; exact Function.update_of_ne hn .., hcl⟩
  kept {h' i'} hi' hd' := by
    obtain ⟨-, hi'⟩ := of_deleted (s := s) hi'
    exact hs.kept hi' hd'

/-- **One section keeps map, objects and handles together.** -/
theorem Shape.move {s s' : Proc} {e : Event} (hs : s.Shape) (h : s.Move e s') : s'.Shape := by
  cases h with
  | create hk hm => exact hs.create hk hm
  | @share k m h i hk hm hi hd =>
    refine hs.setHinfo (j := { i with refcnt := i.refcnt + 1 }) hi rfl rfl (fun _ => hd)
      (fun hd' => ?_) ?_
      fun h' hn => holders_hold_other (h := some h) hk (by simpa using Ne.symm hn)
    · simp [hd] at hd'
    · show i.refcnt + 1 = ((s.hold k (some h)).holders h).card
      rw [hs.counted hi, holders_hold_self hk]
      push_cast
      rfl
  | refuse hk hm hi hd => exact hs.relive fun h => holders_hold_other hk (by simp)
  | idle => exact hs
  | dead => exact hs.note _
  | again => exact hs.note _
  | bound hk hh hi hd hc hr => exact ((hs.bound hi hd hc).note _).note _
  | @failed k ret h i hk hh hi hd hc hr =>
    have hpos : 0 < (s.holders h).card := Finset.card_pos.mpr ⟨k, mem_holders.mpr ⟨hk, hh⟩⟩
    have hcount := hs.counted hi
    have hlast : 0 < i.refcnt := by omega
    exact Shape.note (Shape.setHinfo (j := { i with del := true }) ((hs.skipRpcc.note _).note _)
      hi rfl rfl (fun hc' => absurd hc hc') (fun _ => hlast) hcount fun _ _ => rfl) _
  | @forget k hk hh => exact hs.relive fun h => holders_drop_other (by simp [hh])
  | @release k h i hk hh hi hl =>
    have hc := hs.counted hi
    have hdrop := holders_drop_self hk hh
    refine hs.setHinfo (j := { i with refcnt := i.refcnt - 1 }) hi rfl rfl (fun hc' => ?_)
      (fun hd => ?_) ?_
      fun h' hn => holders_drop_other (k := k) (by simpa [hh] using Ne.symm hn)
    · obtain ⟨cl, hcl⟩ := Option.ne_none_iff_exists'.mp hc'
      exact (hs.conn hi hcl).1
    · have hne : i.refcnt ≠ 1 := fun h1 => hl ⟨h1, hd⟩
      have hpos := hs.kept hi hd
      show 0 < i.refcnt - 1
      omega
    · show i.refcnt - 1 = ((s.drop k).holders h).card
      omega
  | retire hk hh hi h1 hd => exact (hs.retire hk hh hi h1 hd).note _

/-! ## Each move keeps the history in step -/

/-- A move that adds nothing to the history and changes at most a count. -/
theorem Told.recount {s s' : Proc} (ht : s.Told) (hlog : s'.log = s.log)
    (hn : s'.hinfos = s.hinfos) (hr : s'.rpccs = s.rpccs) (hc : s'.rpcc = s.rpcc)
    (hf : ∀ h i, s.hinfo h = some i →
      ∃ i', s'.hinfo h = some i' ∧ i'.cl = i.cl ∧ i'.del = i.del)
    (hb : ∀ h i', s'.hinfo h = some i' →
      ∃ i, s.hinfo h = some i ∧ i.cl = i'.cl ∧ i.del = i'.del) : s'.Told where
  bindOk h := by
    obtain ⟨i, hi, hcl⟩ := ht.bindOk (hlog ▸ h)
    obtain ⟨i', hi', hcl', -⟩ := hf _ _ hi
    exact ⟨i', hi', hcl'.trans hcl⟩
  bindFail h := by
    obtain ⟨hlt, hd⟩ := ht.bindFail (hlog ▸ h)
    refine ⟨hn ▸ hlt, fun i' hi' => ?_⟩
    obtain ⟨i, hi, -, hd'⟩ := hb _ _ hi'
    exact hd' ▸ hd i hi
  cl hi' hcl := by
    obtain ⟨i, hi, hcl', -⟩ := hb _ _ hi'
    exact hlog ▸ ht.cl hi (hcl'.trans hcl)
  del hi' hd := by
    obtain ⟨i, hi, -, hd'⟩ := hb _ _ hi'
    exact hlog ▸ ht.del hi (hd'.trans hd)
  retSome h := hlog ▸ ht.retSome (hlog ▸ h)
  retNone h := hlog ▸ ht.retNone (hlog ▸ h)
  freed {h} hm := by
    obtain ⟨hlt, hno⟩ := ht.freed (hlog ▸ hm)
    refine ⟨hn ▸ hlt, ?_⟩
    cases hi' : s'.hinfo h with
    | none => rfl
    | some i' =>
      obtain ⟨i, hi, -⟩ := hb _ _ hi'
      simp [hno] at hi
  freedRpcc hm := by
    rw [hr, hc]
    exact ht.freedRpcc (hlog ▸ hm)
  once h := hlog ▸ ht.once h
  onceRpcc cl := hlog ▸ ht.onceRpcc cl

theorem Told.recounted {s s' : Proc} (ht : s.Told) {h : ℕ} {i j : Hinfo}
    (hi : s.hinfo h = some i) (hcl : j.cl = i.cl) (hd : j.del = i.del)
    (hs : s'.hinfo = (s.setHinfo h j).hinfo) (hlog : s'.log = s.log) (hn : s'.hinfos = s.hinfos)
    (hr : s'.rpccs = s.rpccs) (hc : s'.rpcc = s.rpcc) : s'.Told := by
  refine ht.recount hlog hn hr hc (fun h' i' hi' => ?_) fun h' i' hi' => ?_
  · rw [hs, setHinfo_hinfo]
    split_ifs with hh
    · subst hh
      cases hi.symm.trans hi'
      exact ⟨j, rfl, hcl, hd⟩
    · exact ⟨i', hi', rfl, rfl⟩
  · obtain ⟨rfl, rfl⟩ | ⟨-, hi'⟩ := of_setHinfo (hs ▸ hi')
    · exact ⟨i, hi, hcl.symm, hd.symm⟩
    · exact ⟨i', hi', rfl, rfl⟩

/-- A `safebind` returns what the bind of its entry gave. -/
theorem Told.safebind {s : Proc} (ht : s.Told) {h : ℕ} {r : Option ℕ}
    (hs : ∀ cl, r = some cl → .bind h cl true ∈ s.log)
    (hn : r = none → ∃ cl, .bind h cl false ∈ s.log) : (s.note (.safebind h r)).Told where
  bindOk hm := ht.bindOk (by simpa [note] using hm)
  bindFail hm := ht.bindFail (by simpa [note] using hm)
  cl hi hc := List.mem_cons_of_mem _ (ht.cl hi hc)
  del hi hd := (ht.del hi hd).imp fun _ => List.mem_cons_of_mem _
  retSome {h' cl} hm := by
    obtain he | hm := List.mem_cons.mp hm
    · cases he
      exact List.mem_cons_of_mem _ (hs cl rfl)
    · exact List.mem_cons_of_mem _ (ht.retSome hm)
  retNone {h'} hm := by
    obtain he | hm := List.mem_cons.mp hm
    · cases he
      exact (hn rfl).imp fun _ => List.mem_cons_of_mem _
    · exact (ht.retNone hm).imp fun _ => List.mem_cons_of_mem _
  freed hm := ht.freed (by simpa [note] using hm)
  freedRpcc hm := ht.freedRpcc (by simpa [note] using hm)
  once h := by simpa [note] using ht.once h
  onceRpcc cl := by simpa [note] using ht.onceRpcc cl

theorem Told.create {s : Proc} (hs : s.Shape) (ht : s.Told) (m : String) :
    (s.newHinfo m).Told where
  bindOk hm := by
    obtain ⟨i, hi, hcl⟩ := ht.bindOk hm
    exact ⟨i, by rw [newHinfo_hinfo, if_neg (hs.made hi).ne]; exact hi, hcl⟩
  bindFail {h cl} hm := by
    obtain ⟨hlt, hd⟩ := ht.bindFail hm
    refine ⟨Nat.lt_succ_of_lt hlt, fun i hi => ?_⟩
    rw [newHinfo_hinfo, if_neg hlt.ne] at hi
    exact hd i hi
  cl {h i cl} hi hcl := by
    obtain ⟨-, rfl⟩ | hi := of_newHinfo hi
    · cases hcl
    · exact ht.cl hi hcl
  del {h i} hi hd := by
    obtain ⟨-, rfl⟩ | hi := of_newHinfo hi
    · cases hd
    · exact ht.del hi hd
  retSome := ht.retSome
  retNone := ht.retNone
  freed {h} hm := by
    obtain ⟨hlt, hno⟩ := ht.freed hm
    exact ⟨Nat.lt_succ_of_lt hlt, by rw [newHinfo_hinfo, if_neg hlt.ne]; exact hno⟩
  freedRpcc := ht.freedRpcc
  once := ht.once
  onceRpcc := ht.onceRpcc

theorem Told.bound {s : Proc} (ht : s.Told) {h : ℕ} {i : Hinfo} (hi : s.hinfo h = some i)
    (hd : i.del = false) (hc : i.cl = none) :
    (((s.newRpcc i.m).note (.bind h s.rpccs true)).setHinfo h
      { i with cl := some s.rpccs }).Told where
  bindOk {h' cl} hm := by
    rw [setHinfo_hinfo]
    obtain he | hm := List.mem_cons.mp hm
    · cases he
      exact ⟨_, if_pos rfl, rfl⟩
    · obtain ⟨i', hi', hcl⟩ := ht.bindOk hm
      have hh : h' ≠ h := by
        rintro rfl
        cases hi.symm.trans hi'
        simp [hc] at hcl
      exact ⟨i', by rw [if_neg hh]; exact hi', hcl⟩
  bindFail {h' cl} hm := by
    obtain ⟨hlt, hdel⟩ := ht.bindFail (by simpa [note, Proc.setHinfo, newRpcc] using hm)
    refine ⟨hlt, fun i' hi' => ?_⟩
    obtain ⟨rfl, -⟩ | ⟨-, hi'⟩ := of_setHinfo hi'
    · simp [hdel i hi] at hd
    · exact hdel i' hi'
  cl {h' i' cl} hi' hcl := by
    obtain ⟨rfl, rfl⟩ | ⟨-, hi'⟩ := of_setHinfo hi'
    · cases hcl
      exact List.mem_cons_self
    · exact List.mem_cons_of_mem _ (ht.cl hi' hcl)
  del {h' i'} hi' hd' := by
    obtain ⟨-, rfl⟩ | ⟨-, hi'⟩ := of_setHinfo hi'
    · simp [hd] at hd'
    · exact (ht.del hi' hd').imp fun _ => List.mem_cons_of_mem _
  retSome hm := List.mem_cons_of_mem _
    (ht.retSome (by simpa [note, Proc.setHinfo, newRpcc] using hm))
  retNone hm :=
    (ht.retNone (by simpa [note, Proc.setHinfo, newRpcc] using hm)).imp fun _ =>
      List.mem_cons_of_mem _
  freed {h'} hm := by
    obtain ⟨hlt, hno⟩ := ht.freed (by simpa [note, Proc.setHinfo, newRpcc] using hm)
    refine ⟨hlt, ?_⟩
    rw [setHinfo_hinfo]
    split_ifs with hh
    · subst hh
      simp [hno] at hi
    · exact hno
  freedRpcc {cl} hm := by
    obtain ⟨hlt, hno⟩ := ht.freedRpcc (by simpa [note, Proc.setHinfo, newRpcc] using hm)
    exact ⟨Nat.lt_succ_of_lt hlt, (Function.update_of_ne hlt.ne ..).trans hno⟩
  once h' := by simpa [note, Proc.setHinfo, newRpcc] using ht.once h'
  onceRpcc cl := by simpa [note, Proc.setHinfo, newRpcc] using ht.onceRpcc cl

theorem Told.failed {s : Proc} (hs : s.Shape) (ht : s.Told) {h : ℕ} {i : Hinfo}
    (hi : s.hinfo h = some i) (hc : i.cl = none) :
    ((({ s with rpccs := s.rpccs + 1 }.note (.bind h s.rpccs false)).note
      (.deleteRpcc s.rpccs)).setHinfo h { i with del := true }).Told where
  bindOk {h' cl} hm := by
    obtain ⟨i', hi', hcl⟩ := ht.bindOk (by simpa [note, Proc.setHinfo] using hm)
    have hh : h' ≠ h := by
      rintro rfl
      cases hi.symm.trans hi'
      simp [hc] at hcl
    exact ⟨i', by rw [setHinfo_hinfo, if_neg hh]; exact hi', hcl⟩
  bindFail {h' cl} hm := by
    by_cases hh : h' = h
    · subst hh
      refine ⟨hs.made hi, fun i' hi' => ?_⟩
      rw [setHinfo_hinfo, if_pos rfl] at hi'
      cases hi'
      rfl
    · obtain ⟨hlt, hdel⟩ := ht.bindFail (h := h') (by simpa [note, Proc.setHinfo, hh] using hm)
      refine ⟨hlt, fun i' hi' => ?_⟩
      rw [setHinfo_hinfo, if_neg hh] at hi'
      exact hdel i' hi'
  cl {h' i' cl} hi' hcl := by
    obtain ⟨-, rfl⟩ | ⟨-, hi'⟩ := of_setHinfo hi'
    · simp [hc] at hcl
    · exact List.mem_cons_of_mem _ (List.mem_cons_of_mem _ (ht.cl hi' hcl))
  del {h' i'} hi' hd' := by
    obtain ⟨rfl, -⟩ | ⟨-, hi'⟩ := of_setHinfo hi'
    · exact ⟨s.rpccs, List.mem_cons_of_mem _ List.mem_cons_self⟩
    · exact (ht.del hi' hd').imp fun _ hm => List.mem_cons_of_mem _ (List.mem_cons_of_mem _ hm)
  retSome hm := List.mem_cons_of_mem _ (List.mem_cons_of_mem _
    (ht.retSome (by simpa [note, Proc.setHinfo] using hm)))
  retNone hm := (ht.retNone (by simpa [note, Proc.setHinfo] using hm)).imp
    fun _ hm => List.mem_cons_of_mem _ (List.mem_cons_of_mem _ hm)
  freed {h'} hm := by
    obtain ⟨hlt, hno⟩ := ht.freed (by simpa [note, Proc.setHinfo] using hm)
    refine ⟨hlt, ?_⟩
    rw [setHinfo_hinfo]
    split_ifs with hh
    · subst hh
      simp [hno] at hi
    · exact hno
  freedRpcc {cl} hm := by
    obtain he | hm := List.mem_cons.mp hm
    · cases he
      exact ⟨Nat.lt_succ_self _, hs.unmadeRpcc⟩
    · obtain ⟨hlt, hno⟩ := ht.freedRpcc (by simpa [note] using hm)
      exact ⟨Nat.lt_succ_of_lt hlt, hno⟩
  once h' := by simpa [note, Proc.setHinfo] using ht.once h'
  onceRpcc cl := by
    have hold := ht.onceRpcc cl
    by_cases hcl : s.rpccs = cl
    · -- the number was never given out before
      have hnot : .deleteRpcc cl ∉ s.log := fun hm => (ht.freedRpcc hm).1.ne hcl.symm
      simp [note, Proc.setHinfo, hcl, List.count_eq_zero.mpr hnot]
    · simpa [note, Proc.setHinfo, hcl] using hold

theorem Told.retire {s : Proc} (hs : s.Shape) (ht : s.Told) {h : ℕ} {i : Hinfo}
    (hi : s.hinfo h = some i) (hd : i.del = true) :
    ({ s with
      hmap := Function.update s.hmap i.m none
      hinfo := Function.update s.hinfo h none }.note (.deleteHinfo h)).Told where
  bindOk {h' cl} hm := by
    obtain ⟨i', hi', hcl⟩ := ht.bindOk (by simpa [note] using hm)
    have hh : h' ≠ h := by
      rintro rfl
      cases hi.symm.trans hi'
      simp [(hs.conn hi hcl).1] at hd
    exact ⟨i', (Function.update_of_ne hh ..).trans hi', hcl⟩
  bindFail {h' cl} hm := by
    obtain ⟨hlt, hdel⟩ := ht.bindFail (by simpa [note] using hm)
    exact ⟨hlt, fun i' hi' => hdel i' (of_deleted (s := s) hi').2⟩
  cl {h' i' cl} hi' hcl := by
    obtain ⟨-, hi'⟩ := of_deleted (s := s) hi'
    exact List.mem_cons_of_mem _ (ht.cl hi' hcl)
  del {h' i'} hi' hd' := by
    obtain ⟨-, hi'⟩ := of_deleted (s := s) hi'
    exact (ht.del hi' hd').imp fun _ => List.mem_cons_of_mem _
  retSome hm := List.mem_cons_of_mem _ (ht.retSome (by simpa [note] using hm))
  retNone hm := (ht.retNone (by simpa [note] using hm)).imp fun _ => List.mem_cons_of_mem _
  freed {h'} hm := by
    by_cases hh : h' = h
    · subst hh
      exact ⟨hs.made hi, Function.update_self ..⟩
    · obtain ⟨hlt, hno⟩ := ht.freed (h := h') (by simpa [note, hh] using hm)
      exact ⟨hlt, (Function.update_of_ne hh ..).trans hno⟩
  freedRpcc hm := ht.freedRpcc (by simpa [note] using hm)
  once h' := by
    have hold := ht.once h'
    by_cases hh : h = h'
    · subst hh
      have hnot : .deleteHinfo h ∉ s.log := fun hm => by
        rw [(ht.freed hm).2] at hi
        cases hi
      simp [note, List.count_eq_zero.mpr hnot]
    · simpa [note, hh] using hold
  onceRpcc cl := by simpa [note] using ht.onceRpcc cl

/-- **One section keeps the history in step.** -/
theorem Told.move {s s' : Proc} {e : Event} (hs : s.Shape) (ht : s.Told) (h : s.Move e s') :
    s'.Told := by
  cases h with
  | create hk hm =>
    exact (ht.create hs _).recount rfl rfl rfl rfl (fun _ i hi => ⟨i, hi, rfl, rfl⟩)
      fun _ i hi => ⟨i, hi, rfl, rfl⟩
  | @share k m h i hk hm hi hd =>
    exact ht.recounted (j := { i with refcnt := i.refcnt + 1 }) hi rfl rfl rfl rfl rfl rfl rfl
  | refuse hk hm hi hd =>
    exact ht.recount rfl rfl rfl rfl (fun _ i hi => ⟨i, hi, rfl, rfl⟩)
      fun _ i hi => ⟨i, hi, rfl, rfl⟩
  | idle => exact ht
  | dead hk hh hi hd => exact ht.safebind (fun _ h => nomatch h) fun _ => ht.del hi hd
  | again hk hh hi hd hc =>
    refine ht.safebind (fun cl h => ?_) fun h => nomatch h
    cases h
    exact ht.cl hi hc
  | bound hk hh hi hd hc hr =>
    refine (ht.bound hi hd hc).safebind (fun cl h => ?_) fun h => nomatch h
    cases h
    exact List.mem_cons_self
  | failed hk hh hi hd hc hr =>
    exact (ht.failed hs hi hc).safebind (fun _ h => nomatch h)
      fun _ => ⟨s.rpccs, List.mem_cons_of_mem _ List.mem_cons_self⟩
  | forget hk hh =>
    exact ht.recount rfl rfl rfl rfl (fun _ i hi => ⟨i, hi, rfl, rfl⟩)
      fun _ i hi => ⟨i, hi, rfl, rfl⟩
  | @release k h i hk hh hi hl =>
    exact ht.recounted (j := { i with refcnt := i.refcnt - 1 }) hi rfl rfl rfl rfl rfl rfl rfl
  | retire hk hh hi h1 hd =>
    exact (ht.retire hs hi hd).recount rfl rfl rfl rfl (fun _ i hi => ⟨i, hi, rfl, rfl⟩)
      fun _ i hi => ⟨i, hi, rfl, rfl⟩

theorem init_shape {s : Proc} (h : Init s) : s.Shape := by
  subst h
  constructor <;> simp

theorem init_told {s : Proc} (h : Init s) : s.Told := by
  subst h
  constructor <;> simp

/-- The invariant of every run. -/
theorem inv_reachable {s : Proc} (hs : Reachable Init Step s) : s.Shape ∧ s.Told := by
  refine hs.invariant (I := fun s => s.Shape ∧ s.Told)
    (fun s h => ⟨init_shape h, init_told h⟩) ?_
  rintro s s' ⟨hS, hT⟩ ⟨e, he⟩
  obtain ⟨t, ht, hm⟩ := hS.exec_move he
  cases ht
  exact ⟨hS.move hm, hT.move hS hm⟩

/-- Sections one after the other; `none` when one is not possible or faults. -/
def run : List Event → Proc → Option Proc
  | [], s => some s
  | e :: es, s =>
    match s.exec e with
    | some (.ok s') => run es s'
    | _ => none

theorem reachable_of_run {es : List Event} {s t : Proc} (hs : Reachable Init Step s)
    (h : run es s = some t) : Reachable Init Step t := by
  induction es generalizing s with
  | nil =>
    cases h
    exact hs
  | cons e es ih =>
    simp only [run] at h
    split at h
    · rename_i s' he
      exact ih (hs.next ⟨e, he⟩) h
    · cases h

/-! ## What the users of the cache rely on -/

/-- `hmap[m]->refcnt` counts the live handles that hold the entry. -/
def Counted (s : Proc) : Prop :=
  ∀ m h, s.hmap m = some h →
    ∃ i, s.hinfo h = some i ∧ i.m = m ∧ i.refcnt = (s.holders h).card

/-- What a live handle holds has not been deleted, nor has its connection. -/
def Held (s : Proc) : Prop :=
  ∀ k ∈ s.live, ∀ h, s.held k = some h → ∃ i, s.hinfo h = some i ∧ .deleteHinfo h ∉ s.log ∧
    ∀ cl, i.cl = some cl → s.rpcc cl = some i.m ∧ .deleteRpcc cl ∉ s.log

/-- Nothing is deleted twice. -/
def DeletedOnce (s : Proc) : Prop :=
  (∀ h, s.log.count (.deleteHinfo h) ≤ 1) ∧ ∀ cl, s.log.count (.deleteRpcc cl) ≤ 1

/-- A connection that exists is the one the map has for its address. -/
def OneRpcc (s : Proc) : Prop :=
  ∀ cl m, s.rpcc cl = some m →
    (∃ h i, s.hmap m = some h ∧ s.hinfo h = some i ∧ i.cl = some cl) ∧
      ∀ cl', s.rpcc cl' = some m → cl' = cl

/-- The contract of `safebind`: one bind decides for all calls on handles that share
an entry. -/
def Agreed (s : Proc) : Prop :=
  ∀ h r, .safebind h r ∈ s.log → (∃ cl ok, .bind h cl ok ∈ s.log) ∧
    ∀ cl ok, .bind h cl ok ∈ s.log → r = if ok then some cl else none

/-- A failed entry that nobody holds any more is gone. -/
def Retired (s : Proc) : Prop :=
  ∀ h cl, .bind h cl false ∈ s.log → s.holders h = ∅ → s.hinfo h = none ∧ ∀ m, s.hmap m ≠ some h

/-- Without an entry the next handle gets one that was never bound, and the first
`safebind` on such an entry binds. -/
def Rebinds (s : Proc) : Prop :=
  (∀ k m, k ∉ s.live → s.hmap m = none → ∃ s' h, s.exec (.handle k m) = some (.ok s') ∧
    s'.held k = some h ∧ s'.hmap m = some h ∧ ∀ cl ok, .bind h cl ok ∉ s'.log) ∧
  ∀ k ∈ s.live, ∀ h, s.held k = some h → (∀ cl ok, .bind h cl ok ∉ s.log) →
    ∀ ret, ∃ s' cl, s.exec (.safebind k ret) = some (.ok s') ∧
      .bind h cl (decide (0 ≤ ret)) ∈ s'.log

theorem Shape.held {s : Proc} (hs : s.Shape) (ht : s.Told) : s.Held := by
  intro k hk h hh
  obtain ⟨i, hi⟩ := hs.there hk hh
  refine ⟨i, hi, fun hm => ?_, fun cl hcl => ⟨(hs.conn hi hcl).2, fun hm => ?_⟩⟩
  · simp [(ht.freed hm).2] at hi
  · exact absurd ((ht.freedRpcc hm).2.symm.trans (hs.conn hi hcl).2) (by simp)

theorem Shape.oneRpcc {s : Proc} (hs : s.Shape) : s.OneRpcc := by
  intro cl m hr
  obtain ⟨h, i, hi, hcl⟩ := hs.owned hr
  have hm : i.m = m := Option.some.inj ((hs.conn hi hcl).2.symm.trans hr)
  have hmap : s.hmap m = some h := hs.entry.mpr ⟨i, hi, hm⟩
  refine ⟨⟨h, i, hmap, hi, hcl⟩, fun cl' hr' => ?_⟩
  obtain ⟨h', i', hi', hcl'⟩ := hs.owned hr'
  have hm' : i'.m = m := Option.some.inj ((hs.conn hi' hcl').2.symm.trans hr')
  have hh : h' = h :=
    Option.some.inj ((hs.entry.mpr ⟨i', hi', hm'⟩).symm.trans hmap)
  subst hh
  cases hi.symm.trans hi'
  exact Option.some.inj (hcl'.symm.trans hcl)

/-- No entry has seen both outcomes. -/
theorem Told.bind_unique {s : Proc} (hs : s.Shape) (ht : s.Told) {h cl cl' : ℕ} {ok : Bool}
    (h₁ : .bind h cl true ∈ s.log) (h₂ : .bind h cl' ok ∈ s.log) : ok = true ∧ cl' = cl := by
  obtain ⟨i, hi, hcl⟩ := ht.bindOk h₁
  cases ok with
  | true =>
    obtain ⟨i', hi', hcl'⟩ := ht.bindOk h₂
    cases hi.symm.trans hi'
    exact ⟨rfl, Option.some.inj (hcl'.symm.trans hcl)⟩
  | false =>
    have := (ht.bindFail h₂).2 i hi
    simp [(hs.conn hi hcl).1] at this

theorem Told.agreed {s : Proc} (hs : s.Shape) (ht : s.Told) : s.Agreed := by
  intro h r hr
  cases r with
  | some c =>
    have hb := ht.retSome hr
    refine ⟨⟨c, true, hb⟩, fun cl ok hb' => ?_⟩
    obtain ⟨rfl, rfl⟩ := ht.bind_unique hs hb hb'
    rfl
  | none =>
    obtain ⟨c, hb⟩ := ht.retNone hr
    refine ⟨⟨c, false, hb⟩, fun cl ok hb' => ?_⟩
    cases ok with
    | false => rfl
    | true => simpa using (ht.bind_unique hs hb' hb).1

theorem Told.retired {s : Proc} (hs : s.Shape) (ht : s.Told) : s.Retired := by
  intro h cl hb hno
  have hgone : s.hinfo h = none := by
    cases hi : s.hinfo h with
    | none => rfl
    | some i =>
      have hpos := hs.kept hi ((ht.bindFail hb).2 i hi)
      simp [hs.counted hi, hno] at hpos
  refine ⟨hgone, fun m hm => ?_⟩
  obtain ⟨i, hi, -⟩ := hs.listed hm
  simp [hgone] at hi

theorem Told.rebinds {s : Proc} (hs : s.Shape) (ht : s.Told) : s.Rebinds := by
  constructor
  · intro k m hk hm
    refine ⟨(s.newHinfo m).hold k (some s.hinfos), s.hinfos, ?_, Function.update_self ..,
      Function.update_self .., fun cl ok hb => ?_⟩
    · simp [exec, hk, getHandle, hm, Except.map]
    · have hb : .bind s.hinfos cl ok ∈ s.log := hb
      cases ok with
      | true =>
        obtain ⟨i, hi, -⟩ := ht.bindOk hb
        simp [hs.unmade] at hi
      | false => exact absurd (ht.bindFail hb).1 (lt_irrefl _)
  · intro k hk h hh hno ret
    obtain ⟨i, hi⟩ := hs.there hk hh
    have hd : i.del = false := by
      cases hd : i.del with
      | false => rfl
      | true =>
        obtain ⟨cl, hb⟩ := ht.del hi hd
        exact absurd hb (hno cl false)
    have hc : i.cl = none := by
      cases hc : i.cl with
      | none => rfl
      | some cl => exact absurd (ht.cl hi hc) (hno cl true)
    by_cases hr : ret < 0
    · refine ⟨_, s.rpccs, by rw [exec, if_pos hk, hh, hs.safebind_failed hi hd hc hr]; rfl, ?_⟩
      simp [note, setHinfo, not_le.mpr hr]
    · have hr : 0 ≤ ret := not_lt.mp hr
      refine ⟨_, s.rpccs, by rw [exec, if_pos hk, hh, safebind_bound hi hd hc hr]; rfl, ?_⟩
      simp [note, setHinfo, hr]

/-- **The connection cache**: in every state of every run, whatever the order of the
sections, counts are right, nothing is used after or deleted before its time, one
bind decides for an entry, and a failed entry goes with its last handle. -/
theorem refcounting {s : Proc} (hs : Reachable Init Step s) :
    (∀ e f, s.exec e ≠ some (.error f)) ∧ s.Counted ∧ s.Held ∧ s.DeletedOnce ∧ s.OneRpcc ∧
      s.Agreed ∧ s.Retired ∧ s.Rebinds := by
  obtain ⟨hS, hT⟩ := inv_reachable hs
  refine ⟨fun e f h => ?_, fun m h hm => ?_, hS.held hT, ⟨hT.once, hT.onceRpcc⟩, hS.oneRpcc,
    hT.agreed hS, hT.retired hS, hT.rebinds hS⟩
  · obtain ⟨_, hr, -⟩ := hS.exec_move h
    cases hr
  · obtain ⟨i, hi, he⟩ := hS.listed hm
    exact ⟨i, hi, he, hS.counted hi⟩

/-- Two handles share an entry whose bind fails; with the second of them the entry
goes, and the next handle binds anew. -/
def rebindRun : List Event :=
  [.handle 0 "127.0.0.1:4772", .handle 1 "127.0.0.1:4772", .safebind 0 (-1), .done 0,
    .safebind 1 0, .done 1, .handle 0 "127.0.0.1:4772", .safebind 0 0]

theorem refcounting_rebind : ∃ s, run rebindRun {} = some s ∧
    s.log = [.safebind 1 (some 1), .bind 1 1 true, .deleteHinfo 0, .safebind 0 none,
      .safebind 0 none, .deleteRpcc 0, .bind 0 0 false] ∧
    s.Counted ∧ s.Held ∧ s.Agreed ∧ s.Retired := by
  obtain ⟨s, hs, hlog⟩ : ∃ s, run rebindRun {} = some s ∧
      s.log = [.safebind 1 (some 1), .bind 1 1 true, .deleteHinfo 0, .safebind 0 none,
        .safebind 0 none, .deleteRpcc 0, .bind 0 0 false] := ⟨_, rfl, rfl⟩
  have h := refcounting (reachable_of_run (.start rfl) hs)
  exact ⟨s, hs, hlog, h.2.1, h.2.2.1, h.2.2.2.2.2.1, h.2.2.2.2.2.2.1⟩

end Proc

end Yfs.Rpc
