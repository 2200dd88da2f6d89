import Yfs.Fs.Alone

/-!
# Files as byte arrays

What `read`, `write`, `setattr` and `getfile` of a single client do to a file: they are
the operations of a byte array (`DataCall.effect`, `DataCall.Answers`), as long as
offsets and lengths are below 2^31 (`byte_array`).

Beyond, `write` and `setattr` subtract 64-bit numbers into an `int`: `gap_iff` says exactly
when that goes wrong.
-/

namespace Yfs.Fs

open Extent (Attr Bytes Ec Fault FileData OK Sys toInt)
open Storage (Disk layer)

/-- The extent client of `c`, when nobody else runs. -/
def soloEc (c : String) : Ec Fault Inum (Sys Disk) :=
  Extent.Client.ec (Sys.host c) (Sys.calls layer (only c))

/-- The calls on the data of a file. -/
inductive DataCall where
  | read (size : UInt64) (off : Int64)
  | write (off : Int64) (data : Bytes)
  | setattr (size : UInt64)
  | getfile
  deriving DecidableEq, Repr

/-- What they reply. -/
inductive DataReply where
  | bytes (st : Status) (buf : Bytes)
  | status (st : Status)
  | attr (st : Status) (a : Option Attr)
  deriving DecidableEq, Repr

namespace DataCall

/-- The code of a call on `ino`. -/
def prog {σ : Type} (ec : Ec Fault Inum σ) (ino : Inum) : DataCall → Prog Fault Inum σ DataReply
  | read size off => do
    let (st, buf) ← Fs.read ec ino size off
    pure (.bytes st buf)
  | write off data => do
    let st ← Fs.write ec ino off data
    pure (.status st)
  | setattr size => do
    let st ← Fs.setattr ec ino size
    pure (.status st)
  | getfile => do
    let (st, a) ← Fs.getfile ec ino
    pure (.attr st a)

/-- Offsets are not negative, and all is below 2^31. -/
def InRange : DataCall → Prop
  | read size off => 0 ≤ off.toInt ∧ off.toInt + size.toNat < 2 ^ 31
  | write off data => Fs.InRange off data
  | setattr size => size.toNat < 2 ^ 31
  | getfile => True

/-- What a call makes of a content, byte for byte. -/
def effect (v : Bytes) : DataCall → Bytes
  | write off data =>
    let off := off.toInt.toNat
    (List.range (max v.length (off + data.length))).map fun k =>
      if off ≤ k ∧ k < off + data.length then data.getD (k - off) 0 else v.getD k 0
  | setattr size => (List.range size.toNat).map (v.getD · 0)
  | read _ _ | getfile => v

/-- The replies of a byte array. -/
def Answers (v : Bytes) : DataCall → DataReply → Prop
  | read size off, r => r = .bytes .ok ((v.drop off.toInt.toNat).take size.toNat)
  | write _ _, r | setattr _, r => r = .status .ok
  | getfile, r => ∃ a, r = .attr .ok (some a) ∧ a.size.toNat = v.length

/-- The content after the calls of a log. -/
def after (v : Bytes) (log : List (DataCall × DataReply)) : Bytes :=
  log.foldl (fun v x => x.1.effect v) v

/-- All replies of a log are those of a byte array. -/
def AnswersRun : Bytes → List (DataCall × DataReply) → Prop
  | _, [] => True
  | v, (d, r) :: log => d.Answers v r ∧ AnswersRun (d.effect v) log

section Spec

variable {v : Bytes} {log : List (DataCall × DataReply)} {d : DataCall} {r : DataReply}

theorem after_snoc : after v (log ++ [(d, r)]) = d.effect (after v log) := by
  rw [after, List.foldl_append]
  rfl

theorem answersRun_snoc :
    AnswersRun v (log ++ [(d, r)]) ↔ AnswersRun v log ∧ d.Answers (after v log) r := by
  induction log generalizing v with
  | nil => exact and_comm
  | cons x log ih => exact (and_congr_right fun _ => ih).trans and_assoc.symm

theorem length_effect_lt (h : v.length < 2 ^ 31) (hd : d.InRange) :
    (d.effect v).length < 2 ^ 31 := by
  cases d with
  | read | getfile => exact h
  | write off data =>
    have h0 := hd.1
    have hlt := hd.2
    rw [effect, List.length_map, List.length_range]
    omega
  | setattr size =>
    rw [effect, List.length_map, List.length_range]
    exact hd

/-- `write` puts its bytes in place. -/
theorem effect_write {off : Int64} {data : Bytes} :
    (write off data).effect v = splice v off.toInt.toNat data := by
  refine List.ext_getElem? fun k => ?_
  rw [effect, List.getElem?_map]
  by_cases hk : k < max v.length (off.toInt.toNat + data.length)
  · rw [List.getElem?_range hk, Option.map_some]
    split
    case isTrue hin =>
      obtain ⟨j, rfl⟩ := Nat.exists_eq_add_of_le hin.1
      have hj : j < data.length := by omega
      rw [splice_hasAt j hj, Nat.add_sub_cancel_left, List.getElem?_eq_getElem hj,
        List.getD_eq_getElem _ _ hj]
    case isFalse hout =>
      by_cases hv : k < v.length
      · rw [splice_other hv (by omega), List.getElem?_eq_getElem hv, List.getD_eq_getElem _ _ hv]
      · -- in the gap
        have hgap : k < off.toInt.toNat := by omega
        rw [List.getD_eq_default _ _ (Nat.not_lt.mp hv), splice, List.append_assoc,
          List.getElem?_append_left (by rw [length_splice_front]; exact hgap),
          List.getElem?_take_of_lt hgap,
          List.getElem?_append_right (Nat.not_lt.mp hv), List.getElem?_replicate, if_pos (by omega)]
  · rw [List.getElem?_eq_none (by simpa using hk),
      List.getElem?_eq_none (by rw [length_splice]; omega)]
    rfl

/-- `setattr` makes the content fit. -/
theorem effect_setattr {size : UInt64} : (setattr size).effect v = Extent.fit v size.toNat := by
  refine List.ext_getElem? fun k => ?_
  rw [effect, List.getElem?_map, Extent.fit]
  by_cases hk : k < size.toNat
  · rw [List.getElem?_range hk, Option.map_some]
    by_cases hv : k < v.length
    · rw [List.getElem?_append_left (by rw [List.length_take]; omega), List.getElem?_take_of_lt hk,
        List.getElem?_eq_getElem hv, List.getD_eq_getElem _ _ hv]
    · rw [List.getElem?_append_right (by rw [List.length_take]; omega), List.getElem?_replicate,
        List.length_take, if_pos (by omega), List.getD_eq_default _ _ (Nat.not_lt.mp hv)]
  · rw [List.getElem?_eq_none (by simpa using hk), List.getElem?_eq_none]
    · rfl
    · rw [List.length_append, List.length_take, List.length_replicate]
      omega

end Spec

end DataCall

/-! ## What the calls do -/

section Rules

variable {c : String} {s : Sys Disk} {ino : Inum} {v data : Bytes} {off : Int64} {size : UInt64}

/-- The other files are as they were, and the content is `v` now. -/
def Leaves (c : String) (ino : Inum) (v : Bytes) (s s' : Sys Disk) : Prop :=
  Alone c s' ∧ content c s' = Function.update (content c s) ino (some v)

theorem Leaves.content {s' : Sys Disk} (h : Leaves c ino v s s') : content c s' ino = some v := by
  rw [h.2, Function.update_self]

theorem Leaves.of_eq {s' : Sys Disk} (ha : Alone c s') (hv : Fs.content c s ino = some v)
    (h : Fs.content c s' = Fs.content c s) : Leaves c ino v s s' :=
  ⟨ha, by rw [h, ← hv, Function.update_eq_self]⟩

theorem wp_read (ha : Alone c s) (hv : content c s ino = some v) :
    Prog.wp (read (soloEc c) ino size off)
      (fun r s' => r = (.ok, readAt v size off) ∧ Leaves c ino v s s') (fun _ _ => False) s := by
  rw [read, Prog.lock_bind]
  show Prog.wp (_ >>= _) _ _ s
  rw [Prog.wp_bind]
  refine Prog.wp_mono (ha.get hv) ?_ fun _ _ h => h
  rintro _ s₁ ⟨rfl, ha₁, hcontent, -⟩
  exact ⟨rfl, .of_eq ha₁ hv hcontent⟩

theorem wp_getfile (ha : Alone c s) (hv : content c s ino = some v) :
    Prog.wp (getfile (soloEc c) ino)
      (fun r s' => (∃ a, r = (.ok, some a) ∧ a.size = .ofNat v.length) ∧ Leaves c ino v s s')
      (fun _ _ => False) s := by
  rw [getfile, Prog.lock_bind]
  show Prog.wp (_ >>= _) _ _ s
  rw [Prog.wp_bind]
  refine Prog.wp_mono (ha.getattr hv) ?_ fun _ _ h => h
  rintro _ s₁ ⟨⟨a, rfl, hsize⟩, ha₁, hcontent⟩
  exact ⟨⟨a, rfl, hsize⟩, .of_eq ha₁ hv hcontent⟩

/-- `write` leaves what `writeAt` makes of the content, or ends the process. -/
theorem wp_write (ha : Alone c s) (hv : content c s ino = some v) :
    Prog.wp (write (soloEc c) ino off data)
      (fun r s' => r = .ok ∧ ∃ v', writeAt v off data = .ok v' ∧ Leaves c ino v' s s')
      (fun e _ => writeAt v off data = .error e) s := by
  rw [write, Prog.lock_bind]
  show Prog.wp (_ >>= _) _ _ s
  rw [Prog.wp_bind]
  refine Prog.wp_mono (ha.get hv) ?_ fun _ _ h => h
  rintro _ s₁ ⟨rfl, ha₁, hcontent, -⟩
  have hv₁ : content c s₁ ino = some v := by rw [hcontent, hv]
  show Prog.wp (lift (writeAt v off data) >>= _) _ _ s₁
  cases hw : writeAt v off data with
  | error e => exact rfl
  | ok v' =>
    rw [lift, pure_bind, Prog.wp_bind]
    refine Prog.wp_mono (ha₁.put hv₁) ?_ fun _ _ h => h
    rintro _ s₂ ⟨rfl, ha₂, hcontent₂, -⟩
    exact ⟨rfl, v', rfl, ha₂, by rw [hcontent₂, hcontent]⟩

/-- `setattr` leaves what `resize` makes of the content, unless it has the size already. -/
theorem wp_setattr (ha : Alone c s) (hv : content c s ino = some v) :
    Prog.wp (setattr (soloEc c) ino size)
      (fun r s' => r = .ok ∧ ((.ofNat v.length : UInt32).toUInt64 = size ∧ Leaves c ino v s s' ∨
        (.ofNat v.length : UInt32).toUInt64 ≠ size ∧
          ∃ v', resize v (.ofNat v.length) size = .ok v' ∧ Leaves c ino v' s s'))
      (fun e _ => (.ofNat v.length : UInt32).toUInt64 ≠ size ∧
        resize v (.ofNat v.length) size = .error e) s := by
  rw [setattr, Prog.lock_bind]
  show Prog.wp (_ >>= _) _ _ s
  rw [Prog.wp_bind]
  refine Prog.wp_mono (ha.getattr hv) ?_ fun _ _ h => h
  rintro _ s₁ ⟨⟨a, rfl, hsize⟩, ha₁, hcontent⟩
  have hv₁ : content c s₁ ino = some v := by rw [hcontent, hv]
  simp only [ne_eq, not_true_eq_false, if_false, hsize]
  split
  case isTrue heq => exact ⟨rfl, .inl ⟨heq, .of_eq ha₁ hv hcontent⟩⟩
  case isFalse hne =>
    rw [Prog.wp_bind]
    refine Prog.wp_mono (ha₁.get hv₁) ?_ fun _ _ h => h
    rintro _ s₂ ⟨rfl, ha₂, hcontent₂, -⟩
    have hv₂ : content c s₂ ino = some v := by rw [hcontent₂, hv₁]
    simp only [not_true_eq_false, if_false]
    cases hr : resize v (.ofNat v.length) size with
    | error e => exact ⟨hne, rfl⟩
    | ok v' =>
      rw [lift, pure_bind, Prog.wp_bind]
      refine Prog.wp_mono (ha₂.put hv₂) ?_ fun _ _ h => h
      rintro _ s₃ ⟨rfl, ha₃, hcontent₃, -⟩
      exact ⟨rfl, .inr ⟨hne, v', rfl, ha₃, by rw [hcontent₃, hcontent₂, hcontent]⟩⟩

/-- **One call on a file with a content below 2^31 bytes.** -/
theorem wp_data {d : DataCall} (ha : Alone c s) (hv : content c s ino = some v)
    (hlen : v.length < 2 ^ 31) (hd : d.InRange) :
    Prog.wp (d.prog (soloEc c) ino) (fun r s' => d.Answers v r ∧ Leaves c ino (d.effect v) s s')
      (fun _ _ => False) s := by
  have hsmall : (.ofNat v.length : UInt32).toNat = v.length := 
    UInt32.toNat_ofNat_of_lt (hlen.trans (by decide))
  cases d with
  | read size off =>
    rw [DataCall.prog, Prog.wp_bind]
    refine Prog.wp_mono (wp_read ha hv) ?_ fun _ _ h => h
    rintro _ s₁ ⟨rfl, hl⟩
    refine ⟨?_, hl⟩
    rw [DataCall.Answers, readAt, toNat_of_nonneg hd.1]
    split
    case isTrue hle => rw [List.drop_eq_nil_of_le hle, List.take_nil]
    case isFalse => rfl
  | write off data =>
    rw [DataCall.prog, Prog.wp_bind]
    refine Prog.wp_mono (wp_write ha hv) ?_ ?_
    · rintro _ s₁ ⟨rfl, v', hw, hl⟩
      rw [writeAt_eq hlen hd] at hw
      cases hw
      exact ⟨rfl, by rwa [DataCall.effect_write]⟩
    · intro e _ hw
      rw [writeAt_eq hlen hd] at hw
      cases hw
  | setattr size =>
    have hgap : size.toNat < v.length + 2 ^ 31 := Nat.lt_add_left _ hd
    rw [DataCall.prog, Prog.wp_bind]
    refine Prog.wp_mono (wp_setattr ha hv) ?_ ?_
    · rintro _ s₁ ⟨rfl, ⟨heq, hl⟩ | ⟨-, v', hr, hl⟩⟩
      · refine ⟨rfl, ?_⟩
        rw [DataCall.effect_setattr, ← heq, UInt32.toNat_toUInt64, hsmall]
        simpa [Extent.fit] using hl
      · rw [Extent.resize_fit hsmall hgap] at hr
        cases hr
        exact ⟨rfl, by rwa [DataCall.effect_setattr]⟩
    · rintro e _ ⟨-, hr⟩
      rw [Extent.resize_fit hsmall hgap] at hr
      cases hr
  | getfile =>
    rw [DataCall.prog, Prog.wp_bind]
    refine Prog.wp_mono (wp_getfile ha hv) ?_ fun _ _ h => h
    rintro _ s₁ ⟨⟨a, rfl, hsize⟩, hl⟩
    exact ⟨⟨a, rfl, by rw [hsize, hsmall]⟩, hl⟩

/-- A new file is empty. -/
theorem wlp_createType {type : UInt32} {parent : Inum} {name : Bytes} (ha : Alone c s) :
    Prog.wlp (createType (soloEc c) type parent name)
      (fun r s' => ∀ j, r = (.ok, some j) → content c s' j = some []) s := by
  rw [createType, Prog.lock_bind, Prog.lock_bind]
  show Prog.wlp (_ >>= _) _ s
  refine Prog.wlp_bind ?_
  cases hv : content c s parent with
  | none =>
    obtain ⟨hd, hf⟩ := ha.blank_of_none hv
    exact wlp_get_blank ha.owner hd (by simp [hf])
  | some v =>
    refine Prog.wlp_mono (Prog.wlp_of_wp (ha.get hv)) ?_
    rintro _ s₁ ⟨rfl, ha₁, hcontent, -⟩
    have hv₁ : content c s₁ parent = some v := by rw [hcontent, hv]
    simp only [ne_eq, not_true_eq_false, if_false]
    split_ifs
    · refine Prog.wlp_bind (Prog.wlp_bind ?_)
      show Prog.wlp (Extent.Client.create (Sys.host c) (Sys.calls layer (only c)) type 0) _ s₁
      refine wlp_create ha₁ fun s₂ j ha₂ hnone hnew hold => ?_
      have hne : j ≠ parent := by
        rintro rfl
        rw [hv₁] at hnone
        cases hnone
      simp only [not_true_eq_false, if_false]
      refine Prog.wlp_bind (Prog.wlp_mono (Prog.wlp_of_wp (ha₂.put (hold _ _ hv₁))) ?_)
      rintro _ s₃ ⟨rfl, -, hcontent₃, -⟩
      refine Prog.wlp_pure _ (Prog.wlp_pure (ι := Inum) _ ?_)
      rintro i ⟨⟩
      rw [hcontent₃, Function.update_of_ne hne, hnew]
    · refine Prog.wlp_bind (Prog.wlp_pure _ (Prog.wlp_pure (ι := Inum) _ ?_))
      rintro j ⟨⟩

end Rules

/-! ## A file that a client has made -/

/-- A client on a new server: its constructor, and then any calls that return, one after the
other. -/
inductive Life (c : String) : Sys Disk → Prop
  | mounted {s₀ s : Sys Disk} : Storage.Init s₀.im.st → s₀.im.st.live = [1] →
      (∀ i, s₀.fileManger i = none) → (∀ x i, s₀.cache x i = none) →
      (construct layer (only c) c).run s₀ = .done () s → Life c s
  | call {s s' : Sys Disk} {call : Call} {r : Reply} : Life c s →
      (call.prog (soloEc c)).run s = .done r s' → Life c s'
  | data {s s' : Sys Disk} {ino : Inum} {d : DataCall} {r : DataReply} : Life c s →
      (d.prog (soloEc c) ino).run s = .done r s' → Life c s'
  | getdir {s s' : Sys Disk} {dir : Inum}
      {r : Status × Option (UInt32 × UInt32 × UInt32)} : Life c s →
      (getdir (soloEc c) dir).run s = .done r s' → Life c s'

/-- Calls one after the other, with those on `ino` and their replies: they are data calls within
the bounds, the others are any calls on other inodes. -/
inductive Since (c : String) (ino : Inum)
    (s : Sys Disk) : List (DataCall × DataReply) → Sys Disk → Prop
  | refl : Since c ino s [] s
  | data {log : List (DataCall × DataReply)} {s' s'' : Sys Disk} {d : DataCall} {r : DataReply} :
      Since c ino s log s' → d.InRange → (d.prog (soloEc c) ino).run s' = .done r s'' →
      Since c ino s (log ++ [(d, r)]) s''
  | call {log : List (DataCall × DataReply)} {s' s'' : Sys Disk} {call : Call} {r : Reply} :
      Since c ino s log s' → call.inum ≠ ino → (call.prog (soloEc c)).run s' = .done r s'' →
      Since c ino s log s''
  | other {log : List (DataCall × DataReply)} {s' s'' : Sys Disk} {i : Inum} {d : DataCall}
      {r : DataReply} :
      Since c ino s log s' → i ≠ ino → (d.prog (soloEc c) i).run s' = .done r s'' →
        Since c ino s log s''
  | getdir {log : List (DataCall × DataReply)} {s' s'' : Sys Disk} {dir : Inum}
      {r : Status × Option (UInt32 × UInt32 × UInt32)} :
      Since c ino s log s' → dir ≠ ino → (getdir (soloEc c) dir).run s' = .done r s'' →
        Since c ino s log s''

section Main

variable {c : String} {s s' : Sys Disk} {ino parent : Inum} {name : Bytes}
  {log : List (DataCall × DataReply)} {d : DataCall}

theorem respects_data {σ : Type} {P : σ → Prop} {I : Inum → Prop} {ec : Ec Fault Inum σ}
    (h : EcRespects P I ec) (hi : I ino) : (d.prog ec ino).Respects P := by
  cases d with
  | read => exact (respects_read h _ _ hi).bind fun _ => Prog.respects_pure _
  | write => exact (respects_write h _ _ hi).bind fun _ => Prog.respects_pure _
  | setattr => exact (respects_setattr h _ hi).bind fun _ => Prog.respects_pure _
  | getfile => exact (respects_getfile h hi).bind fun _ => Prog.respects_pure _

/-- Any call leaves the client's sizes right. -/
theorem solo_respects : EcRespects (Alone c) (fun _ => True) (soloEc c) := by
  have h : EcRespects (fun s => Alone c s ∧ True) (fun _ => True) (soloEc c) :=
    ecRespects (K := fun _ => True)
    (fun _ _ _ _ _ _ _ => trivial) (fun _ _ _ _ => trivial) fun _ _ _ _ => trivial
  simp only [and_true] at h
  exact h

/-- Calls on other inodes leave the content. -/
theorem solo_respects_other {v : Bytes} :
    EcRespects (fun s => Alone c s ∧ content c s ino = some v) (· ≠ ino) (soloEc c) :=
  ecRespects (K := fun m => m ino = some v)
    (fun m i _ buf hi _ hm => by rw [Function.update_of_ne hi.symm, hm])
      (fun m m' hold hm => hold ino v hm)
    fun m i hnone hm hi => by rw [hi, hm] at hnone; cases hnone

/-- **After any calls of a single client**, what it has cached has the right size. -/
theorem Life.alone (h : Life c s) : Alone c s := by
  induction h with
  | @mounted s₀ s hinit hlive hown hcache hrun =>
    have ha : Alone c s₀ :=
      ⟨fun i o ho => by simp [hown] at ho, fun i _ => hcache c i,
        fun i f hf => by simp [hcache] at hf, fun i f v hf => by simp [hcache] at hf⟩
    exact ((solo_respects.put trivial).bind fun _ => Prog.respects_pure ()) s₀ ha _ _ hrun
  | call _ hrun ih => exact respects_call solo_respects trivial _ ih _ _ hrun
  | data _ hrun ih => exact respects_data solo_respects trivial _ ih _ _ hrun
  | getdir _ hrun ih => exact respects_getdir solo_respects trivial _ ih _ _ hrun

/-- The calls on `ino` are those of a byte array. -/
theorem Since.array (h : Since c ino s log s') (ha : Alone c s) (hv : content c s ino = some []) :
    Alone c s' ∧ content c s' ino = some (DataCall.after [] log) ∧
      (DataCall.after [] log).length < 2 ^ 31 ∧
      DataCall.AnswersRun [] log := by
  induction h with
  | refl => exact ⟨ha, hv, by decide, trivial⟩
  | @data log s' s'' d r _ hd hrun ih =>
    obtain ⟨ha', hv', hlen, hans⟩ := ih
    obtain ⟨hr, hl⟩ := Prog.wp_run (wp_data ha' hv' hlen hd) hrun
    rw [DataCall.after_snoc, DataCall.answersRun_snoc]
    exact ⟨hl.1, hl.content, DataCall.length_effect_lt hlen hd, hans, hr⟩
  | call _ hi hrun ih =>
    obtain ⟨ha', hv', hrest⟩ := ih
    obtain ⟨ha'', hv''⟩ := respects_call solo_respects_other hi _ ⟨ha', hv'⟩ _ _ hrun
    exact ⟨ha'', hv'', hrest⟩
  | other _ hi hrun ih =>
    obtain ⟨ha', hv', hrest⟩ := ih
    obtain ⟨ha'', hv''⟩ := respects_data solo_respects_other hi _ ⟨ha', hv'⟩ _ _ hrun
    exact ⟨ha'', hv'', hrest⟩
  | getdir _ hi hrun ih =>
    obtain ⟨ha', hv', hrest⟩ := ih
    obtain ⟨ha'', hv''⟩ := respects_getdir solo_respects_other hi _ ⟨ha', hv'⟩ _ _ hrun
    exact ⟨ha'', hv'', hrest⟩

/-- `A` has started, and lives. -/
theorem life_started : Life "A" started := by
  have hrun : (construct layer (only "A") "A").run newServer = .done () started :=
    Prog.Outcome.eq_done (by decide +kernel)
  exact .mounted Storage.init_zeros rfl (fun _ => rfl) (fun _ _ => rfl) hrun

end Main

/-! ## Offsets and sizes beyond -/

section Arithmetic

variable {c : String} {s : Sys Disk} {ino : Inum} {v data : Bytes} {off : Int64} {size : UInt64}

/-- The length of the zero fill of `write`, if there is one. -/
def writeFill (v : Bytes) (off : Int64) : Option Int :=
  if off.toInt < toInt v.length then none else some (off.toInt - toInt v.length).toInt32.toInt

/-- The length of the zero fill of `setattr`, if there is one. -/
def setattrFill (a_size : UInt32) (size : UInt64) : Option Int :=
  if size < a_size.toUInt64 then none else some (toInt (size - a_size.toUInt64).toNat)

theorem writeAt_fill {n : Int} (h : writeFill v off = some n) : writeAt v off data =
    match fill n with
    | some zeros => .ok (v ++ zeros ++ data)
    | none => .error .badLength := by
  unfold writeFill at h
  split_ifs at h with hoff
  cases h
  exact if_neg hoff

theorem resize_fill {n : Int} {a_size : UInt32} (h : setattrFill a_size size = some n) :
    resize v a_size size =
      match fill n with
      | some zeros => .ok (v ++ zeros)
      | none => .error .badLength := by
  unfold setattrFill at h
  split_ifs at h with hsize
  cases h
  exact if_neg hsize

/-- An `int` has a number up to 2^31 as it is, and no other one. -/
theorem toInt_eq_iff {n : ℕ} : toInt n = (n : Int) ↔ n < 2 ^ 31 := by
  constructor
  · intro h
    have := Int32.toInt_lt (Int32.ofNat n)
    rw [toInt] at h
    omega
  · exact fun h => Int32.toInt_ofNat_of_lt h

theorem toInt32_eq {n : ℕ} : (n : Int).toInt32.toInt = toInt n := rfl

/-- A fill has the length of the gap, if there is one. -/
def FillExact (length : Option Int) (gap : Int) : Prop := ∀ n, length = some n → n = gap

/-- The fill of `write` has the length of the gap, as long as that is below 2^31. -/
theorem writeFill_exact (hv : v.length < 2 ^ 31) (h0 : 0 ≤ off.toInt) :
    FillExact (writeFill v off) (off.toInt - v.length) ↔ off.toInt < v.length + 2 ^ 31 := by
  have hsize : toInt v.length = (v.length : Int) := toInt_eq_iff.mpr hv
  unfold FillExact writeFill
  rw [hsize]
  split_ifs with hoff
  · exact iff_of_true nofun (by omega)
  · have hgap : off.toInt - v.length = ((off.toInt.toNat - v.length : ℕ) : Int) := by omega
    simp only [Option.some.injEq, forall_eq']
    rw [hgap, toInt32_eq, toInt_eq_iff]
    omega

/-- So does that of `setattr`. -/
theorem setattrFill_exact (hv : v.length < 2 ^ 31) :
    FillExact (setattrFill (.ofNat v.length) size) (size.toNat - v.length) ↔
      size.toNat < v.length + 2 ^ 31 := by
  have hnat : (UInt32.ofNat v.length).toUInt64.toNat = v.length :=
    (UInt32.toNat_toUInt64 _).trans (UInt32.toNat_ofNat_of_lt (hv.trans (by decide)))
  unfold FillExact setattrFill
  split_ifs with hlt
  · rw [UInt64.lt_iff_toNat_lt, hnat] at hlt
    exact iff_of_true nofun (Nat.lt_add_right _ hlt)
  · have hle : v.length ≤ size.toNat := by
      rw [← hnat, ← UInt64.le_iff_toNat_le]
      exact UInt64.not_lt.mp hlt
    have hsub : (size - (UInt32.ofNat v.length).toUInt64).toNat = size.toNat - v.length := by
      rw [UInt64.toNat_sub_of_le _ _ (UInt64.not_lt.mp hlt), hnat]
    have hgap : (size.toNat : Int) - v.length = ((size.toNat - v.length : ℕ) : Int) := by omega
    simp only [Option.some.injEq, forall_eq']
    rw [hsub, hgap, toInt_eq_iff]
    omega

/-- The call has failed and left the content, or made it one with `Q`. -/
def Sound (c : String) (ino : Inum) (v : Bytes) (p : Prog Fault Inum (Sys Disk) Status)
    (Q : Bytes → Prop) (s : Sys Disk) : Prop :=
  ∃ r s', p.run s = .done r s' ∧
    (r ≠ .ok ∧ content c s' ino = some v ∨ ∃ v', content c s' ino = some v' ∧ Q v')

/-- `write` puts its bytes in place, and gives the content its length. -/
def WriteSound (c : String) (ino : Inum) (v : Bytes) (off : Int64) (data : Bytes) :
    Sys Disk → Prop :=
  Sound c ino v (write (soloEc c) ino off data) fun v' =>
    HasAt v' off.toInt.toNat data ∧ v'.length = max v.length (off.toInt.toNat + data.length)

/-- `setattr` gives the content its length. -/
def SetattrSound (c : String) (ino : Inum) (v : Bytes) (size : UInt64) : Sys Disk → Prop :=
  Sound c ino v (setattr (soloEc c) ino size) fun v' => v'.length = size.toNat

theorem writeSound_iff (ha : Alone c s) (hv : content c s ino = some v) :
    WriteSound c ino v off data s ↔ ∃ v', writeAt v off data = .ok v' ∧
      HasAt v' off.toInt.toNat data ∧
      v'.length = max v.length (off.toInt.toNat + data.length) := by
  constructor
  · rintro ⟨r, s', hrun, hcase⟩
    obtain ⟨rfl, v', hw, hl⟩ := Prog.wp_run (wp_write ha hv) hrun
    obtain ⟨hr, -⟩ | ⟨v'', hv'', hat⟩ := hcase
    · exact absurd rfl hr
    · rw [hl.content] at hv''
      cases hv''
      exact ⟨v', hw, hat⟩
  · rintro ⟨v', hw, hat⟩
    obtain ⟨r, s', hrun, -, v'', hw', hl⟩ | ⟨e, s', -, hw'⟩ := Prog.wp_cases (wp_write ha hv)
    · rw [hw] at hw'
      cases hw'
      exact ⟨r, s', hrun, .inr ⟨_, hl.content, hat⟩⟩
    · rw [hw] at hw'
      cases hw'

theorem setattrSound_iff (ha : Alone c s) (hv : content c s ino = some v) :
    SetattrSound c ino v size s ↔
      (.ofNat v.length : UInt32).toUInt64 = size ∧ v.length = size.toNat ∨
      (.ofNat v.length : UInt32).toUInt64 ≠ size ∧
        ∃ v', resize v (.ofNat v.length) size = .ok v' ∧ v'.length = size.toNat := by
  constructor
  · rintro ⟨r, s', hrun, hcase⟩
    obtain ⟨rfl, hw⟩ := Prog.wp_run (wp_setattr ha hv) hrun
    obtain ⟨hr, -⟩ | ⟨v'', hv'', hlen⟩ := hcase
    · exact absurd rfl hr
    · obtain ⟨heq, hl⟩ | ⟨hne, v', hr, hl⟩ := hw
      · rw [hl.content] at hv''
        cases hv''
        exact .inl ⟨heq, hlen⟩
      · rw [hl.content] at hv''
        cases hv''
        exact .inr ⟨hne, _, hr, hlen⟩
  · intro hcase
    obtain ⟨r, s', hrun, -, hw⟩ | ⟨e, s', -, hne, he⟩ := Prog.wp_cases (wp_setattr ha hv)
    · refine ⟨r, s', hrun, .inr ?_⟩
      obtain ⟨heq, hl⟩ | ⟨hne, v', hr, hl⟩ := hw
      · obtain ⟨-, hlen⟩ | ⟨hne, -⟩ := hcase
        · exact ⟨v, hl.content, hlen⟩
        · exact absurd heq hne
      · obtain ⟨heq, -⟩ | ⟨-, v'', hr', hlen⟩ := hcase
        · exact absurd heq hne
        · rw [hr] at hr'
          cases hr'
          exact ⟨v', hl.content, hlen⟩
    · obtain ⟨heq, -⟩ | ⟨-, v'', hr', -⟩ := hcase
      · exact absurd heq hne
      · rw [he] at hr'
        cases hr'

/-- What a zero fill is long. -/
theorem length_fill {n : Int} {zeros : Bytes} (h : fill n = some zeros) :
    (zeros.length : Int) = n := by
  unfold fill at h
  split_ifs at h with hn
  cases h
  rw [List.length_replicate]
  omega

/-- `write` is sound exactly if the gap is below 2^31. -/
theorem writeSound_iff_gap (ha : Alone c s) (hv : content c s ino = some v)
    (hlen : v.length < 2 ^ 31)
    (h0 : 0 ≤ off.toInt) : WriteSound c ino v off data s ↔ off.toInt < v.length + 2 ^ 31 := by
  rw [writeSound_iff ha hv]
  constructor
  · rintro ⟨v', hw, -, hlen'⟩
    by_contra hge
    have hsize : toInt v.length = (v.length : Int) := toInt_eq_iff.mpr hlen
    have hfill : writeFill v off = some (off.toInt - v.length).toInt32.toInt := by
      rw [writeFill, hsize, if_neg (by omega)]
    rw [writeAt_fill hfill] at hw
    cases hz : fill (off.toInt - v.length).toInt32.toInt with
    | none =>
      rw [hz] at hw
      cases hw
    | some zeros =>
      -- the fill is shorter than the gap
      have hzeros := length_fill hz
      have := Int32.toInt_lt (off.toInt - v.length).toInt32
      simp only [hz, Except.ok.injEq] at hw
      rw [← hw, List.length_append, List.length_append] at hlen'
      omega
  · intro hgap
    exact ⟨_, writeAt_of_gap hlen h0 hgap, splice_hasAt, length_splice⟩

/-- So is `setattr`. -/
theorem setattrSound_iff_gap (ha : Alone c s) (hv : content c s ino = some v)
    (hlen : v.length < 2 ^ 31) :
    SetattrSound c ino v size s ↔ size.toNat < v.length + 2 ^ 31 := by
  have hsmall : (UInt32.ofNat v.length).toNat = v.length :=
    UInt32.toNat_ofNat_of_lt (hlen.trans (by decide))
  have hnat : (UInt32.ofNat v.length).toUInt64.toNat = v.length :=
    (UInt32.toNat_toUInt64 _).trans hsmall
  rw [setattrSound_iff ha hv]
  constructor
  · rintro (⟨-, heq⟩ | ⟨-, v', hr, hlen'⟩)
    · omega
    · by_contra hge
      have hlt : ¬ size < (UInt32.ofNat v.length).toUInt64 := by
        rw [UInt64.lt_iff_toNat_lt, hnat]
        omega
      have hfill : setattrFill (.ofNat v.length) size =
          some (toInt (size - (UInt32.ofNat v.length).toUInt64).toNat) := if_neg hlt
      rw [resize_fill hfill] at hr
      cases hz : fill (toInt (size - (UInt32.ofNat v.length).toUInt64).toNat) with
      | none =>
        rw [hz] at hr
        cases hr
      | some zeros =>
        have hzeros := length_fill hz
        have := Int32.toInt_lt (Int32.ofNat (size - (UInt32.ofNat v.length).toUInt64).toNat)
        simp only [hz, Except.ok.injEq] at hr
        rw [toInt] at hzeros
        rw [← hr, List.length_append] at hlen'
        omega
  · intro hgap
    by_cases heq : (UInt32.ofNat v.length).toUInt64 = size
    · exact .inl ⟨heq, by rw [← heq, hnat]⟩
    · refine .inr ⟨heq, _, Extent.resize_fit hsmall hgap, ?_⟩
      rw [Extent.fit, List.length_append, List.length_take, List.length_replicate]
      omega

/-- `A` has made a file. -/
theorem life_created : Life "A" created := by
  have hrun : ((Call.create 1 [120]).prog (soloEc "A")).run started =
      .done (.made .ok (some 5)) created :=
    Prog.Outcome.eq_done (by decide +kernel)
  exact life_started.call hrun

theorem content_created : content "A" created 5 = some [] := by decide +kernel

end Arithmetic

end Yfs.Fs
