import Yfs.Fs.ByteArray

/-!
# What `unlink` does and does not

`unlink` of a single client drops the entry (`wp_unlink`), and that is all it does: of its
two conditions on `finum` the first one makes an absent name a success, and the second one
never lets the extent be removed. So no call of it is what it should be
(`not_unlinkContract`).
-/

namespace Yfs.Fs

open Extent (Bytes Fault OK Sys)
open Storage (Disk layer)

variable {c : String} {s : Sys Disk} {parent : Inum} {name v : Bytes}

/-- **`unlink` returns `OK`**, whether the name is there or not; if it is, the entry is dropped. The
server is not asked to remove anything. -/
theorem wp_unlink (ha : Alone c s) (hv : content c s parent = some v) :
    Prog.wp (unlink (soloEc c) parent name)
      (fun r s' => r = .ok ∧ Alone c s' ∧ onDisk s' = onDisk s ∧
        content c s' = if (Directory.ofString v).find name = 0 then content c s
          else Function.update (content c s) parent
            (some ((Directory.ofString v).delent name).tostring))
      (fun _ _ => False) s := by
  rw [unlink, Prog.lock_bind]
  show Prog.wp (_ >>= _) _ _ s
  rw [Prog.wp_bind]
  refine Prog.wp_mono (ha.get hv) ?_ fun _ _ h => h
  rintro _ s₁ ⟨rfl, ha₁, hcontent, hdisk⟩
  have hv₁ : content c s₁ parent = some v := by rw [hcontent, hv]
  simp only [ne_eq, not_true_eq_false, if_false]
  by_cases hfind : (Directory.ofString v).find name = 0
  · -- the comparison's value is 1, and the call is over
    rw [if_pos hfind, if_pos (by decide)]
    exact ⟨rfl, ha₁, hdisk, by rw [if_pos hfind, hcontent]⟩
  · simp only [if_neg hfind, not_true_eq_false, if_false, if_true, one_ne_zero, pure_bind]
    rw [Prog.wp_bind]
    refine Prog.wp_mono (ha₁.put hv₁) ?_ fun _ _ h => h
    rintro _ s₂ ⟨rfl, ha₂, hcontent₂, hdisk₂⟩
    exact ⟨rfl, ha₂, hdisk₂.trans hdisk, by rw [hcontent₂, hcontent]⟩

/-- What `unlink` is for, on a directory with the text `v`: an absent name is refused; a name that
is there is not found afterwards, the other entries stay in their order, and its extent goes from
the server. -/
def UnlinkContract (c : String) (s : Sys Disk) (parent : Inum) (name v : Bytes) : Prop :=
  ∃ r s', (unlink (soloEc c) parent name).run s = .done r s' ∧
    match (Directory.ofString v).getdir.find? (·.name = name) with
    | none => r = .noent ∧ content c s' = content c s ∧ onDisk s' = onDisk s
    | some e => r = .ok ∧
      (∃ s'', (lookup (soloEc c) parent name).run s' = .done (.noent, some (false, 0)) s'') ∧
      (∃ s'', (readdir (soloEc c) parent).run s' =
        .done (.ok, (Directory.ofString v).getdir.filter (·.name ≠ name)) s'') ∧
      onDisk s e.inum ≠ none ∧ onDisk s' e.inum = none

/-- **No `unlink` keeps its contract**, whatever a single client has done before. -/
theorem not_unlinkContract (h : Life c s) (hv : content c s parent = some v) :
    ¬ UnlinkContract c s parent name v := by
  rintro ⟨r, s', hrun, hcase⟩
  obtain ⟨rfl, -, hdisk, -⟩ := Prog.wp_run (wp_unlink h.alone hv) hrun
  split at hcase
  case h_1 =>
    obtain ⟨hr, -⟩ := hcase
    cases hr
  case h_2 e _ =>
    obtain ⟨-, -, -, hthere, hgone⟩ := hcase
    exact hthere (hdisk ▸ hgone)

/-- The root directory after the file has been made. -/
theorem content_root : content "A" created 1 = some [120, 47, 53, 47] := by decide +kernel

/-- A name that is not there, in the root directory that has another one. -/
theorem not_unlinkContract_absent : ¬ UnlinkContract "A" created 1 [121] [120, 47, 53, 47] :=
  not_unlinkContract life_created content_root

/-- A name that is not there is unlinked with `OK`, and the extent of one that is there stays. -/
theorem unlink_slips :
    (∃ s', (unlink (soloEc "A") 1 [121]).run created = .done .ok s') ∧
    (∃ s', (unlink (soloEc "A") 1 [120]).run created = .done .ok s' ∧ onDisk s' 5 ≠ none) ∧
    ¬ UnlinkContract "A" created 1 [121] [120, 47, 53, 47] ∧
    ¬ UnlinkContract "A" created 1 [120] [120, 47, 53, 47] := by
  have hfail : ∀ name r s', (unlink (soloEc "A") 1 name).run created = .done r s' →
      r = .ok ∧ onDisk s' = onDisk created := by
    intro name r s' hrun
    obtain ⟨hr, -, hdisk, -⟩ := Prog.wp_run (wp_unlink life_created.alone content_root) hrun
    exact ⟨hr, hdisk⟩
  refine ⟨⟨_, Prog.Outcome.eq_done (by decide +kernel)⟩,
    ⟨_, Prog.Outcome.eq_done (by decide +kernel), by decide +kernel⟩, ?_, ?_⟩
  · rintro ⟨r, s', hrun, hcase⟩
    obtain ⟨rfl, -⟩ := hfail _ _ _ hrun
    have hnone : (Directory.ofString [120, 47, 53, 47]).getdir.find? (·.name = [121]) = none := by
      decide +kernel
    rw [hnone] at hcase
    cases hcase.1
  · rintro ⟨r, s', hrun, hcase⟩
    obtain ⟨-, hdisk⟩ := hfail _ _ _ hrun
    have hsome : (Directory.ofString [120, 47, 53, 47]).getdir.find? (·.name = [120]) =
        some ⟨[120], 5⟩ := by
      decide +kernel
    rw [hsome] at hcase
    exact hcase.2.2.2.1 (hdisk ▸ hcase.2.2.2.2)

end Yfs.Fs
