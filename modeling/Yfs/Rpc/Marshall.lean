import Mathlib.Tactic.Common
import Mathlib.Data.UInt
import Yfs.Lib.Codec

/-!
# Containers on the wire

`marshall.h` writes a vector as its size and its elements, and a map as its size and its entries
in the order of the keys; both read the size back and loop. A vector is read behind what the
variable holds already, a map replaces it.

The operators for numbers and strings are in the binary `librpc.a`, so they are parameters:
codecs, of which is asked only that they read what they wrote and notice a missing end
(`Codec.Reads`). The containers then do the same, for contents of fewer than 2³² elements
(`containers_read`). A longer vector is never written: the `unsigned` index of the loop does not
get to its size.
-/

namespace Yfs.Rpc

/-- `operator<<` and `operator>>` for `std::vector<C>`; `n` and `z` are what `n` and `C z` are
before they are read. -/
def vector {α : Type} (unsigned : Codec UInt8 UInt32) (n : UInt32) (c : Codec UInt8 α) (z : α) :
    Codec UInt8 (List α) where
  put v := unsigned.put (.ofNat v.length) ++ v.flatMap c.put
  get v u :=
    let (n, u) := unsigned.get n u
    c.fold z (fun v z => v ++ [z]) n.toNat v u

/-- `operator<<` and `operator>>` for `std::map<A,B>`. -/
def map {α γ : Type} [Ord α] [Std.TransOrd α] (unsigned : Codec UInt8 UInt32) (n : UInt32)
    (ca : Codec UInt8 α) (a : α) (cb : Codec UInt8 γ) (b : γ) :
    Codec UInt8 (Std.ExtTreeMap α γ) where
  put d := unsigned.put (.ofNat d.size) ++ d.toList.flatMap (ca.pair cb).put
  get _ u :=
    let (n, u) := unsigned.get n u
    (ca.pair cb).fold (a, b) (fun d x => d.insert x.1 x.2) n.toNat ∅ u

section Containers

variable {α γ : Type} {unsigned : Codec UInt8 UInt32} {n : UInt32}

theorem foldl_push (l v : List α) : l.foldl (fun v z => v ++ [z]) v = v ++ l := by
  induction l generalizing v with
  | nil => exact (List.append_nil v).symm
  | cons a l ih =>
    rw [List.foldl_cons, ih, List.append_assoc]
    rfl

/-- What a loop over the entries of a map puts into an empty one. -/
theorem foldl_insert [Ord α] [Std.TransOrd α] [Std.LawfulEqOrd α] (d : Std.ExtTreeMap α γ) :
    d.toList.foldl (fun d x => d.insert x.1 x.2) ∅ = d := by
  rw [← Std.ExtTreeMap.ofList_eq_foldl]
  apply Std.ExtTreeMap.ext_getElem?
  intro k
  cases hk : d[k]? with
  | none =>
    classical
    apply Std.ExtTreeMap.getElem?_ofList_of_contains_eq_false
    rw [Std.ExtTreeMap.map_fst_toList_eq_keys]
    simpa using hk
  | some b =>
    exact Std.ExtTreeMap.getElem?_ofList_of_mem Std.ReflCmp.compare_self
      Std.ExtTreeMap.distinct_keys_toList (Std.ExtTreeMap.mem_toList_iff_getElem?_eq_some.mpr hk)

/-- A vector comes back behind what the variable holds. -/
theorem vector_get_put (hn : unsigned.Reads n fun _ => True) {c : Codec UInt8 α} {z : α}
    {P : α → Prop} (hc : c.Reads z P) (v₀ : List α) {v : List α} (hlen : v.length < 2 ^ 32)
    (hP : ∀ a ∈ v, P a) (rest : List UInt8) :
    (vector unsigned n c z).get v₀ (.new ((vector unsigned n c z).put v ++ rest)) =
      (v₀ ++ v, .new rest) := by
  simp only [vector, List.append_assoc, hn.get_put trivial, UInt32.toNat_ofNat_of_lt' hlen]
  rw [hc.fold_put _ hP, foldl_push]

theorem vector_reads (hn : unsigned.Reads n fun _ => True) {c : Codec UInt8 α} {z : α}
    {P : α → Prop} (hc : c.Reads z P) :
    (vector unsigned n c z).Reads [] fun v => v.length < 2 ^ 32 ∧ ∀ a ∈ v, P a := by
  have hread := hn.counted hc (w := []) (vector unsigned n c z) (fun v z => v ++ [z]) []
    (fun v => .ofNat v.length) UInt32.toNat id (fun _ => rfl) (fun _ => rfl)
  refine hread.mono fun v ⟨hlen, hP⟩ => ⟨trivial, ?_, hP, ?_⟩
  · exact UInt32.toNat_ofNat_of_lt' hlen
  · exact foldl_push v []

theorem map_reads [Ord α] [Std.TransOrd α] [Std.LawfulEqOrd α]
    (hn : unsigned.Reads n fun _ => True) {ca : Codec UInt8 α} {a : α} {P : α → Prop}
    (ha : ca.Reads a P) {cb : Codec UInt8 γ} {b : γ} {Q : γ → Prop} (hb : cb.Reads b Q)
    (d₀ : Std.ExtTreeMap α γ) :
    (map unsigned n ca a cb b).Reads d₀ fun d =>
      d.size < 2 ^ 32 ∧ ∀ x ∈ d.toList, P x.1 ∧ Q x.2 := by
  have hread := hn.counted (ha.pair hb) (w := d₀) (map unsigned n ca a cb b)
    (fun d x => d.insert x.1 x.2) ∅ (fun d => .ofNat d.size) UInt32.toNat (fun d => d.toList)
    (fun _ => rfl) (fun _ => rfl)
  refine hread.mono fun d ⟨hsize, hPQ⟩ => ⟨trivial, ?_, hPQ, foldl_insert d⟩
  rw [Std.ExtTreeMap.length_toList]
  exact UInt32.toNat_ofNat_of_lt' hsize

/-- **What was put in a container comes out of it**, for any elements that can be read: of a
vector behind what is there, of a map in place of it. And a message that ends inside a container
is noticed, wherever that is. -/
theorem containers_read [Ord α] [Std.TransOrd α] [Std.LawfulEqOrd α]
    (hn : unsigned.Reads n fun _ => True) {ca : Codec UInt8 α} {a : α} {P : α → Prop}
    (ha : ca.Reads a P) {cb : Codec UInt8 γ} {b : γ} {Q : γ → Prop} (hb : cb.Reads b Q)
    (d₀ : Std.ExtTreeMap α γ) :
    (∀ v₀ v : List α, v.length < 2 ^ 32 → (∀ a ∈ v, P a) → ∀ rest,
      (vector unsigned n ca a).get v₀ (.new ((vector unsigned n ca a).put v ++ rest)) =
        (v₀ ++ v, .new rest)) ∧
    (vector unsigned n ca a).Reads [] (fun v => v.length < 2 ^ 32 ∧ ∀ a ∈ v, P a) ∧
    (map unsigned n ca a cb b).Reads d₀ fun d =>
      d.size < 2 ^ 32 ∧ ∀ x ∈ d.toList, P x.1 ∧ Q x.2 :=
  ⟨fun v₀ _ hlen hP => vector_get_put hn ha v₀ hlen hP, vector_reads hn ha, map_reads hn ha hb d₀⟩

end Containers

/-- A number of four bytes, the first of which counts most. -/
def bigEndian : Codec UInt8 UInt32 :=
  (Codec.byte.pair (Codec.byte.pair (Codec.byte.pair Codec.byte))).iso
    (fun (a, b, c, d) => .ofNat (((a.toNat * 256 + b.toNat) * 256 + c.toNat) * 256 + d.toNat))
    (fun x => (.ofNat (x.toNat / 2 ^ 24), .ofNat (x.toNat / 2 ^ 16), .ofNat (x.toNat / 2 ^ 8),
      .ofNat x.toNat))

theorem bigEndian_reads (z : UInt32) : bigEndian.Reads z fun _ => True := by
  have h := (Codec.byte_reads (β := UInt8) (.ofNat (z.toNat / 2 ^ 24))).pair
    ((Codec.byte_reads (.ofNat (z.toNat / 2 ^ 16))).pair
      ((Codec.byte_reads (.ofNat (z.toNat / 2 ^ 8))).pair (Codec.byte_reads (.ofNat z.toNat))))
  refine Codec.Reads.iso h fun x _ => ⟨⟨trivial, trivial, trivial, trivial⟩, ?_⟩
  apply UInt32.toNat_inj.mp
  have := x.toNat_lt
  simp only [UInt8.toNat_ofNat', UInt32.toNat_ofNat']
  omega

theorem containers_read_numbers :
    (vector bigEndian 0 bigEndian 0).get [5] (.new ((vector bigEndian 0 bigEndian 0).put [6, 7])) =
      ([5, 6, 7], .new []) := by
  have h := (containers_read (bigEndian_reads 0) (bigEndian_reads 0) (bigEndian_reads 0) ∅).1
  exact h [5] [6, 7] (by decide) (fun _ _ => trivial) []

end Yfs.Rpc
