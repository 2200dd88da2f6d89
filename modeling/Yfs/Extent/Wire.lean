import Mathlib.Data.UInt
import Yfs.Extent.Server
import Yfs.Rpc.Marshall
import Yfs.Rpc.Stubs

/-!
# The extent service on the wire

The calls between extent clients and the extent server as they are made: through the stubs of
`rpc.h`, with the numbers and the types that each side gives. The two programs name them
separately, one in its calls and the other where it registers its handlers, and nothing else
checks that they agree.

They do: over a network that carries the bytes, each call of a client is the call that the model of
clients and server makes (`Wire.calls_carried`), and so is each callback of the server
(`Wire.callbacks_carried`).
-/

namespace Yfs.Extent

open Rpc (Signature Handler Network reg)

/-- The marshalling operators of `librpc.a`. A string is either an id or the content of a file. -/
structure Wire where
  uint : Codec UInt8 UInt32
  ulong : Codec UInt8 UInt64
  int : Codec UInt8 Int32
  name : Codec UInt8 String
  str : Codec UInt8 Bytes

/-- What variables hold that are not initialized. -/
structure Uninit where
  uint : UInt32
  ulong : UInt64
  int : Int32
  attr : Attr

namespace Wire

/-- The operators read what they wrote: all numbers, and the strings with `N` and `B`. -/
structure Lawful (w : Wire) (N : String → Prop) (B : Bytes → Prop) : Prop where
  uint : ∀ z, w.uint.Reads z fun _ => True
  ulong : ∀ z, w.ulong.Reads z fun _ => True
  int : ∀ z, w.int.Reads z fun _ => True
  name : ∀ z, w.name.Reads z N
  str : ∀ z, w.str.Reads z B

variable (w : Wire)

/-- `operator<<` and `operator>>` for `extent_protocol::attr`. -/
def attr : Codec UInt8 Attr :=
  (w.uint.pair (w.uint.pair (w.uint.pair (w.uint.pair w.uint)))).iso
    (fun (type, atime, mtime, ctime, size) => ⟨type, atime, mtime, ctime, size⟩)
    (fun a => (a.type, a.atime, a.mtime, a.ctime, a.size))

theorem Lawful.attr {w : Wire} {N : String → Prop} {B : Bytes → Prop} (hw : w.Lawful N B)
    (z : Attr) : w.attr.Reads z fun _ => True := by
  have h := (hw.uint z.type).pair ((hw.uint z.atime).pair ((hw.uint z.mtime).pair
    ((hw.uint z.ctime).pair (hw.uint z.size))))
  exact Codec.Reads.iso h fun a _ => ⟨⟨trivial, trivial, trivial, trivial, trivial⟩, rfl⟩

/-! ## `extent_protocol` and `rextent_protocol` -/

def put : Signature (String × ExtentId × Bytes) Int32 :=
  ⟨0x6001, w.name.pair (w.ulong.pair w.str), w.int⟩
def get : Signature (String × ExtentId) Bytes := ⟨0x6002, w.name.pair w.ulong, w.str⟩
def getattr : Signature (String × ExtentId) Attr := ⟨0x6003, w.name.pair w.ulong, w.attr⟩
def remove : Signature (String × ExtentId) Int32 := ⟨0x6004, w.name.pair w.ulong, w.int⟩
def create : Signature (String × UInt32) ExtentId := ⟨0x6005, w.name.pair w.uint, w.ulong⟩

def flush : Signature ExtentId Int32 := ⟨0x9001, w.ulong, w.int⟩
def get_attr : Signature ExtentId Attr := ⟨0x9002, w.ulong, w.attr⟩
def flush_rm : Signature ExtentId Int32 := ⟨0x9003, w.ulong, w.int⟩

/-! ## Where the handlers are registered -/

section Procs

variable {ι τ σ : Type} (m : Uninit)

/-- `int extent_server::put(..., int &)` and its like, which do not set the result. -/
def leaves {α : Type} (p : α → Prog Fault ι σ Status) (a : α) (r : Int32) :
    Prog Fault ι σ (Status × Int32) := do
  let ret ← p a
  pure (ret, r)

/-- `main` of `extent_server`. -/
def serverProcs (L : InodeLayer τ) (running : String → Bool)
    (procs : UInt32 → Option (Handler Fault ι (Sys τ))) :
    UInt32 → Option (Handler Fault ι (Sys τ)) :=
  let procs := reg procs w.get ("", m.ulong) [] fun x _ => Server.get L running x.1 x.2
  let procs := reg procs w.getattr ("", m.ulong) m.attr fun x _ => Server.getattr L running x.1 x.2
  let procs := reg procs w.put ("", m.ulong, []) m.int
    (leaves fun x => Server.put L x.1 x.2.1 x.2.2)
  let procs := reg procs w.remove ("", m.ulong) m.int
    (leaves fun x => Server.remove L running x.1 x.2)
  reg procs w.create ("", m.uint) m.ulong fun x _ => Server.create L x.1 x.2

/-- The constructor of `extent_client`; `put` is the call that `flush_handler` makes. -/
def clientProcs (C : Host σ) (put : String → ExtentId → Bytes → Prog Fault ι σ Status)
    (procs : UInt32 → Option (Handler Fault ι σ)) : UInt32 → Option (Handler Fault ι σ) :=
  let procs := reg procs w.flush m.ulong m.int (leaves (Client.flush_handler C put))
  let procs := reg procs w.flush_rm m.ulong m.int (leaves (Client.flush_rm_handler C))
  reg procs w.get_attr m.ulong m.attr fun id _ => Client.get_attr_handler C id

/-! ## The calls -/

variable (verify : Fault) (call1 : Network Fault ι σ)

/-- A call whose result variable is not looked at. -/
def call_ {α : Type} (p : Signature α Int32) (a : α) : Prog Fault ι σ Status := do
  let (ret, _) ← Rpc.call verify call1 p a m.int
  pure ret

/-- The calls of `extent_client`. -/
def calls : Calls Fault ι σ where
  create clt type id := Rpc.call verify call1 w.create (clt, type) id
  put clt id buf := call_ m verify call1 w.put (clt, id, buf)
  get clt id buf := Rpc.call verify call1 w.get (clt, id) buf
  getattr clt id a := Rpc.call verify call1 w.getattr (clt, id) a
  remove clt id := call_ m verify call1 w.remove (clt, id)

/-- What the server calls at the owner of a file. -/
def flushAt (id : ExtentId) : Prog Fault ι σ Status := call_ m verify call1 w.flush id
@[inherit_doc flushAt] def flushRmAt (id : ExtentId) : Prog Fault ι σ Status :=
  call_ m verify call1 w.flush_rm id
@[inherit_doc flushAt] def getAttrAt (id : ExtentId) : Prog Fault ι σ (Status × Attr) :=
  Rpc.call verify call1 w.get_attr id m.attr

end Procs

/-! ## Over a network that carries the bytes -/

section Carried

variable {w : Wire} {N : String → Prop} {B : Bytes → Prop} (hw : w.Lawful N B) {ι τ σ : Type}
  (m : Uninit) (verify : Fault)

include hw

theorem Lawful.idPair (z : String × ExtentId) :
    (w.name.pair w.ulong).Reads z fun x => N x.1 ∧ True :=
  (hw.name z.1).pair (hw.ulong z.2)

/-- A call of a method that does not set the result gives the status of the method. -/
theorem Lawful.call_eq {α : Type} {p : Signature α Int32} {a a₀ : α} {r₀ : Int32} {A : α → Prop}
    {call1 : Network Fault ι σ} {meth : α → Prog Fault ι σ Status} (hres : p.res = w.int)
    (hargs : p.args.Reads a₀ A) (ha : A a)
    (hcall1 : ∀ req, call1 p.proc req = Rpc.fn p a₀ r₀ (leaves meth) (.new req)) :
    call_ m verify call1 p a = meth a := by
  have hint : p.res.Reads m.int fun _ => True := hres ▸ hw.int m.int
  have h := (Rpc.call_agrees hargs ha hint verify hcall1).eq fun _ => .inr trivial
  rw [call_, h, Rpc.direct, leaves, bind_assoc, bind_assoc]
  exact Prog.bind_ret (meth a)

/-- **The calls of the extent clients**, through the stubs and the network, are the calls of the
model: the numbers and the types of the two sides agree. Of a file that is read, the content
has to be one that can be sent. -/
theorem Lawful.calls_carried (L : InodeLayer τ) (running : String → Bool)
    (procs : UInt32 → Option (Handler Fault ι (Sys τ))) {call1 : Network Fault ι (Sys τ)}
    (hcall1 : call1.Carries (w.serverProcs m L running procs)) {clt : String} (hclt : N clt) :
    (∀ type id, (w.calls m verify call1).create clt type id =
      (Sys.calls L running).create clt type id) ∧
    (∀ id buf, B buf → (w.calls m verify call1).put clt id buf =
      (Sys.calls L running).put clt id buf) ∧
    (∀ id buf, ((Sys.calls L running).get clt id buf).Agrees (fun x => B x.2)
      ((w.calls m verify call1).get clt id buf)) ∧
    (∀ id a, (w.calls m verify call1).getattr clt id a =
      (Sys.calls L running).getattr clt id a) ∧
    (∀ id, (w.calls m verify call1).remove clt id = (Sys.calls L running).remove clt id) := by
  refine ⟨fun type id => ?_, fun id buf hbuf => ?_, fun id buf => ?_, fun id a => ?_, fun id => ?_⟩
  · have hargs : w.create.args.Reads ("", m.uint) fun x => N x.1 ∧ True :=
      (hw.name _).pair (hw.uint _)
    have hc := Rpc.call_agrees hargs (a := (clt, type)) ⟨hclt, trivial⟩ (hw.ulong id) verify
      (hcall1 _ _ rfl)
    exact hc.eq fun _ => .inr trivial
  · have hargs : w.put.args.Reads ("", m.ulong, []) fun x => N x.1 ∧ True ∧ B x.2.2 :=
      (hw.name _).pair ((hw.ulong _).pair (hw.str _))
    exact hw.call_eq m verify (a := (clt, id, buf)) rfl hargs ⟨hclt, trivial, hbuf⟩
      (hcall1 _ _ rfl)
  · have hargs : w.get.args.Reads ("", m.ulong) fun x => N x.1 ∧ True := hw.idPair _
    have hc := Rpc.call_agrees hargs (a := (clt, id)) ⟨hclt, trivial⟩ (hw.str buf) verify
      (hcall1 _ _ rfl)
    have hget : Rpc.direct (fun x _ => Server.get L running x.1 x.2) (clt, id) [] buf =
        ((Sys.calls L running).get clt id buf : Prog Fault ι (Sys τ) (Status × Bytes)) := by
      simp only [Rpc.direct, Sys.calls, Server.get, bind_assoc, pure_bind]
      rfl
    rw [hget] at hc
    obtain ⟨g, hg, hP⟩ := hc
    exact ⟨g, hg, fun x hx => hP x (.inr hx)⟩
  · have hargs : w.getattr.args.Reads ("", m.ulong) fun x => N x.1 ∧ True := hw.idPair _
    have hc := Rpc.call_agrees hargs (a := (clt, id)) ⟨hclt, trivial⟩ (hw.attr a) verify
      (hcall1 _ _ rfl)
    refine (hc.eq fun _ => .inr trivial).trans ?_
    simp only [Rpc.direct, Sys.calls, Server.getattr, bind_assoc, pure_bind]
    rfl
  · have hargs : w.remove.args.Reads ("", m.ulong) fun x => N x.1 ∧ True := hw.idPair _
    exact hw.call_eq m verify (a := (clt, id)) rfl hargs ⟨hclt, trivial⟩ (hcall1 _ _ rfl)

/-- **The callbacks of the server** are the handlers of the client that it calls. -/
theorem Lawful.callbacks_carried (C : Host σ)
    (put : String → ExtentId → Bytes → Prog Fault ι σ Status)
    (procs : UInt32 → Option (Handler Fault ι σ)) {call1 : Network Fault ι σ}
    (hcall1 : call1.Carries (w.clientProcs m C put procs)) (id : ExtentId) :
    w.flushAt m verify call1 id = Client.flush_handler C put id ∧
    w.flushRmAt m verify call1 id = Client.flush_rm_handler C id ∧
    w.getAttrAt m verify call1 id = Client.get_attr_handler C id := by
  refine ⟨?_, ?_, ?_⟩
  · exact hw.call_eq m verify rfl (hw.ulong _) trivial (hcall1 _ _ rfl)
  · exact hw.call_eq m verify rfl (hw.ulong _) trivial (hcall1 _ _ rfl)
  · have hargs : w.get_attr.args.Reads m.ulong fun _ => True := hw.ulong _
    have hc := Rpc.call_agrees hargs (a := id) trivial (hw.attr m.attr) verify (hcall1 _ _ rfl)
    refine (hc.eq fun _ => .inr trivial).trans ?_
    simp only [Rpc.direct, Client.get_attr_handler, bind_assoc, pure_bind]
    rfl

/-- **The service on the wire is the service of the model**: every call of a client and every
callback of the server gets to the handler it is meant for, with its arguments, and brings back
what the handler returns. -/
theorem service_carried (L : InodeLayer τ) (running : String → Bool) (C : Host (Sys τ))
    (put : String → ExtentId → Bytes → Prog Fault ι (Sys τ) Status)
    (procs procs' : UInt32 → Option (Handler Fault ι (Sys τ)))
    {call1 back : Network Fault ι (Sys τ)}
    (hcall1 : call1.Carries (w.serverProcs m L running procs))
    (hback : back.Carries (w.clientProcs m C put procs')) {clt : String} (hclt : N clt)
    (id : ExtentId) :
    ((∀ type id, (w.calls m verify call1).create clt type id =
        (Sys.calls L running).create clt type id) ∧
      (∀ buf, B buf → (w.calls m verify call1).put clt id buf =
        (Sys.calls L running).put clt id buf) ∧
      (∀ buf, ((Sys.calls L running).get clt id buf).Agrees (fun x => B x.2)
        ((w.calls m verify call1).get clt id buf)) ∧
      (∀ a, (w.calls m verify call1).getattr clt id a =
        (Sys.calls L running).getattr clt id a) ∧
      (w.calls m verify call1).remove clt id = (Sys.calls L running).remove clt id) ∧
    w.flushAt m verify back id = Client.flush_handler C put id ∧
    w.flushRmAt m verify back id = Client.flush_rm_handler C id ∧
    w.getAttrAt m verify back id = Client.get_attr_handler C id := by
  obtain ⟨hcreate, hput, hget, hgetattr, hremove⟩ :=
    hw.calls_carried m verify L running procs hcall1 hclt
  exact ⟨⟨hcreate, hput id, hget id, hgetattr id, hremove id⟩,
    hw.callbacks_carried m verify C put procs' hback id⟩

end Carried

/-! ## Operators that read what they wrote -/

/-- The bytes of a string, behind their number. -/
def text : Codec UInt8 Bytes where
  put := (Rpc.vector Rpc.bigEndian 0 Codec.byte 0).put
  get _ := (Rpc.vector Rpc.bigEndian 0 Codec.byte 0).get []

theorem text_reads (z : Bytes) : text.Reads z fun b => b.length < 2 ^ 32 := by
  have h : (Rpc.vector Rpc.bigEndian 0 Codec.byte 0).Reads [] fun b => b.length < 2 ^ 32 :=
    (Rpc.vector_reads (Rpc.bigEndian_reads 0) (Codec.byte_reads 0)).mono
      fun b hb => ⟨hb, fun _ _ => trivial⟩
  exact ⟨h.get_put, h.failed, h.cut⟩

/-- Eight bytes. -/
def twoWords : Codec UInt8 UInt64 :=
  (Rpc.bigEndian.pair Rpc.bigEndian).iso (fun (a, b) => .ofNat (a.toNat * 2 ^ 32 + b.toNat))
    (fun x => (.ofNat (x.toNat / 2 ^ 32), .ofNat x.toNat))

theorem twoWords_reads (z : UInt64) : twoWords.Reads z fun _ => True := by
  refine Codec.Reads.iso (P := fun _ => True ∧ True)
    ((Rpc.bigEndian_reads _).pair (Rpc.bigEndian_reads _)) fun x _ => ⟨⟨trivial, trivial⟩, ?_⟩
  apply UInt64.toNat_inj.mp
  have := x.toNat_lt
  simp only [UInt32.toNat_ofNat', UInt64.toNat_ofNat']
  omega

/-- A string whose characters are bytes. -/
def bytesText : Codec UInt8 String :=
  text.iso (fun b => .ofList (b.map fun c => Char.ofNat c.toNat))
    (fun s => s.toList.map fun c => .ofNat c.toNat)

theorem bytesText_reads (z : String) : bytesText.Reads z fun s =>
    s.toList.length < 2 ^ 32 ∧ ∀ c ∈ s.toList, c.toNat < 256 := by
  refine Codec.Reads.iso (text_reads _) fun s hs => ⟨?_, ?_⟩
  · rw [List.length_map]
    exact hs.1
  · have hmap : (s.toList.map fun c => UInt8.ofNat c.toNat).map (fun c => Char.ofNat c.toNat) =
        s.toList := by
      rw [List.map_map]
      refine (List.map_congr_left fun c hc => ?_).trans (List.map_id _)
      show Char.ofNat (UInt8.ofNat c.toNat).toNat = c
      rw [UInt8.toNat_ofNat_of_lt' (hs.2 c hc), Char.ofNat_toNat]
    rw [hmap, String.ofList_toList]

/-- Operators that write the bytes in network order. -/
def network : Wire where
  uint := Rpc.bigEndian
  ulong := twoWords
  int := Rpc.bigEndian.iso UInt32.toInt32 Int32.toUInt32
  name := bytesText
  str := text

theorem network_lawful : network.Lawful
    (fun s => s.toList.length < 2 ^ 32 ∧ ∀ c ∈ s.toList, c.toNat < 256)
    (fun b => b.length < 2 ^ 32) where
  uint := Rpc.bigEndian_reads
  ulong := twoWords_reads
  int z := Codec.Reads.iso (Rpc.bigEndian_reads z.toUInt32) fun _ _ => ⟨trivial, rfl⟩
  name := bytesText_reads
  str := text_reads

/-- A network that carries the calls to these handlers. -/
def carrier {ι σ : Type} (procs : UInt32 → Option (Handler Fault ι σ)) : Network Fault ι σ :=
  fun proc req =>
    match procs proc with
    | some h => h (.new req)
    | none => .fail .nullDeref

theorem carrier_carries {ι σ : Type} (procs : UInt32 → Option (Handler Fault ι σ)) :
    (carrier procs).Carries procs := by
  intro proc h hproc req
  rw [carrier, hproc]

/-- An inode layer that serves nothing. -/
def refusing : InodeLayer Unit := ⟨fun _ _ => none, fun _ _ _ _ => none, fun _ _ => none,
  fun _ _ => none, fun _ _ => none⟩

/-- All zeros. -/
def zeroed : Uninit := ⟨0, 0, 0, {}⟩

theorem service_carried_put :
    (network.calls (ι := Empty) zeroed .nullDeref (carrier (network.serverProcs zeroed refusing
      (fun _ => true) fun _ => none))).put "c" 2 [7] =
      (Sys.calls refusing fun _ => true).put "c" 2 [7] := by
  have hclt : "c".toList.length < 2 ^ 32 ∧ ∀ c ∈ "c".toList, c.toNat < 256 := by simp
  have h := service_carried network_lawful (ι := Empty) zeroed .nullDeref refusing (fun _ => true)
    (Sys.host "c") (Server.put refusing) (fun _ => none) (fun _ => none) (carrier_carries _)
    (carrier_carries _) hclt 2
  exact h.1.2.1 [7] (by decide)

end Wire

end Yfs.Extent
