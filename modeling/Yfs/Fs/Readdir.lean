import Yfs.Fs.Store
import Yfs.Lib.Paging

/-!
# Directories in pages

`fuseserver_readdir`: the kernel asks for a directory in pages. Every time the whole directory
is put into a buffer, and the reply is a piece of that, from the offset that the kernel gives;
an entry comes with the size that the buffer has after it as its offset. The kernel takes the
entries that a page has completely and goes on from the last offset, as long as pages are not
empty, and so it gets the directory (`readdir_pages`).

`size_t` and `off_t` are numbers without bound: a buffer is in memory, so its size is far from
theirs. An offset from the kernel is what it is as a `size_t`.
-/

namespace Yfs.Fs

open Extent (Bytes Ec Fault T_DIR)

/-- What is not in this repository: how `libfuse` writes an entry, and how the kernel reads one. -/
structure Fuse where
  fuse_dirent_size : ℕ → ℕ
  /-- what is written to the buffer for `name`, `stbuf->st_ino` and `off`; the rest of `stbuf` is
  zero -/
  fuse_add_dirent : Bytes → Inum → ℕ → Bytes
  /-- the first entry of a page with its offset, and what is behind it, if it is there completely -/
  nextDirent : Bytes → Option ((Dirent × ℕ) × Bytes)

/-- `s.c_str()`, up to the zero byte that ends it. -/
def c_str (s : Bytes) : Bytes := s.takeWhile (· ≠ 0)

/-- `struct dirbuf`. -/
structure Dirbuf where
  p : Bytes
  size : ℕ

/-- `ENOTDIR`. -/
def ENOTDIR : ℕ := 20

/-- What goes back to the kernel: `fuse_reply_err`, or `fuse_reply_buf`. -/
inductive FuseReply where
  | err (errno : ℕ)
  | buf (b : Bytes)
  deriving DecidableEq, Repr

section Code

variable {σ : Type} (ec : Ec Fault Inum σ) (fuse : Fuse)

/-- `dirbuf_add`, with a string that ends with its last byte. -/
def dirbuf_add (b : Dirbuf) (name : Bytes) (ino : Inum) : Dirbuf :=
  let size := b.size + fuse.fuse_dirent_size name.length
  { p := b.p ++ fuse.fuse_add_dirent name ino size, size }

/-- `reply_buf_limited`: what is replied of `buf`. -/
def reply_buf_limited (buf : Bytes) (bufsize off maxsize : ℕ) : Bytes :=
  if off < bufsize then (buf.drop off).take (min (bufsize - off) maxsize) else []

/-- `fuseserver_readdir`. Whether `readdir` worked is not looked at. -/
def fuseserver_readdir (inum : Inum) (size off : ℕ) : Prog Fault Inum σ FuseReply := do
  let dir ← isdir ec inum
  if !dir then pure (.err ENOTDIR)
  else
    let (_, entries) ← readdir ec inum
    let b := entries.foldl (fun b it => dirbuf_add fuse b (c_str it.name) it.inum) ⟨[], 0⟩
    pure (.buf (reply_buf_limited b.p b.size off size))

end Code

/-- An entry as the kernel gets it. -/
def Dirent.sent (e : Dirent) : Dirent := { e with name := c_str e.name }

/-- Entries in the buffer. -/
def Fuse.format (fuse : Fuse) : Format UInt8 Dirent where
  size e := fuse.fuse_dirent_size e.name.length
  write e off := fuse.fuse_add_dirent e.name e.inum off
  next := fuse.nextDirent

/-- `libfuse` can be relied on for these entries: every entry takes the size that it should, which
is not 0, and is read back with its offset, as long as it is there completely. -/
def Fuse.Carries (fuse : Fuse) (es : List Dirent) : Prop :=
  ∀ x ∈ fuse.format.marks 0 (es.map Dirent.sent), fuse.format.Good x.1 x.2

/-- In this state `yfs_client` lists these entries for the directory. -/
def Lists {σ : Type} (ec : Ec Fault Inum σ) (inum : Inum) (es : List Dirent) (s : σ) : Prop :=
  ∃ s' st s'', (isdir ec inum).run s = .done true s' ∧ (readdir ec inum).run s' = .done (st, es) s''

/-! ## The format of the entries -/

/-- The lowest `k` bytes of a number, from the lowest. -/
def leBytes : ℕ → ℕ → Bytes
  | 0, _ => []
  | k + 1, x => .ofNat x :: leBytes k (x / 256)

/-- The number with these bytes. -/
def leValue : Bytes → ℕ
  | [] => 0
  | b :: bs => b.toNat + 256 * leValue bs

@[simp] theorem length_leBytes (k x : ℕ) : (leBytes k x).length = k := by
  induction k generalizing x with
  | zero => rfl
  | succ k ih => rw [leBytes, List.length_cons, ih]

theorem leValue_leBytes {k x : ℕ} (h : x < 256 ^ k) : leValue (leBytes k x) = x := by
  induction k generalizing x with
  | zero =>
    rw [pow_zero] at h
    show 0 = x
    omega
  | succ k ih =>
    have hlt : x / 256 < 256 ^ k := Nat.div_lt_of_lt_mul (by rwa [pow_succ'] at h)
    rw [leBytes, leValue, ih hlt, UInt8.toNat_ofNat']
    omega

/-- `FUSE_DIRENT_ALIGN(FUSE_NAME_OFFSET + namelen)`. -/
def direntSize (namelen : ℕ) : ℕ := (24 + namelen + 7) / 8 * 8

/-- `ino`, `off`, `namelen` and `type`. -/
def direntHeader (ino off namelen : ℕ) : Bytes :=
  leBytes 8 ino ++ leBytes 8 off ++ leBytes 4 namelen ++ leBytes 4 0

/-- `struct fuse_dirent`, with the name behind it and zeros up to a multiple of 8. -/
def wire : Fuse where
  fuse_dirent_size := direntSize
  fuse_add_dirent name ino off := direntHeader ino.toNat off name.length ++ name ++
    List.replicate (direntSize name.length - 24 - name.length) 0
  nextDirent page :=
    let namelen := leValue ((page.drop 16).take 4)
    if 24 ≤ page.length ∧ direntSize namelen ≤ page.length then
      some ((⟨(page.drop 24).take namelen, .ofNat (leValue (page.take 8))⟩,
        leValue ((page.drop 8).take 8)), page.drop (direntSize namelen))
    else none

theorem length_direntHeader (ino off namelen : ℕ) : (direntHeader ino off namelen).length = 24 := by
  simp [direntHeader]

section Wire

variable {ino off namelen : ℕ} {es : List Dirent}

/-- The fields of the header. -/
theorem direntHeader_fields (ino off namelen : ℕ) (rest : Bytes) :
    (direntHeader ino off namelen ++ rest).take 8 = leBytes 8 ino ∧
    ((direntHeader ino off namelen ++ rest).drop 8).take 8 = leBytes 8 off ∧
    ((direntHeader ino off namelen ++ rest).drop 16).take 4 = leBytes 4 namelen ∧
    (direntHeader ino off namelen ++ rest).drop 24 = rest := by
  simp [direntHeader, List.drop_append, List.drop_of_length_le]

theorem direntSize_le (namelen : ℕ) : 24 + namelen ≤ direntSize namelen := by
  unfold direntSize
  omega

theorem length_fuse_add_dirent (name : Bytes) (ino : Inum) (off : ℕ) :
    (wire.fuse_add_dirent name ino off).length = direntSize name.length := by
  have hle := direntSize_le name.length
  simp only [wire, List.length_append, length_direntHeader, List.length_replicate]
  omega

/-- What the kernel reads behind a header. -/
theorem nextDirent_header (hino : ino < 2 ^ 64) (hoff : off < 2 ^ 64) (hname : namelen < 2 ^ 32)
    (rest : Bytes) :
    wire.nextDirent (direntHeader ino off namelen ++ rest) =
      if direntSize namelen ≤ 24 + rest.length then
        some ((⟨rest.take namelen, .ofNat ino⟩, off),
          (direntHeader ino off namelen ++ rest).drop (direntSize namelen))
      else none := by
  obtain ⟨h0, h8, h16, h24⟩ := direntHeader_fields ino off namelen rest
  have hlen : (direntHeader ino off namelen ++ rest).length = 24 + rest.length := by
    rw [List.length_append, length_direntHeader]
  simp only [wire, h0, h8, h16, h24, hlen, leValue_leBytes (k := 8) hino,
    leValue_leBytes (k := 8) hoff, leValue_leBytes (k := 4) hname]
  simp

/-- Entries are read as they were written. -/
theorem wire_good {e : Dirent} (hname : e.name.length < 2 ^ 32) (hoff : off < 2 ^ 64) :
    wire.format.Good e off := by
  have hlen := length_fuse_add_dirent e.name e.inum off
  have hle := direntSize_le e.name.length
  have hino := e.inum.toNat_lt
  refine ⟨?_, hlen, fun rest => ?_, fun page hpage hlt => ?_⟩
  · show 0 < direntSize e.name.length
    omega
  · have hsplit : wire.fuse_add_dirent e.name e.inum off ++ rest =
        direntHeader e.inum.toNat off e.name.length ++ (e.name ++
          (List.replicate (direntSize e.name.length - 24 - e.name.length) 0 ++ rest)) := by
      simp only [wire, List.append_assoc]
    show wire.nextDirent (wire.fuse_add_dirent e.name e.inum off ++ rest) = _
    rw [hsplit, nextDirent_header hino hoff hname, if_pos, ← hsplit, List.drop_left' hlen,
      List.take_left' rfl, UInt64.ofNat_toNat]
    simp only [List.length_append, List.length_replicate]
    omega
  · replace hlt : page.length < direntSize e.name.length := hlt
    by_cases hshort : page.length < 24
    case pos => exact if_neg fun h => absurd h.1 (Nat.not_le.mpr hshort)
    have hheader : direntHeader e.inum.toNat off e.name.length <+: page := by
      have hfront : direntHeader e.inum.toNat off e.name.length <+:
          wire.fuse_add_dirent e.name e.inum off :=
        (List.prefix_append _ _).trans (List.prefix_append _ _)
      refine List.prefix_of_prefix_length_le hfront hpage ?_
      rw [length_direntHeader]
      omega
    obtain ⟨rest, rfl⟩ := hheader
    rw [List.length_append, length_direntHeader] at hlt
    show wire.nextDirent _ = none
    rw [nextDirent_header hino hoff hname, if_neg (by omega)]

/-- The format can be relied on for every directory that it can number. -/
theorem carries_wire (hname : ∀ e ∈ es, (c_str e.name).length < 2 ^ 32)
    (htotal : wire.format.total (es.map Dirent.sent) < 2 ^ 64) : wire.Carries es := by
  intro x hx
  obtain ⟨hmem, hle⟩ := Format.mem_marks hx
  obtain ⟨e, he, heq⟩ := List.mem_map.mp hmem
  refine wire_good ?_ (by omega)
  rw [← heq]
  exact hname e he

end Wire

/-! ## Pages -/

section Pages

variable {σ : Type} {ec : Ec Fault Inum σ} {fuse : Fuse} {inum : Inum} {es : List Dirent} {s : σ}
  {b : Dirbuf} {size off : ℕ}

/-- A name without a zero byte is sent as it is. -/
theorem Dirent.sent_eq {e : Dirent} (h : (0 : UInt8) ∉ e.name) : e.sent = e := by
  have hname : c_str e.name = e.name := by
    rw [c_str, List.takeWhile_eq_self_iff]
    intro x hx
    refine decide_eq_true fun h0 => h (h0 ▸ hx)
  rw [Dirent.sent, hname]

/-- The loop of `fuseserver_readdir` puts all entries behind what is in the buffer. -/
theorem foldl_dirbuf_add :
    es.foldl (fun b it => dirbuf_add fuse b (c_str it.name) it.inum) b =
      ⟨b.p ++ fuse.format.buffer b.size (es.map Dirent.sent),
        b.size + fuse.format.total (es.map Dirent.sent)⟩ := by
  induction es generalizing b with
  | nil => rw [List.foldl_nil, List.map_nil, Format.buffer_nil, List.append_nil]; rfl
  | cons e es ih =>
    rw [List.foldl_cons, ih, List.map_cons, Format.buffer_cons, Format.total_cons,
      ← List.append_assoc, ← Nat.add_assoc]
    rfl

/-- What is cut from the buffer. -/
theorem reply_buf_limited_eq {buf : Bytes} :
    reply_buf_limited buf buf.length off size = (buf.drop off).take size := by
  unfold reply_buf_limited
  split
  case isTrue h => rw [List.take_eq_take_iff, List.length_drop]; omega
  case isFalse h => rw [List.drop_of_length_le (Nat.not_lt.mp h), List.take_nil]

/-- **One call** replies with a piece of the buffer. -/
theorem run_fuseserver_readdir (hs : Lists ec inum es s) (hfuse : fuse.Carries es) (size off : ℕ) :
    ∃ s', (fuseserver_readdir ec fuse inum size off).run s =
      .done (.buf (((fuse.format.buffer 0 (es.map Dirent.sent)).drop off).take size)) s' := by
  obtain ⟨s', st, s'', hdir, hread⟩ := hs
  refine ⟨s'', ?_⟩
  have hsize := Format.length_buffer hfuse
  rw [fuseserver_readdir, Prog.run_bind, hdir]
  show (readdir ec inum >>= _).run s' = _
  rw [Prog.run_bind, hread]
  show Prog.Outcome.done _ _ = _
  rw [foldl_dirbuf_add, Nat.zero_add, List.nil_append, ← hsize, reply_buf_limited_eq]

/-- The reply to call `k`, with room for `room k` bytes, when the state is `st k`. -/
def reply (ec : Ec Fault Inum σ) (fuse : Fuse) (inum : Inum) (st : ℕ → σ)
    (room : ℕ → ℕ) (k off : ℕ) :
    Bytes :=
  match (fuseserver_readdir ec fuse inum (room k) off).run (st k) with
  | .done (.buf b) _ => b
  | _ => []

/-- **A directory is read in pages.** As long as it lists the same entries, and every page has
room for any of them, all calls return, and the kernel gets all entries in order and once each,
some with every page, and then empty pages. Names without zero bytes are what they were. -/
theorem readdir_pages {st : ℕ → σ} {room : ℕ → ℕ} (hs : ∀ k, Lists ec inum es (st k))
    (hfuse : fuse.Carries es)
    (hroom : ∀ k, ∀ e ∈ es, fuse.fuse_dirent_size (c_str e.name).length ≤ room k) :
    (∀ k off, ∃ s', (fuseserver_readdir ec fuse inum (room k) off).run (st k) =
      .done (.buf (reply ec fuse inum st room k off)) s') ∧
    (∃ n, fuse.format.received (reply ec fuse inum st room) n = es.map Dirent.sent ∧
      (∀ k < n, fuse.format.entries (fuse.format.page (reply ec fuse inum st room) k) ≠ []) ∧
      ∀ k, n ≤ k → fuse.format.page (reply ec fuse inum st room) k = []) ∧
    ((∀ e ∈ es, (0 : UInt8) ∉ e.name) → es.map Dirent.sent = es) := by
  have hpiece : ∀ k off, reply ec fuse inum st room k off =
      ((fuse.format.buffer 0 (es.map Dirent.sent)).drop off).take (room k) := by
    intro k off
    obtain ⟨s', hrun⟩ := run_fuseserver_readdir (hs k) hfuse (room k) off
    rw [reply, hrun]
  refine ⟨fun k off => ?_, Format.reads_all hfuse hpiece fun k e he => ?_, fun hzero => ?_⟩
  · rw [hpiece]
    exact run_fuseserver_readdir (hs k) hfuse (room k) off
  · obtain ⟨e, hmem, rfl⟩ := List.mem_map.mp he
    exact hroom k e hmem
  · rw [List.map_congr_left fun e he => Dirent.sent_eq (hzero e he), List.map_id']

/-- What the plainest store lists is what is written there. -/
theorem lists_store {s : Store} {data : Bytes} (h : s.files inum = some ⟨Store.short T_DIR, data⟩) :
    Lists Store.ec inum (Directory.ofString data).getdir s := by
  refine ⟨s, .ok, s, ?_, ?_⟩
  · unfold isdir isType
    show (Store.ec.getattr inum {} >>= _).run s = _
    rw [Store.run_getattr h]
    rfl
  · unfold readdir
    show (Store.ec.get inum [] >>= _).run s = _
    rw [Store.run_get h]
    rfl

/-- A root directory with `a` and `bc` in it. -/
def twoEntries : List Dirent := [⟨[97], 2⟩, ⟨[98, 99], 3⟩]

@[inherit_doc twoEntries] def twoEntriesStore : Store :=
  ⟨fun i =>
    if i = 1 then some ⟨Store.short T_DIR, twoEntries.flatMap Directory.entryString⟩ else none, []⟩

theorem lists_twoEntries : Lists Store.ec 1 twoEntries twoEntriesStore := by
  have hread : (Directory.ofString (twoEntries.flatMap Directory.entryString)).getdir =
      twoEntries :=
    parse_print (by decide)
  have hs : twoEntriesStore.files 1 =
    some ⟨Store.short T_DIR, twoEntries.flatMap Directory.entryString⟩ := rfl
  have hlists := lists_store hs
  rwa [hread] at hlists

/-- The second entry is cut in the first page, and comes with the second. -/
theorem readdir_pages_two : ∃ n,
    wire.format.received (reply Store.ec wire 1 (fun _ => twoEntriesStore) fun _ => 39) n =
      twoEntries ∧
      wire.format.page (reply Store.ec wire 1 (fun _ => twoEntriesStore) fun _ => 39) n = [] := by
  have hroom : ∀ e ∈ twoEntries, wire.fuse_dirent_size (c_str e.name).length ≤ 39 := by decide
  obtain ⟨-, ⟨n, hall, -, hempty⟩, hsent⟩ := readdir_pages (fun _ => lists_twoEntries)
    (carries_wire (by decide) (by decide)) fun _ => hroom
  exact ⟨n, hall.trans (hsent (by decide)), hempty n le_rfl⟩

end Pages

end Yfs.Fs
