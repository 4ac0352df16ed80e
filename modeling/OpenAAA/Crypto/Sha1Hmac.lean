import OpenAAA.Lib.Rfc2104
import OpenAAA.Lib.Fips180
import OpenAAA.Sys.Compiler

/-!
`sha1_hmac` and its parts in `crypto/sha1.c`, over any hash that takes its message in
pieces. The inner digest is a pointer into the inner context, and the outer context reads
its bytes there.
-/

namespace OpenAAA.Sha1Hmac

open Memory Sys Rfc2104

variable {σ : Type}

/-- `struct sha1_hmac` -/
structure Hmac (σ : Type) where
  ictx : σ
  octx : σ

/-- The local variables of `sha1_hmac_init`, and the context in `sha1_hash`, before anything is
assigned to them. -/
structure Locals (σ : Type) where
  sha1 : σ
  keybuf : Mem
  buf : Mem

/-- `sha1_hash` on the context `s` -/
def sha1Hash (h : Streaming σ) (s : σ) (outbuf : Mem) (buf : List Byte) : Option Mem := do
  let s ← h.update (h.init s) buf
  let s ← h.final s
  pure (write outbuf 0 (read (h.buf s) 0 20))

/-- `keybuf` after the branches on the length of the key -/
def fillKey (h : Streaming σ) (locals : Locals σ) (key : List Byte) : Option Mem :=
  if key.length ≤ 64 then
    let keybuf := write locals.keybuf 0 key
    some (write keybuf key.length (List.replicate (64 - key.length) 0))
  else do
    let keybuf ← sha1Hash h locals.sha1 locals.keybuf key
    pure (write keybuf 20 (List.replicate (64 - 20) 0))

/-- `for (int i = 0; i < SHA1_BLOCK_SIZE; i++) buf[i] = keybuf[i] ^ x;` -/
def xorKey (buf keybuf : Mem) (x : Byte) : Mem :=
  (List.range 64).foldl (fun buf i => Function.update buf i (keybuf i ^^^ x)) buf

/-- `sha1_hmac_init` -/
def sha1HmacInit (h : Streaming σ) (locals : Locals σ) (hmac : Hmac σ) (key : List Byte) :
    Option (Hmac σ) := do
  let keybuf ← fillKey h locals key
  let ictx := h.init hmac.ictx
  let buf := xorKey locals.buf keybuf 0x36#8
  let ictx ← h.update ictx (read buf 0 64)
  let octx := h.init hmac.octx
  let buf := xorKey buf keybuf 0x5c#8
  let octx ← h.update octx (read buf 0 64)
  pure ⟨ictx, octx⟩

/-- `sha1_hmac_update` -/
def sha1HmacUpdate (h : Streaming σ) (hmac : Hmac σ) (data : List Byte) : Option (Hmac σ) := do
  let ictx ← h.update hmac.ictx data
  pure { hmac with ictx }

/-- `sha1_hmac_final`; the pointer it returns leads to the buffer of `octx`. -/
def sha1HmacFinal (h : Streaming σ) (hmac : Hmac σ) : Option (Hmac σ) := do
  let ictx ← h.final hmac.ictx
  let octx ← h.update hmac.octx (read (h.buf ictx) 0 20)
  let octx ← h.final octx
  pure ⟨ictx, octx⟩

/-- `sha1_hmac` on the variable `hmac`, with what it leaves at `buf` -/
def sha1Hmac (h : Streaming σ) (locals : Locals σ) (hmac : Hmac σ) (buf : Mem)
    (key data : List Byte) : Option Mem := do
  let hmac ← sha1HmacInit h locals hmac key
  let hmac ← sha1HmacUpdate h hmac data
  let hmac ← sha1HmacFinal h hmac
  pure (write buf 0 (read (h.buf hmac.octx) 0 20))

/-- `sha1_hmac_init`, one `sha1_hmac_update` for each piece, and the bytes that
`sha1_hmac_final` returns -/
def sha1HmacPieces (h : Streaming σ) (locals : Locals σ) (hmac : Hmac σ) (key : List Byte)
    (pieces : List (List Byte)) : Option (List Byte) := do
  let hmac ← sha1HmacInit h locals hmac key
  let hmac ← pieces.foldlM (sha1HmacUpdate h) hmac
  let hmac ← sha1HmacFinal h hmac
  pure (read (h.buf hmac.octx) 0 20)

section Keyed

variable {h : Streaming σ} {H : List Byte → List Byte}

theorem xorKey_apply (buf keybuf : Mem) (x : Byte) {i : Nat} (hi : i < 64) :
    xorKey buf keybuf x i = keybuf i ^^^ x :=
  foldl_update_apply (fun i => keybuf i ^^^ x) buf hi

theorem read_xorKey (buf keybuf : Mem) (x : Byte) :
    read (xorKey buf keybuf x) 0 64 = (read keybuf 0 64).map (· ^^^ x) := by
  unfold Memory.read
  rw [List.map_map]
  apply List.map_congr_left
  intro i hi
  rw [Nat.zero_add, xorKey_apply buf keybuf x (List.mem_range.mp hi), Function.comp_apply,
    Nat.zero_add]

/-- A key and the zeros behind it. -/
theorem read_filled (keybuf : Mem) {key : List Byte} (hkey : key.length ≤ 64) :
    read (write (write keybuf 0 key) key.length (List.replicate (64 - key.length) 0)) 0 64 =
      key ++ List.replicate (64 - key.length) 0 := by
  have happend := write_write_append keybuf 0 key (List.replicate (64 - key.length) 0)
  have hself := read_write_self keybuf 0 (key ++ List.replicate (64 - key.length) 0)
  have hlen : (key ++ List.replicate (64 - key.length) (0 : Byte)).length = 64 := by
    rw [List.length_append, List.length_replicate]
    omega
  rw [Nat.zero_add] at happend
  rw [hlen] at hself
  rw [happend, hself]

theorem sha1Hash_eq (hh : h.Hashes H 20 (2 ^ 32)) (s : σ) (outbuf : Mem) {buf : List Byte}
    (hbuf : buf.length < 2 ^ 32) : sha1Hash h s outbuf buf = some (write outbuf 0 (H buf)) := by
  obtain ⟨s', s'', hupdates, hfinal, hdigest⟩ := hh.digest s [buf] (by simpa using hbuf)
  rw [Streaming.updates_singleton] at hupdates
  simp [sha1Hash, hupdates, hfinal, hdigest]

/-- The key block is built, whichever of the lengths the key has. -/
theorem fillKey_eq (hh : h.Hashes H 20 (2 ^ 32)) (locals : Locals σ) {key : List Byte}
    (hkey : key.length < 2 ^ 32) :
    ∃ keybuf, fillKey h locals key = some keybuf ∧ read keybuf 0 64 = keyBlock H 64 key := by
  by_cases hshort : key.length ≤ 64
  · refine ⟨_, if_pos hshort, ?_⟩
    rw [read_filled locals.keybuf hshort, keyBlock, if_neg (by omega)]
  · have hlen := hh.length key
    have hfilled := read_filled locals.keybuf (show (H key).length ≤ 64 by omega)
    rw [hlen] at hfilled
    refine ⟨write (write locals.keybuf 0 (H key)) 20 (List.replicate (64 - 20) 0), ?_, ?_⟩
    · rw [fillKey, if_neg hshort, sha1Hash_eq hh locals.sha1 locals.keybuf hkey]
      rfl
    · rw [hfilled, keyBlock, if_pos (by omega), hlen]

theorem foldlM_sha1HmacUpdate (hmac : Hmac σ) (pieces : List (List Byte)) :
    pieces.foldlM (sha1HmacUpdate h) hmac =
      (h.updates hmac.ictx pieces).map fun ictx => { hmac with ictx } := by
  induction pieces generalizing hmac with
  | nil => rfl
  | cons p pieces ih =>
      rw [List.foldlM_cons, Streaming.updates_cons, sha1HmacUpdate]
      cases hu : h.update hmac.ictx p with
      | none => rfl
      | some ictx => exact ih { hmac with ictx }

/-- Both contexts begin with their pads; the message goes to the inner one and its digest to the
outer one. -/
theorem sha1HmacPieces_eq (hh : h.Hashes H 20 (2 ^ 32)) (locals : Locals σ) (hmac : Hmac σ)
    {key : List Byte} (hkey : key.length < 2 ^ 32) {pieces : List (List Byte)}
    (hpieces : ∀ p ∈ pieces, p.length < 2 ^ 32) :
    sha1HmacPieces h locals hmac key pieces = some (Rfc2104.hmac H 64 key pieces.flatten) := by
  obtain ⟨keybuf, hfill, hblock⟩ := fillKey_eq hh locals hkey
  have hpad : ∀ x : Byte, ((keyBlock H 64 key).map (· ^^^ x)).length < 2 ^ 32 := by
    intro x
    rw [List.length_map, ← hblock, read_length]
    decide
  obtain ⟨ictx, hinner, hmessage⟩ := hh.begun hmac.ictx (hpad 0x36#8)
  obtain ⟨octx, houter, hinnerDigest⟩ := hh.begun hmac.octx (hpad 0x5c#8)
  obtain ⟨ictx', ictx'', hupdates, hfinal, hdigest⟩ := hmessage pieces hpieces
  obtain ⟨octx', octx'', hupdates', hfinal', hdigest'⟩ :=
    hinnerDigest [H ((keyBlock H 64 key).map (· ^^^ 0x36#8) ++ pieces.flatten)] (by simp [hh.length])
  have hinit : sha1HmacInit h locals hmac key = some ⟨ictx, octx⟩ := by
    simp [sha1HmacInit, hfill, read_xorKey, hblock, hinner, houter]
  rw [Streaming.updates_singleton] at hupdates'
  have hlast : sha1HmacFinal h ⟨ictx', octx⟩ = some ⟨ictx'', octx''⟩ := by
    simp [sha1HmacFinal, hfinal, hdigest, hupdates', hfinal']
  rw [List.flatten_cons, List.flatten_nil, List.append_nil] at hdigest'
  simp [sha1HmacPieces, hinit, foldlM_sha1HmacUpdate, hupdates, hlast, hdigest', Rfc2104.hmac]

end Keyed

/-- `sha1_hmac` is the same calls with one piece. -/
theorem sha1Hmac_eq_pieces (h : Streaming σ) (locals : Locals σ) (hmac : Hmac σ) (buf : Mem)
    (key data : List Byte) : sha1Hmac h locals hmac buf key data =
      (sha1HmacPieces h locals hmac key [data]).map fun digest => write buf 0 digest := by
  simp only [sha1Hmac, sha1HmacPieces, List.foldlM_cons, List.foldlM_nil, bind_pure]
  cases sha1HmacInit h locals hmac key with
  | none => rfl
  | some hmac =>
      cases hupdate : sha1HmacUpdate h hmac data with
      | none => simp [hupdate]
      | some hmac =>
          cases hfinal : sha1HmacFinal h hmac with
          | none => simp [hupdate, hfinal]
          | some hmac => simp [hupdate, hfinal]

/-- Over a streaming hash, the calls return the keyed digest of RFC 2104 for every key and every
splitting of the message, and `sha1_hmac` writes it for a message in one piece. -/
theorem sha1Hmac_eq_hmac {h : Streaming σ} {H : List Byte → List Byte}
    (hh : h.Hashes H 20 (2 ^ 32)) (locals : Locals σ) (hmac : Hmac σ) (key : Buffer) :
    (∀ pieces : List Buffer, sha1HmacPieces h locals hmac key.bytes (pieces.map Buffer.bytes) =
        some (Rfc2104.hmac H 64 key.bytes (pieces.flatMap Buffer.bytes))) ∧
      ∀ (buf : Mem) (data : Buffer), sha1Hmac h locals hmac buf key.bytes data.bytes =
        some (write buf 0 (Rfc2104.hmac H 64 key.bytes data.bytes)) := by
  constructor
  · intro pieces
    have hshort : ∀ p ∈ pieces.map Buffer.bytes, p.length < 2 ^ 32 := by
      intro p hp
      obtain ⟨piece, -, rfl⟩ := List.mem_map.mp hp
      exact piece.short
    rw [sha1HmacPieces_eq hh locals hmac key.short hshort, List.flatMap_def]
  · intro buf data
    have hshort : ∀ p ∈ [data.bytes], p.length < 2 ^ 32 := by
      intro p hp
      rw [List.mem_singleton.mp hp]
      exact data.short
    rw [sha1Hmac_eq_pieces, sha1HmacPieces_eq hh locals hmac key.short hshort]
    simp

/-- SHA-1 of the standard as a streaming hash: the context collects the message. -/
def collecting : Streaming (List Byte × Mem) where
  init s := ([], s.2)
  update s p := some (s.1 ++ p, s.2)
  final s := some (s.1, write s.2 0 (Fips180.sha1 s.1))
  buf s := s.2

theorem collecting_updates (s : List Byte × Mem) (pieces : List (List Byte)) :
    collecting.updates s pieces = some (s.1 ++ pieces.flatten, s.2) := by
  induction pieces generalizing s with
  | nil => simp
  | cons p pieces ih =>
      rw [Streaming.updates_cons, collecting, Option.bind_some]
      exact (ih (s.1 ++ p, s.2)).trans (by simp)

theorem collecting_hashes : collecting.Hashes Fips180.sha1 20 (2 ^ 32) := by
  refine ⟨fun m => rfl, ?_⟩
  intro s pieces _
  refine ⟨(pieces.flatten, s.2), _, collecting_updates ([], s.2) pieces, rfl, ?_⟩
  exact read_write_self s.2 0 (Fips180.sha1 pieces.flatten)

/-- The key "key" and a message in two pieces. -/
theorem sha1Hmac_eq_hmac_key :
    sha1HmacPieces collecting ⟨([], fun _ => 0), fun _ => 0, fun _ => 0⟩
        ⟨([], fun _ => 0), ([], fun _ => 0)⟩ [0x6b, 0x65, 0x79] [[0x61], [0x62, 0x63]] =
      some (Rfc2104.hmac Fips180.sha1 64 [0x6b, 0x65, 0x79] [0x61, 0x62, 0x63]) :=
  (sha1Hmac_eq_hmac collecting_hashes ⟨([], fun _ => 0), fun _ => 0, fun _ => 0⟩
    ⟨([], fun _ => 0), ([], fun _ => 0)⟩ ⟨[0x6b, 0x65, 0x79], by decide⟩).1
      [⟨[0x61], by decide⟩, ⟨[0x62, 0x63], by decide⟩]

end OpenAAA.Sha1Hmac
