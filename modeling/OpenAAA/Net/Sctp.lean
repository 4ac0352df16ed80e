import OpenAAA.Sys.Compiler

/-!
The chunk walk of `net/sctp/proto.h`. A packet is a 12-byte header followed by
chunks, each with a big-endian 16-bit length in its own header and padded to a
multiple of four bytes. `sctp_chunk_next` steps by that length and stops when
the next offset, measured from the start of the packet, reaches the number of
bytes that follow the header. The two sides of that comparison are 12 bytes
apart, and the step is cut to 16 bits; the two results below say exactly which
packets are walked correctly in spite of the first, and which walks come to an
end in spite of the second.
-/

namespace OpenAAA.Net

open Memory Sys

/-- `SCTP_HDR_SIZE` -/
def sctpHdrSize : Nat := 12

/-- `SCTP_CHUNK_ALIGN` -/
def sctpChunkAlign : Nat := 4

/-- `struct sctp`: the packet's address and its length as a `u16`. -/
structure Sctp where
  packet : Nat
  len : Nat

def sctpInit (pdu len : Nat) : Sctp := ⟨pdu, len % 2 ^ 16⟩

/-- The `hdr.len` field of a chunk, two bytes into its header. -/
def sctpChunkLen (m : Mem) (chunk : Nat) : Nat := getU16Be m (chunk + 2)

def sctpChunkSizeAligned (m : Mem) (chunk : Nat) : Nat :=
  alignTo 32 (sctpChunkLen m chunk) sctpChunkAlign % 2 ^ 16

def sctpChunkFirst (sctp : Sctp) : Nat := sctp.packet + sctpHdrSize

def sctpChunkNext (m : Mem) (sctp : Sctp) (chunk : Nat) : Option Nat :=
  let size := sctpChunkSizeAligned m chunk
  let rest := (sctp.len + 2 ^ 64 - sctpHdrSize) % 2 ^ 16
  if rest ≤ (chunk - sctp.packet) + size then none else some (chunk + size)

/-- The `k`-th chunk of the walk that starts at `sctp_chunk_first` and repeats
`sctp_chunk_next`, or `none` once the walk has ended. -/
def sctpVisit (m : Mem) (sctp : Sctp) : Nat → Option Nat
  | 0 => some (sctpChunkFirst sctp)
  | k + 1 => (sctpVisit m sctp k).bind (sctpChunkNext m sctp)

theorem sctpChunkSizeAligned_eq (m : Mem) (chunk : Nat) :
    sctpChunkSizeAligned m chunk = roundUp (sctpChunkLen m chunk) 4 % 2 ^ 16 := by
  have hlt := getU16Be_lt m (chunk + 2)
  rw [sctpChunkSizeAligned, sctpChunkAlign, alignTo_eq_roundUp]
  unfold sctpChunkLen
  omega

theorem sctpVisit_none_of_none {m : Mem} {sctp : Sctp} {k : Nat}
    (h : sctpVisit m sctp k = none) (j : Nat) : sctpVisit m sctp (k + j) = none := by
  induction j with
  | zero => exact h
  | succ j ih =>
      rw [← Nat.add_assoc, sctpVisit, ih]
      rfl

/-- One step from offset `off`, in terms of the length the chunk declares. -/
theorem sctpChunkNext_at (m : Mem) (packet len off : Nat) (hmin : 12 ≤ len)
    (hmax : len < 2 ^ 16) :
    sctpChunkNext m (sctpInit packet len) (packet + off) =
      if off + roundUp (sctpChunkLen m (packet + off)) 4 % 2 ^ 16 < len - 12 then
        some (packet + (off + roundUp (sctpChunkLen m (packet + off)) 4 % 2 ^ 16))
      else none := by
  have hrest : (len % 2 ^ 16 + 2 ^ 64 - 12) % 2 ^ 16 = len - 12 := by omega
  simp only [sctpChunkNext, sctpInit, sctpHdrSize, sctpChunkSizeAligned_eq, hrest,
    Nat.add_sub_cancel_left]
  split
  · rw [if_neg (by omega)]
  · rw [if_pos (by omega), Nat.add_assoc]

/-- Chunks of the given lengths follow each other from offset `off`: each
declares at least its own header and is followed at the next multiple of four. -/
def ChunksAt (m : Mem) (packet : Nat) : Nat → List Nat → Prop
  | _, [] => True
  | off, length :: lengths =>
      4 ≤ length ∧ sctpChunkLen m (packet + off) = length ∧
        ChunksAt m packet (off + roundUp length 4) lengths

/-- The true offsets of those chunks. -/
def chunkOffsets : Nat → List Nat → List Nat
  | _, [] => []
  | off, length :: lengths => off :: chunkOffsets (off + roundUp length 4) lengths

/-- The offset just behind the last of them. -/
def chunksEnd : Nat → List Nat → Nat
  | off, [] => off
  | off, length :: lengths => chunksEnd (off + roundUp length 4) lengths

/-- A packet of `len` bytes made of the header and chunks of these lengths. -/
structure PacketOf (m : Mem) (packet len : Nat) (lengths : List Nat) : Prop where
  nonempty : lengths ≠ []
  chunks : ChunksAt m packet sctpHdrSize lengths
  fits : chunksEnd sctpHdrSize lengths = len
  bounded : len ≤ 65535

theorem le_chunksEnd (off : Nat) (lengths : List Nat) :
    off ≤ chunksEnd off lengths := by
  induction lengths generalizing off with
  | nil => exact le_refl off
  | cons length lengths ih =>
      have htail := ih (off + roundUp length 4)
      simp only [chunksEnd]
      omega

theorem getLast_le_chunksEnd (off : Nat) (lengths : List Nat) (hne : lengths ≠ []) :
    off + roundUp (lengths.getLast hne) 4 ≤ chunksEnd off lengths := by
  induction lengths generalizing off with
  | nil => exact absurd rfl hne
  | cons length lengths ih =>
      cases lengths with
      | nil => simp [chunksEnd]
      | cons next rest =>
          have htail := ih (off + roundUp length 4) (by simp)
          rw [chunksEnd, List.getLast_cons (by simp)]
          omega

section Walk

variable {m : Mem} {packet len : Nat}

/-- From a chunk that the walk has reached, all the chunks after it are visited
when it is the last one or when the last one is longer than the header. -/
theorem sctpVisit_all (hmax : len ≤ 65535) (lengths : List Nat) :
    ∀ (length off k : Nat), ChunksAt m packet off (length :: lengths) →
      chunksEnd off (length :: lengths) = len → 12 ≤ off →
      sctpVisit m (sctpInit packet len) k = some (packet + off) →
      (lengths = [] ∨ 12 < roundUp ((length :: lengths).getLast (by simp)) 4) →
      ∀ j, sctpVisit m (sctpInit packet len) (k + j) =
        ((chunkOffsets off (length :: lengths))[j]?).map (packet + ·) := by
  induction lengths with
  | nil =>
      intro length off k hchunks hend hoff hvisit _ j
      obtain ⟨_, hlength, _⟩ := hchunks
      simp only [chunksEnd] at hend
      cases j with
      | zero => simpa [chunkOffsets] using hvisit
      | succ j =>
          have hstop : sctpVisit m (sctpInit packet len) (k + 1) = none := by
            rw [sctpVisit, hvisit, Option.bind_some,
              sctpChunkNext_at m packet len off (by omega) (by omega), hlength,
              if_neg (by omega)]
          have hstep : k + (j + 1) = k + 1 + j := by omega
          rw [hstep, sctpVisit_none_of_none hstop]
          simp [chunkOffsets]
  | cons next rest ih =>
      intro length off k hchunks hend hoff hvisit hlast j
      obtain ⟨_, hlength, htail⟩ := hchunks
      have hlast' : 12 < roundUp ((next :: rest).getLast (by simp)) 4 := by
        rcases hlast with hnil | hlast
        · cases hnil
        · rwa [List.getLast_cons (by simp)] at hlast
      simp only [chunksEnd] at hend
      have hroom := getLast_le_chunksEnd (off + roundUp length 4) (next :: rest) (by simp)
      simp only [chunksEnd] at hroom
      have hnext : sctpVisit m (sctpInit packet len) (k + 1) =
          some (packet + (off + roundUp length 4)) := by
        rw [sctpVisit, hvisit, Option.bind_some,
          sctpChunkNext_at m packet len off (by omega) (by omega), hlength,
          Nat.mod_eq_of_lt (by omega), if_pos (by omega)]
      cases j with
      | zero => simpa [chunkOffsets] using hvisit
      | succ j =>
          have hstep : k + (j + 1) = k + 1 + j := by omega
          rw [hstep,
            ih next (off + roundUp length 4) (k + 1) htail (by simpa [chunksEnd] using hend)
              (by omega) hnext (Or.inr hlast') j]
          rfl

/-- A walk that visits all the chunks from here on has a last chunk longer than
the header, unless it started at the last one. -/
theorem long_last_of_sctpVisit (hmax : len ≤ 65535) (lengths : List Nat) :
    ∀ (length off k : Nat), ChunksAt m packet off (length :: lengths) →
      chunksEnd off (length :: lengths) = len → 12 ≤ off →
      (∀ j, sctpVisit m (sctpInit packet len) (k + j) =
        ((chunkOffsets off (length :: lengths))[j]?).map (packet + ·)) →
      lengths = [] ∨ 12 < roundUp ((length :: lengths).getLast (by simp)) 4 := by
  induction lengths with
  | nil =>
      intro _ _ _ _ _ _ _
      exact Or.inl rfl
  | cons next rest ih =>
      intro length off k hchunks hend hoff hall
      obtain ⟨_, hlength, htail⟩ := hchunks
      simp only [chunksEnd] at hend
      have hreach := le_chunksEnd (off + roundUp length 4 + roundUp next 4) rest
      have hrec := ih next (off + roundUp length 4) (k + 1) htail
        (by simpa [chunksEnd] using hend) (by omega) (fun j => by
          rw [Nat.add_assoc, Nat.add_comm 1, hall (j + 1)]
          rfl)
      rcases hrec with hnil | hlong
      · subst hnil
        have hhere := hall 0
        have hthere := hall 1
        simp only [chunkOffsets, Nat.add_zero, List.getElem?_cons_zero,
          List.getElem?_cons_succ, Option.map_some] at hhere hthere
        rw [sctpVisit, hhere, Option.bind_some,
          sctpChunkNext_at m packet len off (by omega) (by omega), hlength,
          Nat.mod_eq_of_lt (by omega)] at hthere
        simp only [chunksEnd] at hend
        split at hthere
        · right
          simp only [List.getLast_cons_cons, List.getLast_singleton]
          omega
        · cases hthere
      · right
        rwa [List.getLast_cons (by simp)]

/-- The walk yields exactly the chunks of the packet, each once, in order and
at their true offsets, if and only if there is only one chunk or the last one
occupies more bytes than the packet header. -/
theorem sctp_walk_yields_chunks_iff {lengths : List Nat}
    (hpacket : PacketOf m packet len lengths) :
    (∀ k, sctpVisit m (sctpInit packet len) k =
        ((chunkOffsets sctpHdrSize lengths)[k]?).map (packet + ·)) ↔
      (lengths.length = 1 ∨
        sctpHdrSize < roundUp (lengths.getLast hpacket.nonempty) sctpChunkAlign) := by
  obtain ⟨hne, hchunks, hend, hmax⟩ := hpacket
  cases lengths with
  | nil => exact absurd rfl hne
  | cons length rest =>
      have hsingle : (length :: rest).length = 1 ↔ rest = [] := by simp
      have hfirst : sctpVisit m (sctpInit packet len) 0 = some (packet + sctpHdrSize) := rfl
      rw [hsingle]
      constructor
      · intro hall
        exact long_last_of_sctpVisit hmax rest length sctpHdrSize 0 hchunks hend
          (le_refl 12) (fun j => by rw [Nat.zero_add]; exact hall j)
      · intro hlast k
        have hvisit := sctpVisit_all hmax rest length sctpHdrSize 0 hchunks hend
          (le_refl 12) hfirst hlast k
        rwa [Nat.zero_add] at hvisit

end Walk

/-- A packet of two chunks, the second one long enough. -/
def packetLongTail : Mem :=
  write (fun _ => 0) 0x1000 [0, 80, 0, 80, 0, 0, 0, 0, 0, 0, 0, 0,
    10, 0, 0, 4, 0, 0, 0, 16, 1, 2, 3, 4, 5, 6, 7, 8, 9, 10, 11, 12]

theorem packetLongTail_packetOf : PacketOf packetLongTail 0x1000 32 [4, 16] :=
  ⟨by decide, ⟨by decide, by decide, by decide, by decide, trivial⟩, by decide, by decide⟩

theorem sctp_walk_yields_long_tail : PacketOf packetLongTail 0x1000 32 [4, 16] ∧
    ∀ k, sctpVisit packetLongTail (sctpInit 0x1000 32) k =
      ((chunkOffsets sctpHdrSize [4, 16])[k]?).map (0x1000 + ·) :=
  ⟨packetLongTail_packetOf,
    (sctp_walk_yields_chunks_iff packetLongTail_packetOf).mpr (Or.inr (by decide))⟩

/-- A packet of two chunks of four bytes each, such as a COOKIE ECHO without a
cookie followed by a COOKIE ACK. -/
def packetShortTail : Mem :=
  write (fun _ => 0) 0x1000 [0, 80, 0, 80, 0, 0, 0, 0, 0, 0, 0, 0,
    10, 0, 0, 4, 11, 0, 0, 4]

/-- The second chunk, at offset 16 of 20, is never visited. -/
theorem sctp_walk_misses_short_tail : PacketOf packetShortTail 0x1000 20 [4, 4] ∧
    ¬ ∀ k, sctpVisit packetShortTail (sctpInit 0x1000 20) k =
      ((chunkOffsets sctpHdrSize [4, 4])[k]?).map (0x1000 + ·) := by
  constructor
  · exact ⟨by decide, ⟨by decide, by decide, by decide, by decide, trivial⟩, by decide,
      by decide⟩
  · intro hall
    exact absurd (hall 1) (by decide)

section Walk

variable {m : Mem} {packet len : Nat}

/-- Where a chunk may start in an arbitrary packet: after the header, or behind
another such chunk when that position is more than 12 bytes before the end. -/
inductive ChunkStart (m : Mem) (packet len : Nat) : Nat → Prop where
  | first : ChunkStart m packet len 12
  | next {off : Nat} : ChunkStart m packet len off →
      off + roundUp (sctpChunkLen m (packet + off)) 4 < len - 12 →
      ChunkStart m packet len (off + roundUp (sctpChunkLen m (packet + off)) 4)

/-- The walk over a packet comes to an end, goes strictly forward, and every
chunk header it looks at lies in the packet. -/
structure WalkSafe (m : Mem) (packet len : Nat) : Prop where
  ends : ∃ k, sctpVisit m (sctpInit packet len) k = none
  forward : ∀ k a b, sctpVisit m (sctpInit packet len) k = some a →
    sctpVisit m (sctpInit packet len) (k + 1) = some b → a < b
  inside : ∀ k a, sctpVisit m (sctpInit packet len) k = some a →
    Inside a 4 packet len

/-- Every chunk that starts more than 12 bytes before the end declares a length
whose rounding is neither zero nor cut to zero. -/
def StepsForward (m : Mem) (packet len : Nat) : Prop :=
  ∀ off, ChunkStart m packet len off → off < len - 12 →
    1 ≤ sctpChunkLen m (packet + off) ∧ sctpChunkLen m (packet + off) ≤ 65532

theorem ChunkStart.bounds {off : Nat} (hmin : 16 ≤ len)
    (h : ChunkStart m packet len off) : 12 ≤ off ∧ off + 4 ≤ len := by
  induction h with
  | first => omega
  | next _ hlt ih => omega

/-- What the walk visits are chunk starts, in strictly increasing order. -/
theorem sctpVisit_chunkStart (hmin : 16 ≤ len) (hmax : len ≤ 65535)
    (hsteps : StepsForward m packet len) (k a : Nat)
    (hvisit : sctpVisit m (sctpInit packet len) k = some a) :
    ∃ off, a = packet + off ∧ ChunkStart m packet len off ∧ k + 12 ≤ off ∧
      ∀ b, sctpChunkNext m (sctpInit packet len) a = some b →
        a < b ∧ ∃ off', b = packet + off' ∧ ChunkStart m packet len off' := by
  have hnext : ∀ off, ChunkStart m packet len off →
      ∀ b, sctpChunkNext m (sctpInit packet len) (packet + off) = some b →
        packet + off < b ∧ ∃ off', b = packet + off' ∧ ChunkStart m packet len off' := by
    intro off hstart b hb
    rw [sctpChunkNext_at m packet len off (by omega) (by omega)] at hb
    split at hb
    · next hlt =>
        have hlen := hsteps off hstart (by omega)
        have hround : roundUp (sctpChunkLen m (packet + off)) 4 < 2 ^ 16 ∧
            0 < roundUp (sctpChunkLen m (packet + off)) 4 := by
          unfold roundUp
          omega
        rw [Nat.mod_eq_of_lt hround.1] at hb hlt
        cases hb
        exact ⟨by omega, _, rfl, hstart.next hlt⟩
    · cases hb
  induction k generalizing a with
  | zero =>
      obtain rfl : packet + 12 = a := Option.some.inj hvisit
      exact ⟨12, rfl, .first, le_refl _, hnext 12 .first⟩
  | succ k ih =>
      rw [sctpVisit] at hvisit
      obtain ⟨prev, hprev, hstep⟩ := Option.bind_eq_some_iff.mp hvisit
      obtain ⟨off, rfl, _, hk, hforward⟩ := ih prev hprev
      obtain ⟨hlt, off', rfl, hstart'⟩ := hforward a hstep
      exact ⟨off', rfl, hstart', by omega, hnext off' hstart'⟩

/-- A walk that goes strictly forward reaches every chunk start. -/
theorem ChunkStart.visited (hmin : 16 ≤ len) (hmax : len ≤ 65535) {off : Nat}
    (h : ChunkStart m packet len off) :
    ∃ k, sctpVisit m (sctpInit packet len) k = some (packet + off) := by
  induction h with
  | first => exact ⟨0, rfl⟩
  | @next off _ hlt ih =>
      obtain ⟨k, hk⟩ := ih
      refine ⟨k + 1, ?_⟩
      rw [sctpVisit, hk, Option.bind_some,
        sctpChunkNext_at m packet len off (by omega) (by omega),
        Nat.mod_eq_of_lt (by omega), if_pos hlt]

/-- The walk over any packet of 16 to 65535 bytes is safe if and only if no
chunk that starts more than 12 bytes before the end declares the length 0 or a
length above 65532. -/
theorem sctp_walk_safe_iff (m : Mem) (packet len : Nat) (hmin : 16 ≤ len)
    (hmax : len ≤ 65535) :
    WalkSafe m packet len ↔ StepsForward m packet len := by
  constructor
  · intro hsafe off hstart hoff
    obtain ⟨k, hk⟩ := hstart.visited hmin hmax
    by_contra hlength
    -- A zero step returns the same chunk again.
    have hzero : roundUp (sctpChunkLen m (packet + off)) 4 % 2 ^ 16 = 0 := by
      have hlt := getU16Be_lt m (packet + off + 2)
      change sctpChunkLen m (packet + off) < 2 ^ 16 at hlt
      unfold roundUp
      omega
    have hsame : sctpVisit m (sctpInit packet len) (k + 1) = some (packet + off) := by
      rw [sctpVisit, hk, Option.bind_some,
        sctpChunkNext_at m packet len off (by omega) (by omega), hzero, Nat.add_zero,
        if_pos hoff]
    exact absurd (hsafe.forward k _ _ hk hsame) (lt_irrefl _)
  · intro hsteps
    have hvisited := sctpVisit_chunkStart hmin hmax hsteps
    refine ⟨⟨len, ?_⟩, ?_, ?_⟩
    · cases hvisit : sctpVisit m (sctpInit packet len) len with
      | none => rfl
      | some a =>
          obtain ⟨off, _, hstart, hk, _⟩ := hvisited len a hvisit
          have hbounds := hstart.bounds hmin
          omega
    · intro k a b ha hb
      obtain ⟨_, _, _, _, hforward⟩ := hvisited k a ha
      rw [sctpVisit, ha, Option.bind_some] at hb
      exact (hforward b hb).1
    · intro k a ha
      obtain ⟨off, rfl, hstart, _, _⟩ := hvisited k a ha
      have hbounds := hstart.bounds hmin
      exact ⟨by omega, by omega⟩

end Walk

theorem packetLongTail_stepsForward : StepsForward packetLongTail 0x1000 32 := by
  have hstarts : ∀ off, ChunkStart packetLongTail 0x1000 32 off → off = 12 ∨ off = 16 := by
    intro off hstart
    induction hstart with
    | first => exact Or.inl rfl
    | next _ hlt ih =>
        rcases ih with rfl | rfl
        · exact Or.inr (by decide)
        · exact absurd hlt (by decide)
  intro off hstart _
  rcases hstarts off hstart with rfl | rfl
  · decide
  · decide

theorem sctp_walk_safe_long_tail :
    16 ≤ 32 ∧ 32 ≤ 65535 ∧ WalkSafe packetLongTail 0x1000 32 :=
  ⟨by decide, by decide,
    (sctp_walk_safe_iff packetLongTail 0x1000 32 (by decide) (by decide)).mpr
      packetLongTail_stepsForward⟩

/-- A packet of 28 zero bytes: the first chunk declares the length zero, and the
walk stays on it for ever. -/
theorem sctp_walk_unsafe_zero_length : ¬ WalkSafe (fun _ => 0) 0x1000 28 := by
  intro hsafe
  have hloop := hsafe.forward 0 (0x1000 + 12) (0x1000 + 12) rfl (by decide)
  exact absurd hloop (lt_irrefl _)

end OpenAAA.Net
