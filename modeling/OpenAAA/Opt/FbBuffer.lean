import Mathlib.Tactic
import OpenAAA.Opt.FastbufReads

/-!
`generic/opt/fb-buffer.c`: fastbufs over a block of memory. One that is read serves what is in the
block, with no position after its end; one that is written takes what fits and no more.
-/

namespace OpenAAA.Fastbufs

open Memory

def fbbufRefill (f : Fastbuf Unit) : Except FbFault (Fastbuf Unit × Bool) :=
  .ok ({ f with bstop := f.bufend, pos := f.bufend }, f.bptr < f.bufend)

def fbbufSeek (f : Fastbuf Unit) (pos : Int) (whence : Whence) : Except FbFault (Fastbuf Unit) :=
  let pos := if whence = .ending then pos + f.bufend else pos
  if pos < 0 ∨ (f.bufend : Int) < pos then .error .seek
  else .ok { f with bptr := pos.toNat, bstop := pos.toNat, pos := pos.toNat }

def fbbufReads : BackEnd Unit where
  refill := some fbbufRefill
  spout := none
  seek := some fbbufSeek

def fbbufInitRead (data : List Byte) : Fastbuf Unit where
  buf := fun i => data.getD i 0
  bptr := 0
  bstop := data.length
  bufend := data.length
  pos := data.length
  dieOnEof := false
  back := ()

def fbbufWrites : BackEnd Unit where
  refill := none
  spout := some fun _ => .error .write
  seek := none

def fbbufInitWrite (buf : Nat → Byte) (size : Nat) : Fastbuf Unit where
  buf := buf
  bptr := 0
  bstop := 0
  bufend := size
  pos := 0
  dieOnEof := false
  back := ()

/-! ## Reading -/

/-- The whole block stays in the buffer. -/
structure BlockOk (content : List Byte) (f : Fastbuf Unit) : Prop where
  size : f.bufend = content.length
  pos : f.pos = f.bstop
  bytes : ∀ i < content.length, content[i]? = some (f.buf i)

theorem fbbuf_serves (content : List Byte) (dieOnEof : Bool) :
    Serves fbbufReads ⟨content, fun p => p ≤ content.length, dieOnEof⟩ (BlockOk content) where
  moves f b h := ⟨h.size, h.pos, h.bytes⟩
  allows q hq := decide_eq_true hq
  refill := by
    refine ⟨fbbufRefill, rfl, fun f p hown hcursor hend => ?_⟩
    have htell := hcursor.tell
    have hpos := hown.pos
    have hsize := hown.size
    have hstop := hcursor.stop
    refine ⟨_, _, rfl, ⟨hsize, rfl, hown.bytes⟩, ⟨?_, le_rfl, hcursor.size, ?_, .inr ⟨le_rfl, ?_⟩⟩,
      rfl, ?_, ?_⟩
    · change f.bptr ≤ f.bufend
      omega
    · change p + f.bufend = f.bufend + f.bptr
      omega
    · intro i hi
      change i < f.bufend at hi
      change content[f.bufend - f.bufend + i]? = some (f.buf i)
      rw [Nat.sub_self, Nat.zero_add]
      exact hown.bytes i (by omega)
    · exact decide_eq_true_iff
    · intro hnone
      have := of_decide_eq_false hnone
      change content.length ≤ p
      omega
  seek := by
    refine ⟨fbbufSeek, rfl, fun f p hown hcursor hend pos whence hwhence hset => ?_⟩
    have hsize := hown.size
    have hfits := hcursor.size
    have htarget : (if whence = .ending then (content.length : Int) + pos else pos) =
        if whence = .ending then pos + f.bufend else pos := by
      rw [hsize, Int.add_comm]
    rw [fbbufSeek]
    dsimp only
    rw [htarget]
    generalize (if whence = Whence.ending then pos + (f.bufend : Int) else pos) = target
    by_cases hinside : 0 ≤ target ∧ decide (target.toNat ≤ content.length) = true
    · have hle := of_decide_eq_true hinside.2
      rw [if_pos hinside, if_neg (by omega)]
      refine ⟨_, rfl, ⟨hsize, rfl, hown.bytes⟩, ⟨le_rfl, ?_, hfits, rfl, .inl rfl⟩, rfl, rfl⟩
      change target.toNat ≤ f.bufend
      omega
    · rw [if_neg hinside, if_pos]
      rw [decide_eq_true_iff] at hinside
      omega

theorem fbbufInitRead_reading (content : List Byte) (hsize : content.length < 2 ^ 32) :
    Reading ⟨content, fun p => p ≤ content.length, false⟩ (BlockOk content) 0
      (fbbufInitRead content) := by
  have hbytes : ∀ i < content.length, content[i]? = some (content.getD i 0) := fun i hi => by
    rw [List.getD_eq_getElem?_getD, List.getElem?_eq_getElem hi]
    rfl
  refine ⟨⟨rfl, rfl, hbytes⟩, ⟨Nat.zero_le _, le_rfl, hsize, Nat.zero_add _, .inr ⟨le_rfl, ?_⟩⟩,
    decide_eq_true (Nat.zero_le content.length), rfl⟩
  intro i hi
  change content[content.length - content.length + i]? = _
  rw [Nat.sub_self, Nat.zero_add]
  exact hbytes i hi

/-- Some pieces, the first of them byte by byte or at once -/
def writePieces (be : BackEnd Unit) (f : Fastbuf Unit) :
    List (Byte ⊕ List Byte) → Except FbFault (Fastbuf Unit)
  | [] => .ok f
  | .inl c :: pieces => do
    let f ← bputc be f c
    writePieces be f pieces
  | .inr data :: pieces => do
    let f ← bwrite be f data
    writePieces be f pieces

def pieceBytes : Byte ⊕ List Byte → List Byte
  | .inl c => [c]
  | .inr data => data

/-- The block begins with `written`, and the rest of it is as it was. -/
structure Filled (buf : Nat → Byte) (size : Nat) (written : List Byte) (f : Fastbuf Unit) : Prop where
  stop : f.bstop = 0
  ptr : f.bptr = written.length
  fits : written.length ≤ size
  size : f.bufend = size
  bytes : f.buf = memcpy buf 0 written

variable {buf : Nat → Byte} {size : Nat} {written : List Byte} {f : Fastbuf Unit}

theorem memcpy_append (buf : Nat → Byte) (xs ys : List Byte) :
    memcpy (memcpy buf 0 xs) xs.length ys = memcpy buf 0 (xs ++ ys) := by
  funext i
  simp only [memcpy, Nat.zero_le, if_true, Nat.sub_zero, List.getD_eq_getElem?_getD]
  by_cases hi : i < xs.length
  · rw [if_neg (by omega), List.getElem?_append_left hi]
  · rw [if_pos (by omega), List.getElem?_append_right (by omega),
      List.getElem?_eq_none (l := xs) (by omega)]
    rfl

theorem Filled.put (h : Filled buf size written f) (data : List Byte)
    (hfits : (written ++ data).length ≤ size) : Filled buf size (written ++ data) (f.put data) := by
  obtain ⟨hstop, hptr, hfits', hsize, hbytes⟩ := h
  refine ⟨hstop, ?_, hfits, hsize, ?_⟩
  · change f.bptr + data.length = (written ++ data).length
    rw [hptr, List.length_append]
  · change memcpy f.buf f.bptr data = _
    rw [hptr, hbytes, memcpy_append]

theorem Filled.bavailw (h : Filled buf size written f) (hsize : size < 2 ^ 32) :
    bavailw f = size - written.length := by
  have hfits := h.fits
  rw [Fastbufs.bavailw, h.size, h.ptr, show size + 2 ^ 32 - written.length =
    size - written.length + 2 ^ 32 by omega, Nat.add_mod_right, Nat.mod_eq_of_lt (by omega)]

theorem Filled.bspout (h : Filled buf size written f) : bspout fbbufWrites f = .error .write := by
  have hflushed : f.Flushed := by
    have hfits := h.fits
    refine ⟨?_, ?_⟩
    · rw [h.stop]
      exact Nat.zero_le _
    · rw [h.ptr, h.size]
      exact hfits
  have hspout : doSpout fbbufWrites f = .error .write := by
    have hcallback : fbbufWrites.spout = some fun _ => .error .write := rfl
    rw [doSpout, if_neg (not_not_intro hflushed), hcallback]
  rw [Fastbufs.bspout, hspout]

/-- What it comes to when `data` is to be written, too. -/
def Takes (buf : Nat → Byte) (size : Nat) (written : List Byte) (r : Except FbFault (Fastbuf Unit)) :
    Prop :=
  if written.length ≤ size then ∃ f, r = .ok f ∧ Filled buf size written f else r = .error .write

theorem bputc_takes (h : Filled buf size written f) (c : Byte) :
    Takes buf size (written ++ [c]) (bputc fbbufWrites f c) := by
  have hlength : (written ++ [c]).length = written.length + 1 := List.length_append
  rw [Takes, bputc, h.ptr, h.size]
  by_cases hroom : written.length < size
  · rw [if_pos (by omega), if_pos hroom]
    exact ⟨_, rfl, h.put [c] (by omega)⟩
  · rw [if_neg (by omega), if_neg hroom, h.bspout]
    rfl

theorem bwriteSlow_takes (hsize : size < 2 ^ 32) (fuel : Nat) {written : List Byte}
    {f : Fastbuf Unit} (data : List Byte) (h : Filled buf size written f)
    (hfuel : data.length ≤ fuel) :
    Takes buf size (written ++ data) (bwriteSlow fbbufWrites fuel f data) := by
  induction fuel generalizing written f data with
  | zero =>
      obtain rfl : data = [] := List.length_eq_zero_iff.mp (Nat.le_zero.mp hfuel)
      rw [List.append_nil, Takes, if_pos h.fits]
      exact ⟨f, rfl, h⟩
  | succ fuel ih =>
      rw [bwriteSlow]
      by_cases hempty : data.isEmpty = true
      · obtain rfl := List.isEmpty_iff.mp hempty
        rw [List.append_nil, Takes, if_pos h.fits]
        exact ⟨f, if_pos rfl, h⟩
      · have hpos : 0 < data.length := by
          rw [List.length_pos_iff, ne_eq, ← List.isEmpty_iff]
          exact hempty
        have hfits := h.fits
        rw [if_neg hempty, writable, h.bavailw hsize]
        by_cases hroom : size - written.length ≠ 0
        · rw [if_pos hroom]
          dsimp only [bind, Except.bind]
          rw [h.bavailw hsize]
          generalize hk : size - written.length = k at hroom
          have hput := h.put (data.take k) (by
            rw [List.length_append, List.length_take]
            omega)
          have hrest := ih (data.drop k) hput (by rw [List.length_drop]; omega)
          rwa [List.append_assoc, List.take_append_drop] at hrest
        · rw [if_neg hroom, h.bspout, Takes, if_neg (by rw [List.length_append]; omega)]
          rfl

theorem bwrite_takes (hsize : size < 2 ^ 32) (h : Filled buf size written f) (data : List Byte) :
    Takes buf size (written ++ data) (bwrite fbbufWrites f data) := by
  have hfits := h.fits
  rw [bwrite, h.bavailw hsize]
  by_cases hfast : data.length ≤ size - written.length
  · have hlength : (written ++ data).length ≤ size := by
      rw [List.length_append]
      omega
    rw [if_pos hfast, Takes, if_pos hlength]
    exact ⟨_, rfl, h.put data hlength⟩
  · rw [if_neg hfast]
    exact bwriteSlow_takes hsize data.length data h le_rfl

theorem writePieces_takes (hsize : size < 2 ^ 32) {pieces : List (Byte ⊕ List Byte)}
    (h : Filled buf size written f) :
    Takes buf size (written ++ pieces.flatMap pieceBytes) (writePieces fbbufWrites f pieces) := by
  induction pieces generalizing written f with
  | nil =>
      rw [List.flatMap_nil, List.append_nil, Takes, if_pos h.fits]
      exact ⟨f, rfl, h⟩
  | cons piece pieces ih =>
      have hpiece : ∃ r, Takes buf size (written ++ pieceBytes piece) r ∧
          writePieces fbbufWrites f (piece :: pieces) =
            r.bind fun f => writePieces fbbufWrites f pieces := by
        cases piece with
        | inl c => exact ⟨_, bputc_takes h c, rfl⟩
        | inr data => exact ⟨_, bwrite_takes hsize h data, rfl⟩
      obtain ⟨r, hr, hrun⟩ := hpiece
      rw [hrun, List.flatMap_cons, ← List.append_assoc]
      by_cases hfits : (written ++ pieceBytes piece).length ≤ size
      · rw [Takes, if_pos hfits] at hr
        obtain ⟨f', rfl, hfilled⟩ := hr
        exact ih hfilled
      · rw [Takes, if_neg hfits] at hr
        rw [hr, Takes, if_neg]
        · rfl
        · rw [List.length_append]
          omega

/-- However they are cut, pieces are written if together they fit into the block, and are all of it
that changes; otherwise the write that goes over the end comes to `bthrow`. -/
theorem fbbufWrites_take (buf : Nat → Byte) (hsize : size < 2 ^ 32)
    (pieces : List (Byte ⊕ List Byte)) :
    Takes buf size (pieces.flatMap pieceBytes)
      (writePieces fbbufWrites (fbbufInitWrite buf size) pieces) := by
  have hinit : Filled buf size [] (fbbufInitWrite buf size) := by
    refine ⟨rfl, rfl, Nat.zero_le _, rfl, ?_⟩
    funext i
    simp [memcpy, fbbufInitWrite]
  exact writePieces_takes hsize hinit

/-- Four bytes for a piece of three and one of two -/
theorem fbbufWrites_take_overflow :
    4 < 2 ^ 32 ∧ Takes (fun _ => 0) 4 [1, 2, 3, 4, 5]
      (writePieces fbbufWrites (fbbufInitWrite (fun _ => 0) 4) [.inr [1, 2, 3], .inr [4, 5]]) :=
  ⟨by decide, fbbufWrites_take (fun _ => 0) (by decide) [.inr [1, 2, 3], .inr [4, 5]]⟩

end OpenAAA.Fastbufs
