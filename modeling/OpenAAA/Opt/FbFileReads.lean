import Mathlib.Tactic
import OpenAAA.Opt.FbFile

/-!
Files as streams. Between the calls the back-end for files keeps the window that it has read last
and the offset of its descriptor; the loops of `bfd_refill` fill the buffer however short the
reads of the system are.
-/

namespace OpenAAA.Fastbufs

open Memory

/-- What the back-end keeps while a file is read. -/
structure FileOk (content : List Byte) (f : Fastbuf FbFile) : Prop where
  file : f.back.file = content
  offset : f.back.offset = f.back.wpos
  below : f.back.wlen ≤ f.back.wpos
  fits : f.back.wlen ≤ f.bufend
  window : ∀ i < f.back.wlen, content[f.back.wpos - f.back.wlen + i]? = some (f.buf i)
  nonempty : 0 < f.bufend
  size : 4 * f.bufend < 2 ^ 32

/-- What `refill` owes to a reader at `p`. -/
def Refilled (content : List Byte) (p : Nat) (dieOnEof : Bool)
    (r : Except FbFault (Fastbuf FbFile × Bool)) : Prop :=
  ∃ f more, r = .ok (f, more) ∧ FileOk content f ∧ Cursor content p f ∧ f.dieOnEof = dieOnEof ∧
    (more = true ↔ f.bptr < f.bstop) ∧ (more = false → content.length ≤ p)

/-- The first `readPtr` bytes of the buffer are in front of the descriptor, and `bptr` is where
`pos` is going to be. -/
structure Filling (content : List Byte) (p : Nat) (f : Fastbuf FbFile) (readPtr readLen : Nat) :
    Prop where
  file : f.back.file = content
  offset : f.back.offset = f.back.wpos
  sum : readPtr + readLen = f.bufend
  stop : f.bstop = f.bufend
  ptr : f.bptr < f.bufend
  pos : f.pos = p
  place : f.back.wpos + f.bptr = p + readPtr
  below : readPtr ≤ f.back.wpos
  bytes : ∀ i < readPtr, content[f.back.wpos - readPtr + i]? = some (f.buf i)
  size : 4 * f.bufend < 2 ^ 32

variable (io : Nat → Nat) {content : List Byte} {p : Nat} {f : Fastbuf FbFile}

/-! ## The system -/

theorem sysRead_length_le (F : FbFile) (n : Nat) : (F.sysRead io n).1.length ≤ n := by
  simp only [FbFile.sysRead, List.length_take, List.length_drop]
  omega

theorem sysRead_isEmpty (F : FbFile) {n : Nat} (hn : 0 < n) :
    (F.sysRead io n).1.isEmpty = true ↔ F.file.length ≤ F.offset := by
  rw [List.isEmpty_iff, ← List.length_eq_zero_iff]
  simp only [FbFile.sysRead, List.length_take, List.length_drop]
  omega

theorem sysRead_getElem? (F : FbFile) {n i : Nat} (hi : i < (F.sysRead io n).1.length) :
    (F.sysRead io n).1[i]? = F.file[F.offset + i]? := by
  simp only [FbFile.sysRead, List.length_take] at hi ⊢
  rw [List.getElem?_take_of_lt (by omega), List.getElem?_drop]

@[simp] theorem sysRead_file (F : FbFile) (n : Nat) : (F.sysRead io n).2.file = F.file := rfl

@[simp] theorem sysRead_wpos (F : FbFile) (n : Nat) : (F.sysRead io n).2.wpos = F.wpos := rfl

@[simp] theorem sysRead_offset (F : FbFile) (n : Nat) :
    (F.sysRead io n).2.offset = F.offset + (F.sysRead io n).1.length := rfl

theorem memcpy_below {buf : Nat → Byte} {p i : Nat} {data : List Byte} (h : i < p) :
    memcpy buf p data i = buf i := if_neg (by omega)

theorem memcpy_inside {buf : Nat → Byte} {p i : Nat} {data : List Byte} (h : p ≤ i)
    (hlt : i < p + data.length) : data[i - p]? = some (memcpy buf p data i) := by
  rw [memcpy, if_pos h, List.getD_eq_getElem?_getD]
  rw [List.getElem?_eq_getElem (show i - p < data.length by omega)]
  rfl

/-! ## Filling the buffer -/

/-- The end of the file in front of the position -/
theorem atEof_ok (hfile : f.back.file = content) (hoffset : f.back.offset = f.back.wpos)
    (hsize : 4 * f.bufend < 2 ^ 32) (hpos : f.pos = p) (hptr : 0 < f.bufend)
    (hend : content.length ≤ p) : Refilled content p f.dieOnEof (.ok (atEof f)) := by
  refine ⟨(atEof f).1, false, rfl, ⟨hfile, hoffset, Nat.zero_le _, Nat.zero_le _, ?_, hptr, hsize⟩,
    ⟨le_rfl, Nat.zero_le _, ?_, ?_, .inl rfl⟩, rfl, ?_, fun _ => hend⟩
  · intro i hi
    exact absurd hi (Nat.not_lt_zero i)
  · change f.bufend < 2 ^ 32
    omega
  · change p + 0 = f.pos + 0
    omega
  · exact ⟨fun h => absurd h Bool.false_ne_true, fun h => absurd h (lt_irrefl 0)⟩

theorem finishRead_ok {readPtr readLen : Nat} (h : Filling content p f readPtr readLen)
    (hptr : f.bptr ≤ readPtr) (hend : f.bptr = readPtr → content.length ≤ p) :
    Refilled content p f.dieOnEof (.ok (finishRead f readPtr readLen)) := by
  obtain ⟨hfile, hoffset, hsum, hstop, hlt, hpos, hplace, hbelow, hbytes, hsize⟩ := h
  have hbstop : (if readLen ≠ 0 then readPtr else f.bstop) = readPtr := by
    split <;> omega
  have hposAfter : f.pos + (readPtr - f.bptr) = f.back.wpos := by omega
  have hfinish : finishRead f readPtr readLen =
      ({ f with
        bstop := readPtr, pos := f.pos + (readPtr - f.bptr)
        back := { f.back with wlen := readPtr } }, decide (readPtr ≠ f.bptr)) := by
    simp only [finishRead, hbstop]
  rw [hfinish]
  refine ⟨_, _, rfl, ⟨hfile, hoffset, hbelow, ?_, hbytes, Nat.zero_lt_of_lt hlt, hsize⟩,
    ⟨hptr, ?_, ?_, ?_, ?_⟩, rfl, ?_, ?_⟩
  · change readPtr ≤ f.bufend
    omega
  · change readPtr ≤ f.bufend
    omega
  · change f.bufend < 2 ^ 32
    omega
  · change p + readPtr = f.pos + (readPtr - f.bptr) + f.bptr
    omega
  · right
    change readPtr ≤ f.pos + (readPtr - f.bptr) ∧
      ∀ i < readPtr, content[f.pos + (readPtr - f.bptr) - readPtr + i]? = some (f.buf i)
    rw [hposAfter]
    exact ⟨hbelow, hbytes⟩
  · change decide (readPtr ≠ f.bptr) = true ↔ f.bptr < readPtr
    rw [decide_eq_true_iff]
    omega
  · intro hnone
    rw [decide_eq_false_iff_not, not_not] at hnone
    exact hend hnone.symm

/-- One `read` of the loop -/
theorem Filling.read {readPtr readLen : Nat} (h : Filling content p f readPtr readLen) :
    Filling content p
      { f with
        buf := memcpy f.buf readPtr (f.back.sysRead io readLen).1
        back := { (f.back.sysRead io readLen).2 with
          wpos := f.back.wpos + (f.back.sysRead io readLen).1.length } }
      (readPtr + (f.back.sysRead io readLen).1.length)
      (readLen - (f.back.sysRead io readLen).1.length) := by
  obtain ⟨hfile, hoffset, hsum, hstop, hlt, hpos, hplace, hbelow, hbytes, hsize⟩ := h
  have hlen := sysRead_length_le io f.back readLen
  have hget : ∀ i < (f.back.sysRead io readLen).1.length, _ :=
    fun i hi => sysRead_getElem? io (n := readLen) f.back hi
  have hafter := sysRead_offset io f.back readLen
  rw [hfile, hoffset] at hget
  rw [hoffset] at hafter
  generalize (f.back.sysRead io readLen).1 = data at hlen hget hafter ⊢
  refine ⟨hfile, hafter, ?_, hstop, hlt, hpos, ?_, ?_, ?_, hsize⟩
  · change readPtr + data.length + (readLen - data.length) = f.bufend
    omega
  · change f.back.wpos + data.length + f.bptr = p + (readPtr + data.length)
    omega
  · change readPtr + data.length ≤ f.back.wpos + data.length
    omega
  · intro i hi
    change content[f.back.wpos + data.length - (readPtr + data.length) + i]? =
      some (memcpy f.buf readPtr data i)
    rw [show f.back.wpos + data.length - (readPtr + data.length) = f.back.wpos - readPtr by omega]
    by_cases hold : i < readPtr
    · rw [memcpy_below hold]
      exact hbytes i hold
    · rw [← memcpy_inside (not_lt.mp hold) hi, hget _ (by omega)]
      congr 1
      omega

theorem readLoop_ok (fuel : Nat) {f : Fastbuf FbFile} {readPtr readLen : Nat}
    (h : Filling content p f readPtr readLen) (hptr : readPtr ≤ f.bptr) (hfuel : readLen ≤ fuel) :
    Refilled content p f.dieOnEof (readLoop io fuel f readPtr readLen) := by
  induction fuel generalizing f readPtr readLen with
  | zero =>
      have := h.sum
      have := h.ptr
      omega
  | succ fuel ih =>
      have hroom : 0 < readLen := by
        have := h.sum
        have := h.ptr
        omega
      have hempty := sysRead_isEmpty io f.back hroom
      have hnext := h.read io
      rw [readLoop]
      dsimp only
      by_cases hnone : (f.back.sysRead io readLen).1.isEmpty = true
      · -- the end of the file
        have hend : content.length ≤ f.back.wpos := by
          rw [← h.file, ← h.offset]
          exact hempty.mp hnone
        have hplace := h.place
        have hzero : (f.back.sysRead io readLen).1.length = 0 := by
          rw [List.isEmpty_iff.mp hnone, List.length_nil]
        have hoffset : (f.back.sysRead io readLen).2.offset = f.back.wpos := by
          rw [sysRead_offset, hzero, h.offset, Nat.add_zero]
        rw [if_pos hnone]
        by_cases hbefore : readPtr < f.bptr
        · rw [if_pos hbefore]
          exact atEof_ok (f := { f with back := (f.back.sysRead io readLen).2 }) h.file hoffset
            h.size h.pos (Nat.zero_lt_of_lt h.ptr) (by omega)
        · rw [if_neg hbefore]
          exact finishRead_ok (f := { f with back := (f.back.sysRead io readLen).2 })
            ⟨h.file, hoffset, h.sum, h.stop, h.ptr, h.pos, hplace, h.below, h.bytes, h.size⟩
            (not_lt.mp hbefore) fun _ => by omega
      · rw [if_neg hnone]
        have hsome : 0 < (f.back.sysRead io readLen).1.length := by
          rw [List.length_pos_iff, ne_eq, ← List.isEmpty_iff]
          exact hnone
        by_cases hmore : readPtr + (f.back.sysRead io readLen).1.length ≤ f.bptr
        · rw [if_pos hmore]
          exact ih hnext hmore (by omega)
        · rw [if_neg hmore]
          refine finishRead_ok hnext (by dsimp only; omega) fun heq => ?_
          dsimp only at heq
          omega

/-! ## Seeking -/

/-- What the buffer and the back-end hold does not matter after an `lseek`. -/
theorem seekAndRead_ok (hfile : f.back.file = content) (hpos : f.pos = p) {back : Nat}
    (hback : back < f.bufend) (hstart : back ≤ p) (hsize : 4 * f.bufend < 2 ^ 32) :
    Refilled content p f.dieOnEof (seekAndRead io f back) := by
  rw [seekAndRead]
  refine readLoop_ok io (f.bufend + 1) ⟨hfile, rfl, Nat.zero_add _, rfl, hback, hpos, ?_,
    Nat.zero_le _, ?_, hsize⟩ (Nat.zero_le _) (Nat.le_succ _)
  · change f.pos - back + back = p + 0
    omega
  · intro i hi
    exact absurd hi (Nat.not_lt_zero i)

/-- Skipping ends at `skip` bytes further, or at the end of the file. -/
theorem skipLoop_ok (fuel : Nat) {f : Fastbuf FbFile} {skip : Nat} (hfile : f.back.file = content)
    (hoffset : f.back.offset + skip = f.back.wpos) (hroom : 0 < f.bufend) (hfuel : skip ≤ fuel) :
    ∃ buf F reached, skipLoop io fuel f skip = .ok ({ f with buf := buf, back := F }, reached) ∧
      F.file = content ∧ F.offset = F.wpos ∧
      (reached = true → F.wpos = f.back.wpos) ∧ (reached = false → content.length ≤ f.back.wpos) := by
  induction fuel generalizing f skip with
  | zero =>
      obtain rfl : skip = 0 := by omega
      exact ⟨f.buf, f.back, true, if_pos rfl, hfile, hoffset, fun _ => rfl, fun h => by cases h⟩
  | succ fuel ih =>
      rw [skipLoop]
      by_cases hdone : skip = 0
      · subst hdone
        exact ⟨f.buf, f.back, true, if_pos rfl, hfile, hoffset, fun _ => rfl, fun h => by cases h⟩
      · have hempty := sysRead_isEmpty io f.back (n := min skip f.bufend) (by omega)
        have hlen := sysRead_length_le io f.back (min skip f.bufend)
        have hafter := sysRead_offset io f.back (min skip f.bufend)
        rw [if_neg hdone]
        dsimp only
        by_cases hnone : (f.back.sysRead io (min skip f.bufend)).1.isEmpty = true
        · have hend := hempty.mp hnone
          rw [List.isEmpty_iff.mp hnone, List.length_nil, Nat.add_zero] at hafter
          rw [if_pos hnone]
          refine ⟨f.buf, _, false, rfl, hfile, ?_, fun h => (by cases h), fun _ => ?_⟩
          · change (f.back.sysRead io (min skip f.bufend)).2.offset = f.back.wpos - skip
            omega
          · rw [← hfile]
            omega
        · rw [if_neg hnone]
          have hsome : 0 < (f.back.sysRead io (min skip f.bufend)).1.length := by
            rw [List.length_pos_iff, ne_eq, ← List.isEmpty_iff]
            exact hnone
          refine ih (f := { f with
            buf := memcpy f.buf 0 (f.back.sysRead io (min skip f.bufend)).1
            back := (f.back.sysRead io (min skip f.bufend)).2 }) hfile ?_ hroom (by omega)
          change (f.back.sysRead io (min skip f.bufend)).2.offset + _ = f.back.wpos
          omega

theorem skipAndRead_ok (hfile : f.back.file = content) (hoffset : f.back.offset = f.back.wpos)
    (hpos : f.pos = p) {back skip : Nat} (hplace : f.back.wpos + skip + back = p)
    (hback : back < f.bufend) (hsize : 4 * f.bufend < 2 ^ 32) :
    Refilled content p f.dieOnEof (skipAndRead io f back skip) := by
  obtain ⟨buf, F, reached, hrun, hfile', hoffset', hreached, hend⟩ :=
    skipLoop_ok io skip (f := { f with back := { f.back with wpos := f.back.wpos + skip } })
      hfile (by dsimp only; omega) (by dsimp only; omega) le_rfl
  dsimp only at hreached hend
  rw [skipAndRead, hrun]
  dsimp only [bind, Except.bind]
  cases reached with
  | true =>
      have hwpos := hreached rfl
      rw [if_pos rfl]
      refine readLoop_ok io (f.bufend + 1) ⟨hfile', hoffset', Nat.zero_add _, rfl, hback, hpos, ?_,
        Nat.zero_le _, ?_, hsize⟩ (Nat.zero_le _) (Nat.le_succ _)
      · change F.wpos + back = p + 0
        omega
      · intro i hi
        exact absurd hi (Nat.not_lt_zero i)
  | false =>
      have := hend rfl
      rw [if_neg Bool.false_ne_true]
      exact atEof_ok (f := { f with buf := buf, back := F }) hfile' hoffset' hsize hpos
        (Nat.zero_lt_of_lt hback) (by omega)

/-! ## The three callbacks -/

theorem memmove_inside {buf : Nat → Byte} {src n i : Nat} (h : i < n) :
    memmove buf 0 src n i = buf (src + i) := by
  rw [memmove, if_pos (by omega), Nat.sub_zero]

theorem refillForward_ok (h : FileOk content f) (hle : f.back.wpos ≤ f.pos)
    {back : Nat} (hback : 4 * back ≤ f.bufend) :
    Refilled content f.pos f.dieOnEof (refillForward io f back) := by
  obtain ⟨hfile, hoffset, hbelow, hfits, hwindow, hroom, hsize⟩ := h
  rw [refillForward]
  dsimp only
  by_cases hlong : 4 * f.bufend < f.pos - f.back.wpos
  · rw [if_pos hlong]
    exact seekAndRead_ok io hfile rfl (by omega) (by omega) hsize
  · have hmod : (f.pos - f.back.wpos) % 2 ^ 32 = f.pos - f.back.wpos := Nat.mod_eq_of_lt (by omega)
    rw [if_neg hlong, hmod]
    by_cases hskip : back ≤ f.pos - f.back.wpos
    · have hmod' : (f.pos - f.back.wpos - back) % 2 ^ 32 = f.pos - f.back.wpos - back :=
        Nat.mod_eq_of_lt (by omega)
      rw [if_pos hskip, hmod']
      exact skipAndRead_ok io hfile hoffset rfl (by omega) (by omega) hsize
    · rw [if_neg hskip]
      by_cases hkeep : f.back.wlen ≤ back - (f.pos - f.back.wpos)
      · -- the whole window stays
        rw [if_pos hkeep]
        refine readLoop_ok io (f.bufend + 1) ⟨hfile, hoffset, ?_, rfl, ?_, rfl, ?_, hbelow, hwindow,
          hsize⟩ ?_ (by omega)
        · change f.back.wlen + (f.bufend - f.back.wlen) = f.bufend
          omega
        · change f.pos - f.back.wpos + f.back.wlen < f.bufend
          omega
        · change f.back.wpos + (f.pos - f.back.wpos + f.back.wlen) = f.pos + f.back.wlen
          omega
        · change f.back.wlen ≤ f.pos - f.back.wpos + f.back.wlen
          omega
      · -- its end is moved to the beginning
        rw [if_neg hkeep]
        generalize hkept : back - (f.pos - f.back.wpos) = keep at hkeep
        refine readLoop_ok io (f.bufend + 1) ⟨hfile, hoffset, ?_, rfl, ?_, rfl, ?_, ?_, ?_, hsize⟩ ?_
          (by omega)
        · change keep + (f.bufend - keep) = f.bufend
          omega
        · change back < f.bufend
          omega
        · change f.back.wpos + back = f.pos + keep
          omega
        · change keep ≤ f.back.wpos
          omega
        · intro i hi
          change content[f.back.wpos - keep + i]? =
            some (memmove f.buf 0 (f.back.wlen - keep) keep i)
          rw [memmove_inside hi, ← hwindow _ (by omega)]
          congr 1
          omega
        · change keep ≤ back
          omega

theorem refillBackward_ok (h : FileOk content f) (hlt : f.pos < f.back.wpos)
    {back : Nat} (hback : 4 * back ≤ f.bufend) :
    Refilled content f.pos f.dieOnEof (refillBackward io f back) := by
  obtain ⟨hfile, hoffset, hbelow, hfits, hwindow, hroom, hsize⟩ := h
  rw [refillBackward]
  dsimp only
  by_cases hlong : 2 * f.bufend < f.back.wpos - f.pos
  · rw [if_pos hlong]
    exact seekAndRead_ok io hfile rfl (by omega) (by omega) hsize
  · have hmod : (f.back.wpos - f.pos) % 2 ^ 32 = f.back.wpos - f.pos := Nat.mod_eq_of_lt (by omega)
    rw [if_neg hlong, hmod]
    by_cases hinside : f.back.wpos - f.pos ≤ f.back.wlen
    · -- the position is in the window
      rw [if_pos hinside]
      refine ⟨_, true, rfl, ⟨hfile, hoffset, hbelow, hfits, hwindow, hroom, hsize⟩,
        ⟨?_, hfits, ?_, ?_, .inr ⟨hbelow, hwindow⟩⟩, rfl, ⟨fun _ => ?_, fun _ => rfl⟩,
        fun h => by cases h⟩
      · change f.back.wlen - (f.back.wpos - f.pos) ≤ f.back.wlen
        omega
      · change f.bufend < 2 ^ 32
        omega
      · change f.pos + f.back.wlen = f.back.wpos + (f.back.wlen - (f.back.wpos - f.pos))
        omega
      · change f.back.wlen - (f.back.wpos - f.pos) < f.back.wlen
        omega
    · rw [if_neg hinside]
      generalize hthrice : min (back * 3) f.pos = thrice
      split
      · -- what is kept of the window is read again
        generalize memmove f.buf _ 0 _ = moved
        exact seekAndRead_ok io (f := { f with buf := moved }) (p := f.pos) hfile rfl
          (show thrice < f.bufend by omega) (by omega) hsize
      · exact seekAndRead_ok io (p := f.pos) hfile rfl (by omega) (by omega) hsize

theorem bfdRefill_ok (h : FileOk content f) : Refilled content f.pos f.dieOnEof (bfdRefill io f) := by
  have hback : 4 * (if f.back.keepBackBuf then f.bufend / 4 else 0) ≤ f.bufend := by
    split <;> omega
  rw [bfdRefill]
  by_cases hle : f.back.wpos ≤ f.pos
  · rw [if_pos hle]
    exact refillForward_ok io h hle hback
  · rw [if_neg hle]
    exact refillBackward_ok io h (not_le.mp hle) hback

/-- The back-end for files keeps the rules, at every position. -/
theorem file_serves (io : Nat → Nat) (content : List Byte) (dieOnEof : Bool) :
    Serves (fileBackEnd io) ⟨content, fun _ => true, dieOnEof⟩ (FileOk content) where
  moves f b h := ⟨h.file, h.offset, h.below, h.fits, h.window, h.nonempty, h.size⟩
  allows _ _ := rfl
  refill := by
    refine ⟨bfdRefill io, rfl, fun f p hown hcursor hend => ?_⟩
    have hpos : p = f.pos := by
      have := hcursor.tell
      omega
    rw [hpos]
    exact bfdRefill_ok io hown
  seek := by
    refine ⟨bfdSeek, rfl, fun f p hown hcursor hend pos whence hwhence hset => ?_⟩
    rw [bfdSeek.eq_def, if_neg (not_not_intro hend)]
    cases whence with
    | cur => exact absurd rfl hwhence
    | set =>
        have hpos := hset rfl
        dsimp only
        rw [if_neg (show ¬ Whence.set = .ending by decide), if_pos ⟨hpos, rfl⟩]
        refine ⟨_, rfl, ⟨hown.file, hown.offset, hown.below, hown.fits, hown.window, hown.nonempty,
          hown.size⟩, ⟨hend.le, hcursor.stop, hcursor.size, ?_, .inl hend⟩, hend, rfl⟩
        change pos.toNat + f.bstop = pos.toNat + f.bptr
        omega
    | ending =>
        dsimp only
        rw [if_pos rfl, hown.file]
        by_cases hneg : (content.length : Int) + pos < 0
        · rw [if_pos hneg, if_neg (by omega)]
        · rw [if_neg hneg, if_pos ⟨by omega, rfl⟩]
          refine ⟨_, rfl, ⟨rfl, rfl, Nat.zero_le _, Nat.zero_le _, ?_, hown.nonempty,
            hown.size⟩, ⟨hend.le, hcursor.stop, hcursor.size, ?_, .inl hend⟩, hend, rfl⟩
          · intro i hi
            exact absurd hi (Nat.not_lt_zero i)
          · change _ + f.bstop = _ + f.bptr
            rw [hend]

theorem opened_reading (content : List Byte) {bufLen : Nat} (hbuf : 0 < bufLen)
    (hsize : 4 * bufLen < 2 ^ 32) (keepBackBuf dieOnEof : Bool) :
    Reading ⟨content, fun _ => true, dieOnEof⟩ (FileOk content) 0
      (bfdopenInternal content bufLen keepBackBuf dieOnEof) := by
  refine ⟨⟨rfl, rfl, le_rfl, Nat.zero_le _, ?_, hbuf, hsize⟩, ⟨le_rfl, Nat.zero_le _, ?_, rfl,
    .inl rfl⟩, rfl, rfl⟩
  · intro i hi
    exact absurd hi (Nat.not_lt_zero i)
  · change bufLen < 2 ^ 32
    omega

end OpenAAA.Fastbufs
