import OpenAAA.Opt.FbFileReads

/-!
Writing to a file through a fastbuf. What is in the buffer counts as written: the file is then what
a plain file would be after the same writes, wherever the buffer had to be written out. This needs
a buffer that starts at the position of the back-end; one that has been read does not.
-/

namespace OpenAAA.Fastbufs

open Memory Files

/-! ## Plain files -/

inductive WriteOp where
  | putc (c : Byte)
  | write (data : List Byte)
  | flush
  | setpos (pos : Int)
  | seek (pos : Int) (whence : Whence)
  | rewind
  | tell
  | filesize

/-- A file with a position. -/
structure Plain where
  file : List Byte
  pos : Nat

def Plain.write (s : Plain) (data : List Byte) : Plain :=
  ⟨overwrite 0 s.file s.pos data, s.pos + data.length⟩

def Plain.goTo (s : Plain) (pos : Int) : Except FbFault Plain :=
  if 0 ≤ pos then .ok { s with pos := pos.toNat } else .error .seek

/-- A step of a writer, with the number that it returns. -/
def Plain.step (s : Plain) : WriteOp → Except FbFault (Plain × Option Int)
  | .putc c => .ok (s.write [c], none)
  | .write data => .ok (s.write data, none)
  | .flush => .ok (s, none)
  | .setpos pos | .seek pos .set => (s.goTo pos).map (·, none)
  | .seek pos .cur => (s.goTo (offT (s.pos + pos))).map (·, none)
  | .seek pos .ending =>
    if 0 < pos then .error .seek else (s.goTo (s.file.length + pos)).map (·, none)
  | .rewind => .ok ({ s with pos := 0 }, none)
  | .tell => .ok (s, some s.pos)
  | .filesize => .ok (s, some s.file.length)

def Plain.run (s : Plain) : List WriteOp → Except FbFault (Plain × List (Option Int))
  | [] => .ok (s, [])
  | op :: ops => do
    let (s, out) ← s.step op
    let (s, outs) ← s.run ops
    pure (s, out :: outs)

section FrontEnd

variable {σ : Type} (be : BackEnd σ)

/-- The same of a fastbuf -/
def writeStep (f : Fastbuf σ) : WriteOp → Except FbFault (Fastbuf σ × Option Int)
  | .putc c => (bputc be f c).map (·, none)
  | .write data => (bwrite be f data).map (·, none)
  | .flush => (bflush be f).map (·, none)
  | .setpos pos => (bsetpos be f pos).map (·, none)
  | .seek pos whence => (bseek be f pos whence).map (·, none)
  | .rewind => (brewind be f).map (·, none)
  | .tell => .ok (f, some (btell f))
  | .filesize => (bfilesize be f).map fun r => (r.1, some r.2)

def writeRun (f : Fastbuf σ) : List WriteOp → Except FbFault (Fastbuf σ × List (Option Int))
  | [] => .ok (f, [])
  | op :: ops => do
    let (f, out) ← writeStep be f op
    let (f, outs) ← writeRun f ops
    pure (f, out :: outs)

end FrontEnd

/-! ## The buffer as a part of the file -/

/-- What a flush would write. -/
def pending (f : Fastbuf FbFile) : List Byte := (List.range f.bptr).map f.buf

/-- With its buffer written out, the file is that of `s`. -/
structure Writing (dieOnEof : Bool) (s : Plain) (f : Fastbuf FbFile) : Prop where
  ptr : f.bstop ≤ f.bptr
  fits : f.bptr ≤ f.bufend
  nonempty : 0 < f.bufend
  size : 4 * f.bufend < 2 ^ 32
  offset : f.back.offset = f.back.wpos
  file : overwrite 0 f.back.file f.pos (pending f) = s.file
  place : f.pos + f.bptr = s.pos
  die : f.dieOnEof = dieOnEof

/-- Nothing of the buffer has been read. -/
def Clean (f : Fastbuf FbFile) : Prop := f.bstop = 0 ∧ f.back.wlen = 0

variable (io : Nat → Nat) {dieOnEof : Bool} {s : Plain} {f : Fastbuf FbFile}

@[simp] theorem pending_length (f : Fastbuf FbFile) : (pending f).length = f.bptr := by
  rw [pending, List.length_map, List.length_range]

theorem pending_put (f : Fastbuf FbFile) (data : List Byte) :
    pending (f.put data) = pending f ++ data := by
  have hlength : (pending (f.put data)).length = f.bptr + data.length := pending_length _
  apply List.ext_getElem?
  intro i
  by_cases hi : i < f.bptr + data.length
  · have hput : (pending (f.put data))[i]? = some (memcpy f.buf f.bptr data i) := by
      rw [pending, List.getElem?_map]
      change Option.map _ (List.range (f.bptr + data.length))[i]? = _
      rw [List.getElem?_range hi]
      rfl
    rw [hput]
    by_cases hold : i < f.bptr
    · rw [List.getElem?_append_left (by rwa [pending_length]), memcpy_below hold, pending,
        List.getElem?_map, List.getElem?_range hold]
      rfl
    · rw [List.getElem?_append_right (by rw [pending_length]; omega), pending_length]
      exact (memcpy_inside (not_lt.mp hold) hi).symm
  · rw [List.getElem?_eq_none (by omega), List.getElem?_eq_none]
    rw [List.length_append, pending_length]
    omega

theorem Fastbuf.with_bptr {b : Nat} (h : b = f.bptr) : { f with bptr := b } = f := by
  subst h
  rfl

namespace Writing

/-- Nothing is in the buffer. -/
theorem of_empty (hptr : f.bptr = 0) (hstop : f.bstop = 0) (hroom : 0 < f.bufend)
    (hsize : 4 * f.bufend < 2 ^ 32) (hoffset : f.back.offset = f.back.wpos) :
    Writing f.dieOnEof ⟨f.back.file, f.pos⟩ f := by
  have hempty : pending f = [] := by rw [pending, hptr, List.range_zero, List.map_nil]
  refine ⟨by omega, by omega, hroom, hsize, hoffset, ?_, ?_, rfl⟩
  · rw [hempty, overwrite_nil]
  · rw [hptr, Nat.add_zero]

theorem bavailw (h : Writing dieOnEof s f) : bavailw f = f.bufend - f.bptr := by
  have hfits := h.fits
  have hsize := h.size
  rw [Fastbufs.bavailw, show f.bufend + 2 ^ 32 - f.bptr = f.bufend - f.bptr + 2 ^ 32 by omega,
    Nat.add_mod_right, Nat.mod_eq_of_lt (by omega)]

theorem btell (h : Writing dieOnEof s f) (hclean : Clean f) : btell f = s.pos := by
  rw [Fastbufs.btell, hclean.1, ← h.place]
  omega

theorem put (h : Writing dieOnEof s f) (data : List Byte)
    (hfits : data.length ≤ f.bufend - f.bptr) : Writing dieOnEof (s.write data) (f.put data) := by
  obtain ⟨hptr, hfits', hroom, hsize, hoffset, hfile, hplace, hdie⟩ := h
  refine ⟨?_, ?_, hroom, hsize, hoffset, ?_, ?_, hdie⟩
  · change f.bstop ≤ f.bptr + data.length
    omega
  · change f.bptr + data.length ≤ f.bufend
    omega
  · change overwrite 0 f.back.file f.pos (pending (f.put data)) = overwrite 0 s.file s.pos data
    rw [pending_put, ← overwrite_append, hfile, pending_length, hplace]
  · change f.pos + (f.bptr + data.length) = s.pos + data.length
    omega

end Writing

/-! ## Writing the buffer out -/

theorem writeLoop_ok (fuel : Nat) {F : FbFile} (data : List Byte) (hfuel : data.length ≤ fuel) :
    ∃ calls, writeLoop io fuel F data = .ok { F with
      file := overwrite 0 F.file F.offset data
      offset := F.offset + data.length, calls := calls } := by
  induction fuel generalizing F data with
  | zero =>
      obtain rfl : data = [] := List.length_eq_zero_iff.mp (Nat.le_zero.mp hfuel)
      exact ⟨F.calls, rfl⟩
  | succ fuel ih =>
      rw [writeLoop]
      by_cases hempty : data.isEmpty = true
      · obtain rfl := List.isEmpty_iff.mp hempty
        exact ⟨F.calls, if_pos rfl⟩
      · have hpos : 0 < data.length := by
          rw [List.length_pos_iff, ne_eq, ← List.isEmpty_iff]
          exact hempty
        rw [if_neg hempty]
        dsimp only [FbFile.sysWrite]
        -- as many bytes as the system writes at once
        generalize hn : min (max 1 (io F.calls)) data.length = n
        have htake : (data.take n).length = n := List.length_take_of_le (by omega)
        obtain ⟨calls, hrun⟩ := ih (F := { F with
          file := overwrite 0 F.file F.offset (data.take n)
          offset := F.offset + n, calls := F.calls + 1 }) (data.drop n)
          (by rw [List.length_drop]; omega)
        refine ⟨calls, hrun.trans ?_⟩
        have happend := overwrite_append 0 F.file (data.take n) (data.drop n) F.offset
        rw [htake, List.take_append_drop] at happend
        dsimp only
        rw [happend, List.length_drop, show F.offset + n + (data.length - n) =
          F.offset + data.length by omega]

theorem bfdSpout_ok (h : Writing dieOnEof s f) :
    ∃ f', bfdSpout io f = .ok f' ∧ Writing dieOnEof s f' ∧ Clean f' ∧ f'.bptr = 0 := by
  obtain ⟨hptr, hfits, hroom, hsize, hoffset, hfile, hplace, hdie⟩ := h
  have hstart : (if f.back.wpos ≠ f.pos then f.pos else f.back.offset) = f.pos := by
    split
    · rfl
    · omega
  obtain ⟨calls, hrun⟩ := writeLoop_ok io (pending f).length (F := { f.back with
    offset := f.pos, wpos := f.pos + f.bptr, wlen := 0 }) (pending f) le_rfl
  dsimp only at hrun
  rw [hfile, pending_length] at hrun
  refine ⟨{ f with
    pos := f.pos + f.bptr, bptr := 0, bstop := 0
    back := { f.back with
      file := s.file, wpos := f.pos + f.bptr, wlen := 0, offset := f.pos + f.bptr, calls := calls } },
    ?_, ⟨le_rfl, Nat.zero_le _, hroom, hsize, rfl, rfl, hplace, hdie⟩, ⟨rfl, rfl⟩, rfl⟩
  rw [bfdSpout]
  dsimp only
  rw [hstart, ← pending, pending_length, hrun]
  rfl

theorem doSpout_ok (h : Writing dieOnEof s f) :
    ∃ f', doSpout (fileBackEnd io) f = .ok f' ∧ Writing dieOnEof s f' ∧ Clean f' ∧ f'.bptr = 0 := by
  obtain ⟨f', hrun, hwriting, hclean, hptr⟩ := bfdSpout_ok io h
  refine ⟨f', ?_, hwriting, hclean, hptr⟩
  have hflushed : f.Flushed := ⟨h.ptr, h.fits⟩
  have hflushed' : f'.Flushed := ⟨hwriting.ptr, hwriting.fits⟩
  have hspout : (fileBackEnd io).spout = some (bfdSpout io) := rfl
  rw [doSpout, if_neg (not_not_intro hflushed), hspout]
  dsimp only
  rw [hrun]
  exact if_pos hflushed'

theorem bspout_ok (h : Writing dieOnEof s f) :
    ∃ f', bspout (fileBackEnd io) f = .ok f' ∧ Writing dieOnEof s f' ∧ Clean f' ∧ f'.bptr = 0 := by
  obtain ⟨f', hrun, hwriting, hclean, hptr⟩ := doSpout_ok io h
  refine ⟨f', ?_, hwriting, hclean, hptr⟩
  have hroom := hwriting.nonempty
  rw [bspout, hrun]
  dsimp only
  rw [hclean.1, if_neg (by omega)]

/-- A flush leaves the buffer as it is, if there is nothing to be written. -/
theorem bflush_writes (h : Writing dieOnEof s f) (hclean : Clean f) :
    ∃ f', bflush (fileBackEnd io) f = .ok f' ∧ Writing dieOnEof s f' ∧ Clean f' ∧ f'.bptr = 0 := by
  rw [bflush]
  by_cases hpending : f.bstop < f.bptr
  · rw [if_pos hpending]
    exact doSpout_ok io h
  · have hstop := hclean.1
    have hzero : f.bptr = 0 := by omega
    rw [if_neg hpending, Fastbuf.with_bptr (by omega)]
    exact ⟨f, rfl, h, hclean, hzero⟩

theorem file_of_flushed (h : Writing dieOnEof s f) (hptr : f.bptr = 0) :
    f.back.file = s.file ∧ f.pos = s.pos := by
  have hfile := h.file
  have hplace := h.place
  rw [pending, hptr] at hfile
  rw [hptr] at hplace
  exact ⟨hfile, hplace⟩

/-! ## The operations -/

/-- What the front end gives, if a plain file gives this. -/
def WritesAs (dieOnEof : Bool) {α : Type} (r : Except FbFault (Fastbuf FbFile × α)) :
    Except FbFault (Plain × α) → Prop
  | .ok (s, out) => ∃ f, r = .ok (f, out) ∧ Writing dieOnEof s f ∧ Clean f
  | .error fault => r = .error fault

theorem bputc_ok (h : Writing dieOnEof s f) :
    ∀ c, ∃ f', bputc (fileBackEnd io) f c = .ok f' ∧ Writing dieOnEof (s.write [c]) f' ∧
      (Clean f → Clean f') := by
  intro c
  rw [bputc]
  by_cases hroom : f.bptr < f.bufend
  · rw [if_pos hroom]
    exact ⟨f.put [c], rfl, h.put [c] (by rw [List.length_singleton]; omega), id⟩
  · obtain ⟨f', hrun, hwriting, hclean, hptr⟩ := bspout_ok io h
    have hnonempty := hwriting.nonempty
    rw [if_neg hroom, hrun]
    exact ⟨f'.put [c], rfl, hwriting.put [c] (by rw [List.length_singleton]; omega), fun _ => hclean⟩

theorem writable_ok (h : Writing dieOnEof s f) :
    ∃ f', writable (fileBackEnd io) f = .ok f' ∧ Writing dieOnEof s f' ∧ f'.bptr < f'.bufend ∧
      (Clean f → Clean f') := by
  rw [writable, h.bavailw]
  by_cases hroom : f.bufend - f.bptr ≠ 0
  · rw [if_pos hroom]
    exact ⟨f, rfl, h, by omega, id⟩
  · obtain ⟨f', hrun, hwriting, hclean, hptr⟩ := bspout_ok io h
    have hnonempty := hwriting.nonempty
    rw [if_neg hroom]
    exact ⟨f', hrun, hwriting, by omega, fun _ => hclean⟩

theorem Plain.write_append (s : Plain) (xs ys : List Byte) :
    (s.write xs).write ys = s.write (xs ++ ys) := by
  rw [Plain.write, Plain.write, Plain.write, overwrite_append, List.length_append, Nat.add_assoc]

/-- Afterwards there is something to be written, if there was or something has been written. -/
theorem bwriteSlow_ok (fuel : Nat) {s : Plain} {f : Fastbuf FbFile} (data : List Byte)
    (h : Writing dieOnEof s f) (hfuel : data.length ≤ fuel) :
    ∃ f', bwriteSlow (fileBackEnd io) fuel f data = .ok f' ∧ Writing dieOnEof (s.write data) f' ∧
      (Clean f → Clean f') ∧ (f.bstop < f.bptr ∨ data ≠ [] → f'.bstop < f'.bptr) := by
  induction fuel generalizing s f data with
  | zero =>
      obtain rfl : data = [] := List.length_eq_zero_iff.mp (Nat.le_zero.mp hfuel)
      exact ⟨f, rfl, h, id, fun hsome => hsome.resolve_right fun hne => hne rfl⟩
  | succ fuel ih =>
      rw [bwriteSlow]
      by_cases hempty : data.isEmpty = true
      · obtain rfl := List.isEmpty_iff.mp hempty
        exact ⟨f, if_pos rfl, h, id, fun hsome => hsome.resolve_right fun hne => hne rfl⟩
      · have hpos : 0 < data.length := by
          rw [List.length_pos_iff, ne_eq, ← List.isEmpty_iff]
          exact hempty
        obtain ⟨f', hrun, hwriting, hroom, hkept⟩ := writable_ok io h
        rw [if_neg hempty, hrun]
        dsimp only [bind, Except.bind]
        rw [hwriting.bavailw]
        generalize hk : f'.bufend - f'.bptr = k
        have hput := hwriting.put (data.take k) (by rw [List.length_take]; omega)
        obtain ⟨f'', hrun', hwriting', hkept', hsome⟩ := ih (data.drop k) hput
          (by rw [List.length_drop]; omega)
        rw [Plain.write_append, List.take_append_drop] at hwriting'
        refine ⟨f'', hrun', hwriting', fun hclean => hkept' (hkept hclean), fun _ => hsome (.inl ?_)⟩
        have hptr := hwriting.ptr
        change f'.bstop < f'.bptr + (data.take k).length
        rw [List.length_take]
        omega

theorem bwrite_ok (h : Writing dieOnEof s f) (data : List Byte) :
    ∃ f', bwrite (fileBackEnd io) f data = .ok f' ∧ Writing dieOnEof (s.write data) f' ∧
      (Clean f → Clean f') ∧ (data ≠ [] → f'.bstop < f'.bptr) := by
  rw [bwrite]
  by_cases hfast : data.length ≤ bavailw f
  · rw [if_pos hfast]
    rw [h.bavailw] at hfast
    refine ⟨f.put data, rfl, h.put data hfast, id, fun hne => ?_⟩
    have hptr := h.ptr
    have hpos := List.length_pos_iff.mpr hne
    change f.bstop < f.bptr + data.length
    omega
  · rw [if_neg hfast]
    obtain ⟨f', hrun, hwriting, hclean, hsome⟩ := bwriteSlow_ok io data.length data h le_rfl
    exact ⟨f', hrun, hwriting, hclean, fun hne => hsome (.inr hne)⟩

/-! ## Seeking -/

theorem doSeek_writes (h : Writing dieOnEof s f) (hclean : Clean f) {pos : Int} {whence : Whence}
    (hwhence : whence ≠ .cur) (hset : whence = .set → 0 ≤ pos) :
    WritesAs dieOnEof ((doSeek (fileBackEnd io) f pos whence).map (·, (none : Option Int)))
      ((s.goTo (if whence = .ending then s.file.length + pos else pos)).map (·, none)) := by
  obtain ⟨f', hflush, hwriting, hclean', hptr⟩ := bflush_writes io h hclean
  obtain ⟨hfile, hpos⟩ := file_of_flushed hwriting hptr
  obtain ⟨hptr', hfits, hroom, hsize, hoffset, -, -, rfl⟩ := hwriting
  obtain ⟨hstop, hwlen⟩ := hclean'
  rw [doSeek, hflush]
  dsimp only [bind, Except.bind]
  change WritesAs f'.dieOnEof (Except.map _ (Except.bind (bfdSeek f' pos whence) _)) _
  rw [bfdSeek.eq_def, if_neg (by omega), Plain.goTo]
  cases whence with
  | cur => exact absurd rfl hwhence
  | set =>
      have hnonneg := hset rfl
      rw [if_neg (show ¬ Whence.set = .ending by decide), if_pos hnonneg]
      dsimp only [Except.bind]
      rw [if_neg (not_not_intro ⟨hptr', hfits⟩), if_neg]
      · refine ⟨_, rfl, ?_, hstop, hwlen⟩
        rw [← hfile]
        exact Writing.of_empty (f := { f' with pos := pos.toNat }) hptr hstop hroom hsize hoffset
      · rintro (⟨-, hne⟩ | ⟨hne, -⟩)
        · refine hne ?_
          change (pos.toNat : Int) + f'.bptr - f'.bstop = pos
          omega
        · exact hne rfl
  | ending =>
      rw [if_pos rfl, hfile]
      dsimp only
      by_cases hneg : (s.file.length : Int) + pos < 0
      · rw [if_pos hneg, if_neg (by omega)]
        rfl
      · rw [if_neg hneg, if_pos (by omega)]
        dsimp only [Except.bind]
        rw [if_neg (not_not_intro ⟨hptr', hfits⟩), if_neg]
        · refine ⟨_, rfl, ?_, hstop, rfl⟩
          generalize (s.file.length + pos).toNat = l
          rw [← hfile]
          exact Writing.of_empty (f := { f' with
            pos := l, back := { f'.back with wpos := l, wlen := 0, offset := l } })
            hptr hstop hroom hsize rfl
        · rintro (⟨heq, -⟩ | ⟨-, htell⟩)
          · cases heq
          · change ((s.file.length + pos).toNat : Int) + f'.bptr - f'.bstop < 0 at htell
            omega

theorem bsetpos_writes (h : Writing dieOnEof s f) (hclean : Clean f) (pos : Int) :
    WritesAs dieOnEof ((bsetpos (fileBackEnd io) f pos).map (·, (none : Option Int)))
      ((s.goTo pos).map (·, none)) := by
  have hstop := hclean.1
  rw [bsetpos, if_neg (by omega), h.btell hclean]
  by_cases hhere : pos = s.pos
  · subst hhere
    rw [if_neg (not_not_intro rfl), Plain.goTo, if_pos (Int.natCast_nonneg _)]
    exact ⟨f, rfl, by simpa using h, hclean⟩
  · rw [if_pos hhere]
    by_cases hneg : pos < 0
    · rw [if_pos hneg, Plain.goTo, if_neg (by omega)]
      rfl
    · rw [if_neg hneg]
      exact doSeek_writes io h hclean (by decide) fun _ => not_lt.mp hneg

theorem bseek_writes (h : Writing dieOnEof s f) (hclean : Clean f) (pos : Int) (whence : Whence) :
    WritesAs dieOnEof ((bseek (fileBackEnd io) f pos whence).map (·, (none : Option Int)))
      (s.step (.seek pos whence)) := by
  cases whence with
  | set => exact bsetpos_writes io h hclean pos
  | cur =>
      rw [bseek, h.btell hclean]
      exact bsetpos_writes io h hclean (offT (s.pos + pos))
  | ending =>
      rw [bseek, Plain.step]
      by_cases hpos : 0 < pos
      · rw [if_pos hpos, if_pos hpos]
        rfl
      · rw [if_neg hpos, if_neg hpos]
        exact doSeek_writes io h hclean (by decide) fun h => by cases h

theorem WritesAs.state {r : Except FbFault (Fastbuf FbFile)} {s : Plain}
    (h : WritesAs dieOnEof (r.map (·, (none : Option Int))) (.ok (s, none))) :
    ∃ f, r = .ok f ∧ Writing dieOnEof s f ∧ Clean f := by
  obtain ⟨f, hr, hwriting⟩ := h
  cases r with
  | error fault => cases hr
  | ok g =>
      cases hr
      exact ⟨f, rfl, hwriting⟩

theorem Plain.goTo_natCast (s : Plain) (pos : Nat) : s.goTo pos = .ok { s with pos := pos } := by
  rw [Plain.goTo, if_pos (Int.natCast_nonneg pos), Int.toNat_natCast]

theorem brewind_writes (h : Writing dieOnEof s f) (hclean : Clean f) :
    WritesAs dieOnEof ((brewind (fileBackEnd io) f).map (·, (none : Option Int)))
      (s.step .rewind) := by
  obtain ⟨f', hflush, hwriting, hclean', -⟩ := bflush_writes io h hclean
  have hset := bsetpos_writes io hwriting hclean' (0 : Nat)
  rw [Plain.goTo_natCast] at hset
  rw [brewind, hflush]
  exact hset

theorem bfilesize_writes (h : Writing dieOnEof s f) (hclean : Clean f) :
    WritesAs dieOnEof ((bfilesize (fileBackEnd io) f).map fun r => (r.1, some r.2))
      (s.step .filesize) := by
  obtain ⟨f₁, hflush, hwriting₁, hclean₁, hptr⟩ := bflush_writes io h hclean
  obtain ⟨hfile, -⟩ := file_of_flushed hwriting₁ hptr
  obtain ⟨-, -, hroom, hsize, -, -, -, hdie⟩ := hwriting₁
  generalize hl : (f₁.back.file.length : Int) + 0 = l
  -- the back-end goes to the end of the file
  have hend : Writing dieOnEof { s with pos := s.file.length } { f₁ with
      pos := l.toNat, back := { f₁.back with wpos := l.toNat, wlen := 0, offset := l.toNat } } := by
    rw [← hfile, ← hdie, show f₁.back.file.length = l.toNat by omega]
    exact Writing.of_empty (f := { f₁ with
      pos := l.toNat, back := { f₁.back with wpos := l.toNat, wlen := 0, offset := l.toNat } })
      hptr hclean₁.1 hroom hsize rfl
  have hseek : bfdSeek f₁ 0 .ending = .ok { f₁ with
      pos := l.toNat, back := { f₁.back with wpos := l.toNat, wlen := 0, offset := l.toNat } } := by
    have hstop := hclean₁.1
    rw [bfdSeek.eq_def, if_neg (by omega)]
    dsimp only
    rw [hl, if_neg (by omega)]
  have hset := bsetpos_writes io hend ⟨hclean₁.1, rfl⟩ (s.pos : Nat)
  rw [Plain.goTo_natCast] at hset
  obtain ⟨f₂, hback, hwriting₂⟩ := WritesAs.state (s := { s with pos := s.pos }) hset
  have hcallback : (fileBackEnd io).seek = some bfdSeek := rfl
  rw [bfilesize, hcallback, h.btell hclean, hflush]
  dsimp only [bind, Except.bind]
  rw [hseek]
  dsimp only
  rw [hback, hend.btell ⟨hclean₁.1, rfl⟩]
  exact ⟨f₂, rfl, hwriting₂⟩

/-! ## Runs -/

theorem writeStep_ok (h : Writing dieOnEof s f) (hclean : Clean f) (op : WriteOp) :
    WritesAs dieOnEof (writeStep (fileBackEnd io) f op) (s.step op) := by
  cases op with
  | putc c =>
      obtain ⟨f', hrun, hwriting, hkept⟩ := bputc_ok io h c
      rw [writeStep, hrun]
      exact ⟨f', rfl, hwriting, hkept hclean⟩
  | write data =>
      obtain ⟨f', hrun, hwriting, hkept, -⟩ := bwrite_ok io h data
      rw [writeStep, hrun]
      exact ⟨f', rfl, hwriting, hkept hclean⟩
  | flush =>
      obtain ⟨f', hrun, hwriting, hclean', -⟩ := bflush_writes io h hclean
      rw [writeStep, hrun]
      exact ⟨f', rfl, hwriting, hclean'⟩
  | setpos pos => exact bsetpos_writes io h hclean pos
  | seek pos whence => exact bseek_writes io h hclean pos whence
  | rewind => exact brewind_writes io h hclean
  | tell => exact ⟨f, by rw [writeStep, h.btell hclean], h, hclean⟩
  | filesize => exact bfilesize_writes io h hclean

theorem writeRun_ok (ops : List WriteOp) {s : Plain} {f : Fastbuf FbFile}
    (h : Writing dieOnEof s f) (hclean : Clean f) :
    WritesAs dieOnEof (writeRun (fileBackEnd io) f ops) (s.run ops) := by
  induction ops generalizing s f with
  | nil => exact ⟨f, rfl, h, hclean⟩
  | cons op ops ih =>
      have hstep := writeStep_ok io h hclean op
      rw [writeRun, Plain.run]
      cases hs : s.step op with
      | error fault =>
          rw [hs] at hstep
          rw [show writeStep (fileBackEnd io) f op = .error fault from hstep]
          rfl
      | ok r =>
          rw [hs] at hstep
          obtain ⟨f', hrun, hwriting, hclean'⟩ := hstep
          have hrest := ih hwriting hclean'
          rw [hrun]
          dsimp only [bind, Except.bind]
          cases hr : r.1.run ops with
          | error fault =>
              rw [hr] at hrest
              rw [show writeRun (fileBackEnd io) f' ops = .error fault from hrest]
              rfl
          | ok r' =>
              rw [hr] at hrest
              obtain ⟨f'', hrun', hwriting'⟩ := hrest
              rw [hrun']
              exact ⟨f'', rfl, hwriting'⟩

/-- After a flush the file can be read, from the position of the writer. -/
theorem Writing.reading (h : Writing dieOnEof s f) (hclean : Clean f) (hptr : f.bptr = 0) :
    Reading ⟨s.file, fun _ => true, dieOnEof⟩ (FileOk s.file) s.pos f := by
  obtain ⟨hfile, hpos⟩ := file_of_flushed h hptr
  obtain ⟨hstop, hwlen⟩ := hclean
  refine ⟨⟨hfile, h.offset, by omega, by omega, fun i hi => by omega, h.nonempty, h.size⟩,
    ⟨by omega, by omega, ?_, by omega, .inl (by omega)⟩, rfl, h.die⟩
  have hsize := h.size
  omega

/-- What writes to a file come to: faults are those of a plain file, and after the last flush the
file is the plain one, which reads back. -/
def ReadsBack (io : Nat → Nat) (dieOnEof : Bool)
    (r : Except FbFault (Fastbuf FbFile × List (Option Int))) :
    Except FbFault (Plain × List (Option Int)) → Prop
  | .ok (s, outs) => ∃ f f', r = .ok (f, outs) ∧ bflush (fileBackEnd io) f = .ok f' ∧
      f'.back.file = s.file ∧ ∀ ops, readRun (fileBackEnd io) f' ops =
        (Stream.mk s.file (fun _ => true) dieOnEof).run s.pos ops
  | .error fault => r = .error fault

/-- A file that is opened and written, in any mix of the operations, is what a plain file is after
the same writes; neither the size of the buffer nor how little the system writes at once can be
seen, in what the operations return, in the file or in reading it afterwards. -/
theorem fileWrites_ok (io : Nat → Nat) (content : List Byte) {bufLen : Nat} (hbuf : 0 < bufLen)
    (hsize : 4 * bufLen < 2 ^ 32) (keepBackBuf dieOnEof : Bool) (ops : List WriteOp) :
    ReadsBack io dieOnEof
      (writeRun (fileBackEnd io) (bfdopenInternal content bufLen keepBackBuf dieOnEof) ops)
      ((Plain.mk content 0).run ops) := by
  have hopened := Writing.of_empty (f := bfdopenInternal content bufLen keepBackBuf dieOnEof)
    rfl rfl hbuf hsize rfl
  have hrun := writeRun_ok io ops hopened ⟨rfl, rfl⟩
  change WritesAs dieOnEof _ ((Plain.mk content 0).run ops) at hrun
  cases hs : (Plain.mk content 0).run ops with
  | error fault =>
      rw [hs] at hrun
      exact hrun
  | ok r =>
      rw [hs] at hrun
      obtain ⟨f, hok, hwriting, hclean⟩ := hrun
      obtain ⟨f', hflush, hwriting', hclean', hptr⟩ := bflush_writes io hwriting hclean
      exact ⟨f, f', hok, hflush, (file_of_flushed hwriting' hptr).1, fun reads =>
        readRun_ok (file_serves io r.1.file dieOnEof) (hwriting'.reading hclean' hptr) reads⟩

/-- A small buffer, a gap and short writes -/
theorem fileWrites_ok_small :
    0 < 3 ∧ 4 * 3 < 2 ^ 32 ∧
      ReadsBack (fun _ => 2) false
        (writeRun (fileBackEnd fun _ => 2) (bfdopenInternal [1, 2] 3 false false)
          [.write [7, 7, 7, 7, 7], .seek 2 .cur, .putc 9, .filesize, .rewind])
        ((Plain.mk [1, 2] 0).run [.write [7, 7, 7, 7, 7], .seek 2 .cur, .putc 9, .filesize, .rewind]) :=
  ⟨by decide, by decide, fileWrites_ok _ _ (by decide) (by decide) _ _ _⟩

/-! ## Writing after reading -/

/-- Neither the flush nor the seek moves the pointers from the end of what has been read. -/
theorem brewind_eq {content : List Byte} {p : Nat}
    (h : Reading ⟨content, fun _ => true, dieOnEof⟩ (FileOk content) p f) :
    brewind (fileBackEnd io) f = .ok { f with bptr := f.bstop, pos := 0 } := by
  obtain ⟨hflush, hflushed⟩ := bflush_ok (file_serves io content dieOnEof) h
  have hstop := h.cursor.stop
  rw [brewind, hflush]
  dsimp only [bind, Except.bind]
  rw [bsetpos, if_neg (by dsimp only; omega), hflushed.btell]
  by_cases hpos : f.pos = 0
  · rw [hpos, if_neg (by simp)]
  · have hflush' : bflush (fileBackEnd io) { f with bptr := f.bstop } =
        .ok { f with bptr := f.bstop } := if_neg (lt_irrefl f.bstop)
    have hseek : bfdSeek { f with bptr := f.bstop } 0 .set =
        .ok { f with bptr := f.bstop, pos := 0 } := if_neg (not_not_intro rfl)
    have hcallback : (fileBackEnd io).seek = some bfdSeek := rfl
    rw [if_pos (by omega), if_neg (by omega), doSeek, hflush', hcallback]
    dsimp only [bind, Except.bind]
    rw [hseek]
    dsimp only
    rw [if_neg (not_not_intro ⟨le_rfl, hstop⟩), if_neg]
    rintro (⟨-, hne⟩ | ⟨hne, -⟩)
    · refine hne ?_
      change ((0 : Nat) : Int) + f.bstop - f.bstop = 0
      omega
    · exact hne rfl

/-- `bfd_spout` writes the buffer from its beginning, not from `bstop`: who has read, goes to the
beginning and writes there, writes the rest of the window in front of the data. The position of the
front end, which `spout` should not change, is then wrong by as much. -/
theorem fileRewrite_stale (io : Nat → Nat) (content : List Byte) {bufLen : Nat} (hbuf : 0 < bufLen)
    (hsize : 4 * bufLen < 2 ^ 32) (keepBackBuf dieOnEof : Bool) {ops : List ReadOp}
    {f : Fastbuf FbFile}
    (hread : readsTo (fileBackEnd io) (bfdopenInternal content bufLen keepBackBuf dieOnEof) ops =
      .ok f) {data : List Byte} (hdata : data ≠ []) :
    ∃ f₁ f₂ f₃, brewind (fileBackEnd io) f = .ok f₁ ∧ bwrite (fileBackEnd io) f₁ data = .ok f₂ ∧
      bflush (fileBackEnd io) f₂ = .ok f₃ ∧
      f₃.back.file = overwrite 0 content 0 ((List.range f.bstop).map f.buf ++ data) ∧
      btell f₁ = 0 ∧ btell f₃ = f.bstop + data.length ∧
      (btell f₃ = btell f₁ + data.length ↔ f.bstop = 0) := by
  obtain ⟨q, h⟩ := readsTo_ok (file_serves io content dieOnEof)
    (opened_reading content hbuf hsize keepBackBuf dieOnEof) hread
  have hstale : Writing dieOnEof ⟨overwrite 0 content 0 ((List.range f.bstop).map f.buf), f.bstop⟩
      { f with bptr := f.bstop, pos := 0 } := by
    refine ⟨le_rfl, h.cursor.stop, h.own.nonempty, h.own.size, h.own.offset, ?_, ?_, h.die⟩
    · change overwrite 0 f.back.file 0 _ = overwrite 0 content 0 _
      rw [h.own.file]
      rfl
    · exact Nat.zero_add f.bstop
  obtain ⟨f₂, hwrite, hwriting, -, hsome⟩ := bwrite_ok io hstale data
  obtain ⟨f₃, hspout, hwriting', hclean, hptr⟩ := doSpout_ok io hwriting
  have htell := hwriting'.btell hclean
  change btell f₃ = ((f.bstop + data.length : Nat) : Int) at htell
  have hstart : btell { f with bptr := f.bstop, pos := 0 } = 0 := by
    change ((0 : Nat) : Int) + f.bstop - f.bstop = 0
    omega
  refine ⟨_, f₂, f₃, brewind_eq io h, hwrite, ?_, ?_, hstart, ?_, ?_⟩
  · rw [bflush, if_pos (hsome hdata)]
    exact hspout
  · rw [(file_of_flushed hwriting' hptr).1]
    have happend := overwrite_append 0 content ((List.range f.bstop).map f.buf) data 0
    rw [List.length_map, List.length_range, Nat.zero_add] at happend
    exact happend
  · rw [htell]
    omega
  · rw [htell, hstart]
    omega

/-- One byte is read, and the file is written anew. -/
theorem fileRewrite_stale_byte :
    [5] ≠ ([] : List Byte) ∧
      ∃ f f₁ f₂ f₃, readsTo (fileBackEnd fun _ => 8) (bfdopenInternal [1, 2] 8 false false) [.getc] =
          .ok f ∧
        brewind (fileBackEnd fun _ => 8) f = .ok f₁ ∧
        bwrite (fileBackEnd fun _ => 8) f₁ [5] = .ok f₂ ∧
        bflush (fileBackEnd fun _ => 8) f₂ = .ok f₃ ∧ f₃.back.file = [1, 2, 5] := by
  have hread : ∃ f, readsTo (fileBackEnd fun _ => 8) (bfdopenInternal [1, 2] 8 false false)
      [.getc] = .ok f ∧ (List.range f.bstop).map f.buf = [1, 2] := ⟨_, rfl, rfl⟩
  obtain ⟨f, hread, hbuf⟩ := hread
  obtain ⟨f₁, f₂, f₃, hrewind, hwrite, hflush, hfile, -⟩ :=
    fileRewrite_stale (fun _ => 8) [1, 2] (by decide) (by decide) false false hread
      (show [5] ≠ [] by decide)
  rw [hbuf] at hfile
  exact ⟨by decide, f, f₁, f₂, f₃, hread, hrewind, hwrite, hflush, hfile⟩

end OpenAAA.Fastbufs
