import OpenAAA.Opt.Fastbuf

/-!
Reading through a fastbuf. A stream is its contents and a position; a back-end serves it if its
callbacks keep to the rules of `fastbuf.h`. Whatever the front end is then asked to read or where
it is asked to seek, it gives what the stream has there.
-/

namespace OpenAAA.Fastbufs

open Memory

variable {σ : Type}

/-! ## The stream -/

inductive ReadOp where
  | getc
  | peekc
  | back
  | eof
  | read (l : Nat)
  | readb (l : Nat)
  | skip (l : Nat)
  | gets (l : Nat)
  | setpos (pos : Int)
  | seek (pos : Int) (whence : Whence)
  | rewind
  | tell
  | filesize

inductive ReadOut where
  | byte (c : Option Byte)
  | flag (b : Bool)
  | bytes (data : List Byte)
  | line (r : Gets)
  | done
  | number (n : Int)
deriving DecidableEq

/-- What a stream is: its contents, the positions it allows, and whether the end is an error. -/
structure Stream where
  content : List Byte
  allows : Nat → Bool
  dieOnEof : Bool

/-- The next line of at most `l - 1` bytes, and how far it reaches with its end. -/
def nextLine (rest : List Byte) (l : Nat) : Gets × Nat :=
  let line := rest.takeWhile (· ≠ 10)
  if rest.isEmpty then (.nothing, 0)
  else if line.length < l then (.line line, min (line.length + 1) rest.length)
  else (.long (rest.take l), l)

def Stream.goTo (s : Stream) (pos : Int) : Except FbFault (Nat × ReadOut) :=
  if 0 ≤ pos ∧ s.allows pos.toNat then .ok (pos.toNat, .done) else .error .seek

def Stream.peek (s : Stream) (p : Nat) : Except FbFault (Option Byte) :=
  if s.dieOnEof ∧ s.content.length ≤ p then .error .eof else .ok s.content[p]?

/-- The next `l` bytes, or what is left; with the check, less than `l` but some is an error. -/
def Stream.read (s : Stream) (p l : Nat) (check : Bool) : Except FbFault (Nat × List Byte) :=
  if (check = true ∧ s.content.drop p ≠ [] ∨ check = false ∧ s.dieOnEof = true) ∧
      (s.content.drop p).length < l then .error .eof
  else .ok (p + ((s.content.drop p).take l).length, (s.content.drop p).take l)

/-- A step of a reader at the position `p`. -/
def Stream.step (s : Stream) (p : Nat) : ReadOp → Except FbFault (Nat × ReadOut)
  | .getc => (s.peek p).map fun c => (if c.isSome then p + 1 else p, .byte c)
  | .peekc | .back => (s.peek p).map fun c => (p, .byte c)
  | .eof => .ok (p, .flag (s.content.length ≤ p))
  | .read l => (s.read p l false).map fun r => (r.1, .bytes r.2)
  | .readb l => (s.read p l true).map fun r => (r.1, .bytes r.2)
  | .skip l => .ok (p + min l (s.content.drop p).length, .flag (l ≤ (s.content.drop p).length))
  | .gets l =>
    if l = 0 then .error .assertion
    else .ok (p + (nextLine (s.content.drop p) l).2, .line (nextLine (s.content.drop p) l).1)
  | .setpos pos | .seek pos .set => s.goTo pos
  | .seek pos .cur => s.goTo (offT (p + pos))
  | .seek pos .ending => if 0 < pos then .error .seek else s.goTo (s.content.length + pos)
  | .rewind => s.goTo 0
  | .tell => .ok (p, .number p)
  | .filesize => .ok (p, .number s.content.length)

/-- The same of a fastbuf; `back` gets a byte and returns it. -/
def readStep (be : BackEnd σ) (f : Fastbuf σ) : ReadOp → Except FbFault (Fastbuf σ × ReadOut)
  | .getc => (bgetc be f).map fun r => (r.1, .byte r.2)
  | .peekc => (bpeekc be f).map fun r => (r.1, .byte r.2)
  | .back => do
    let (f, c) ← bgetc be f
    let f ← if c.isSome then bungetc f else .ok f
    pure (f, .byte c)
  | .eof => (beof be f).map fun r => (r.1, .flag r.2)
  | .read l => (bread be f l false).map fun r => (r.1, .bytes r.2)
  | .readb l => (bread be f l true).map fun r => (r.1, .bytes r.2)
  | .skip l => (bskip be f l).map fun r => (r.1, .flag r.2)
  | .gets l => (bgetsNodie be f l).map fun r => (r.1, .line r.2)
  | .setpos pos => (bsetpos be f pos).map fun f => (f, .done)
  | .seek pos whence => (bseek be f pos whence).map fun f => (f, .done)
  | .rewind => (brewind be f).map fun f => (f, .done)
  | .tell => .ok (f, .number (btell f))
  | .filesize => (bfilesize be f).map fun r => (r.1, .number r.2)

/-! ## The rules for back-ends -/

/-- The cursor of the front end is at `p`, and in front of the cursor of the back-end the
buffer holds what the stream has there, unless all of it has been read. -/
structure Cursor (content : List Byte) (p : Nat) (f : Fastbuf σ) : Prop where
  ptr : f.bptr ≤ f.bstop
  stop : f.bstop ≤ f.bufend
  size : f.bufend < 2 ^ 32
  tell : p + f.bstop = f.pos + f.bptr
  window : f.bptr = f.bstop ∨
    f.bstop ≤ f.pos ∧ ∀ i < f.bstop, content[f.pos - f.bstop + i]? = some (f.buf i)

/-- The rules of `fastbuf.h` for a back-end that can be read. `Own` is what the back-end keeps;
the front end only moves `bptr`. -/
structure Serves (be : BackEnd σ) (s : Stream) (Own : Fastbuf σ → Prop) : Prop where
  moves : ∀ f b, Own f → Own { f with bptr := b }
  allows : ∀ q ≤ s.content.length, s.allows q
  refill : ∃ refill, be.refill = some refill ∧ ∀ f p, Own f → Cursor s.content p f →
    f.bptr = f.bstop → ∃ f' more, refill f = .ok (f', more) ∧ Own f' ∧ Cursor s.content p f' ∧
      f'.dieOnEof = f.dieOnEof ∧ (more = true ↔ f'.bptr < f'.bstop) ∧
      (more = false → s.content.length ≤ p)
  seek : ∃ seek, be.seek = some seek ∧ ∀ f p, Own f → Cursor s.content p f → f.bptr = f.bstop →
    ∀ (pos : Int) (whence : Whence), whence ≠ .cur → (whence = .set → 0 ≤ pos) →
      let t : Int := if whence = .ending then s.content.length + pos else pos
      if 0 ≤ t ∧ s.allows t.toNat then ∃ f', seek f pos whence = .ok f' ∧ Own f' ∧
        Cursor s.content t.toNat f' ∧ f'.bptr = f'.bstop ∧ f'.dieOnEof = f.dieOnEof
      else seek f pos whence = .error .seek

/-- The front end is at a position that the stream allows. -/
structure Reading (s : Stream) (Own : Fastbuf σ → Prop) (p : Nat) (f : Fastbuf σ) : Prop where
  own : Own f
  cursor : Cursor s.content p f
  allowed : s.allows p
  die : f.dieOnEof = s.dieOnEof

variable {be : BackEnd σ} {s : Stream} {Own : Fastbuf σ → Prop} {p : Nat} {f : Fastbuf σ}

namespace Reading

theorem btell (h : Reading s Own p f) : btell f = p := by
  have := h.cursor.tell
  rw [Fastbufs.btell]
  omega

theorem bavailr (h : Reading s Own p f) : bavailr f = f.bstop - f.bptr := by
  have h₁ := h.cursor.ptr
  have h₂ := h.cursor.stop
  have h₃ := h.cursor.size
  rw [Fastbufs.bavailr, show f.bstop + 2 ^ 32 - f.bptr = f.bstop - f.bptr + 2 ^ 32 by omega,
    Nat.add_mod_right, Nat.mod_eq_of_lt (by omega)]

/-- What is in the buffer is what the stream has. -/
theorem get (h : Reading s Own p f) {i : Nat} (hi : i < f.bstop - f.bptr) :
    s.content[p + i]? = some (f.buf (f.bptr + i)) := by
  have htell := h.cursor.tell
  rcases h.cursor.window with hdone | ⟨hpos, hbytes⟩
  · omega
  · rw [← hbytes (f.bptr + i) (by omega)]
    congr 1
    omega

theorem left (h : Reading s Own p f) : f.bstop - f.bptr ≤ (s.content.drop p).length := by
  by_contra hlt
  rw [List.length_drop] at hlt
  have hlast := h.get (i := f.bstop - f.bptr - 1) (by omega)
  obtain ⟨hbound, -⟩ := List.getElem?_eq_some_iff.mp hlast
  omega

theorem bytesAt (h : Reading s Own p f) {n : Nat} (hn : n ≤ f.bstop - f.bptr) :
    bytesAt f n = .ok ((s.content.drop p).take n) := by
  have hleft := h.left
  have hstop := h.cursor.stop
  have hptr := h.cursor.ptr
  rw [Fastbufs.bytesAt, if_neg (by omega)]
  congr 1
  apply List.ext_getElem?
  intro i
  by_cases hi : i < n
  · rw [List.getElem?_take_of_lt hi, List.getElem?_drop, h.get (by omega)]
    simp [hi]
  · rw [List.getElem?_eq_none (by simp; omega), List.getElem?_eq_none (by simp; omega)]

theorem advance (hserves : Serves be s Own) (h : Reading s Own p f) {n : Nat}
    (hn : n ≤ f.bstop - f.bptr) : Reading s Own (p + n) (f.advance n) := by
  obtain ⟨hptr, hstop, hsize, htell, hwindow⟩ := h.cursor
  refine ⟨hserves.moves _ _ h.own, ⟨?_, hstop, hsize, ?_, ?_⟩, ?_, h.die⟩
  · change f.bptr + n ≤ f.bstop
    omega
  · change p + n + f.bstop = f.pos + (f.bptr + n)
    omega
  · rcases hwindow with hdone | hbytes
    · left
      change f.bptr + n = f.bstop
      omega
    · exact .inr hbytes
  · by_cases hzero : n = 0
    · rw [hzero]
      exact h.allowed
    · have hleft := h.left
      rw [List.length_drop] at hleft
      exact hserves.allows _ (by omega)

end Reading

/-! ## Single operations -/

/-- What the front end gives, if the stream gives this. -/
def Agrees {α : Type} (s : Stream) (Own : Fastbuf σ → Prop) (r : Except FbFault (Fastbuf σ × α)) :
    Except FbFault (Nat × α) → Prop
  | .ok (p, out) => ∃ f, r = .ok (f, out) ∧ Reading s Own p f
  | .error fault => r = .error fault

theorem Agrees.map {α β : Type} {r : Except FbFault (Fastbuf σ × α)} {t : Except FbFault (Nat × α)}
    (g : α → β) (h : Agrees s Own r t) :
    Agrees s Own (r.map fun x => (x.1, g x.2)) (t.map fun x => (x.1, g x.2)) := by
  cases t with
  | ok out =>
      obtain ⟨f, rfl, hreading⟩ := h
      exact ⟨f, rfl, hreading⟩
  | error fault =>
      rw [show r = .error fault from h]
      rfl

theorem refill_ok (hserves : Serves be s Own) (h : Reading s Own p f) (hend : f.bptr = f.bstop) :
    ∃ refill f' more, be.refill = some refill ∧ refill f = .ok (f', more) ∧ Reading s Own p f' ∧
      (more = true ↔ f'.bptr < f'.bstop) ∧ (more = false → s.content.length ≤ p) := by
  obtain ⟨refill, hrefill, hok⟩ := hserves.refill
  obtain ⟨f', more, hrun, hown, hcursor, hdie, hmore, hlast⟩ := hok f p h.own h.cursor hend
  exact ⟨refill, f', more, hrefill, hrun, ⟨hown, hcursor, h.allowed, hdie.trans h.die⟩, hmore, hlast⟩

theorem brefill_ok (hserves : Serves be s Own) (h : Reading s Own p f) (hend : f.bptr = f.bstop)
    (allowEof : Bool) :
    ∃ f' more, brefill be f allowEof =
        (if !more && !allowEof && s.dieOnEof then .error .eof else .ok (f', more)) ∧
      Reading s Own p f' ∧ (more = true ↔ f'.bptr < f'.bstop) ∧
      (more = false → s.content.length ≤ p) := by
  obtain ⟨refill, f', more, hrefill, hrun, hreading, hmore, hlast⟩ := refill_ok hserves h hend
  refine ⟨f', more, ?_, hreading, hmore, hlast⟩
  have hptr := hreading.cursor.ptr
  have hstop := hreading.cursor.stop
  have hchecked : refillChecked f' more = true := by
    rw [refillChecked]
    cases more with
    | true => simpa using ⟨hmore.mp rfl, hstop⟩
    | false =>
        have hnot : ¬ f'.bptr < f'.bstop := fun hlt => Bool.false_ne_true (hmore.mpr hlt)
        simpa using ⟨by omega, hstop⟩
  have hflushed : f.Flushed := ⟨hend.ge, hend.le.trans h.cursor.stop⟩
  rw [brefill, if_neg (not_not_intro hflushed), hrefill]
  dsimp only
  rw [hrun]
  dsimp only
  rw [hchecked, if_neg (by simp), hreading.die]

/-- After a refill there is something to read unless the stream has ended. -/
theorem more_iff {f' : Fastbuf σ} {more : Bool} (h : Reading s Own p f')
    (hmore : more = true ↔ f'.bptr < f'.bstop) (hlast : more = false → s.content.length ≤ p) :
    more = true ↔ p < s.content.length := by
  constructor
  · intro htrue
    have hleft := h.left
    have := hmore.mp htrue
    rw [List.length_drop] at hleft
    omega
  · intro hlt
    cases more with
    | true => rfl
    | false =>
        have := hlast rfl
        omega

theorem byteAt_ok (h : Reading s Own p f) (hlt : f.bptr < f.bstop) :
    ∃ c, byteAt f = .ok c ∧ s.content[p]? = some c := by
  have hstop := h.cursor.stop
  refine ⟨f.buf f.bptr, if_pos (by omega), ?_⟩
  simpa using h.get (i := 0) (by omega)

theorem bpeekc_ok (hserves : Serves be s Own) (h : Reading s Own p f) :
    Agrees s Own (bpeekc be f) ((s.peek p).map fun c => (p, c)) ∧
      ∀ f' c, bpeekc be f = .ok (f', some c) → f'.bptr < f'.bstop := by
  rw [bpeekc, Stream.peek]
  by_cases hlt : f.bptr < f.bstop
  · obtain ⟨c, hbyte, hc⟩ := byteAt_ok h hlt
    obtain ⟨hbound, -⟩ := List.getElem?_eq_some_iff.mp hc
    rw [if_pos hlt, hbyte, if_neg (by omega), hc]
    refine ⟨⟨f, rfl, h⟩, fun f' c hrun => ?_⟩
    cases hrun
    exact hlt
  · have hend : f.bptr = f.bstop := le_antisymm h.cursor.ptr (not_lt.mp hlt)
    obtain ⟨f', more, hrun, hreading, hmore, hlast⟩ := brefill_ok hserves h hend false
    have hiff := more_iff hreading hmore hlast
    rw [if_neg hlt, hrun]
    cases more with
    | true =>
        obtain ⟨c, hbyte, hc⟩ := byteAt_ok hreading (hmore.mp rfl)
        have hp := hiff.mp rfl
        rw [if_neg (by simp), if_neg (by omega), hc]
        dsimp only [bind, Except.bind]
        rw [if_pos rfl, hbyte]
        refine ⟨⟨f', rfl, hreading⟩, fun f'' c hrun => ?_⟩
        cases hrun
        exact hmore.mp rfl
    | false =>
        have hp := hlast rfl
        cases hdie : s.dieOnEof with
        | true =>
            rw [if_pos (by simp), if_pos ⟨rfl, hp⟩]
            exact ⟨rfl, fun f'' c hrun => by cases hrun⟩
        | false =>
            rw [if_neg (by simp), if_neg (by simp), List.getElem?_eq_none hp]
            exact ⟨⟨f', rfl, hreading⟩, fun f'' c hrun => by cases hrun⟩

theorem bgetc_ok (hserves : Serves be s Own) (h : Reading s Own p f) :
    Agrees s Own (bgetc be f) ((s.peek p).map fun c => (if c.isSome then p + 1 else p, c)) ∧
      ∀ f' c, bgetc be f = .ok (f', some c) → ∃ f₀, f' = f₀.advance 1 ∧ Reading s Own p f₀ := by
  obtain ⟨hpeek, hptr⟩ := bpeekc_ok hserves h
  rw [bgetc]
  cases hs : s.peek p with
  | error fault =>
      rw [hs] at hpeek
      rw [show bpeekc be f = .error fault from hpeek]
      exact ⟨rfl, fun f' c hrun => by cases hrun⟩
  | ok c =>
      rw [hs] at hpeek
      obtain ⟨f', hrun, hreading⟩ := hpeek
      rw [hrun]
      cases c with
      | none => exact ⟨⟨f', rfl, hreading⟩, fun f'' c hok => by cases hok⟩
      | some c =>
          have hlt := hptr f' c hrun
          exact ⟨⟨f'.advance 1, rfl, hreading.advance hserves (by omega)⟩, fun f'' c' hok => by
            cases hok
            exact ⟨f', rfl, hreading⟩⟩

theorem beof_ok (hserves : Serves be s Own) (h : Reading s Own p f) :
    Agrees s Own (beof be f) (.ok (p, decide (s.content.length ≤ p))) := by
  rw [beof]
  by_cases hlt : f.bptr < f.bstop
  · obtain ⟨c, -, hc⟩ := byteAt_ok h hlt
    obtain ⟨hbound, -⟩ := List.getElem?_eq_some_iff.mp hc
    rw [if_pos hlt]
    exact ⟨f, by simp [hbound], h⟩
  · have hend : f.bptr = f.bstop := le_antisymm h.cursor.ptr (not_lt.mp hlt)
    obtain ⟨f', more, hrun, hreading, hmore, hlast⟩ := brefill_ok hserves h hend true
    have hiff := more_iff hreading hmore hlast
    rw [if_neg hlt, hrun, if_neg (by simp)]
    have hout : (!more) = decide (s.content.length ≤ p) := by
      cases more with
      | true => simpa using hiff.mp rfl
      | false => simpa using hlast rfl
    rw [← hout]
    exact ⟨f', rfl, hreading⟩

theorem available_ok (hserves : Serves be s Own) (h : Reading s Own p f) (check : Bool) :
    ∃ f' k, available be f check =
        (if s.content.length ≤ p ∧ s.dieOnEof = true ∧ check = false then .error .eof
        else .ok (f', k)) ∧
      Reading s Own p f' ∧ k = f'.bstop - f'.bptr ∧ (k = 0 ↔ s.content.length ≤ p) := by
  have hleft := h.left
  have hptr := h.cursor.ptr
  rw [List.length_drop] at hleft
  rw [available, h.bavailr]
  by_cases hzero : f.bstop - f.bptr = 0
  · obtain ⟨f', more, hrun, hreading, hmore, hlast⟩ :=
      brefill_ok hserves h (by omega) check
    have hiff := more_iff hreading hmore hlast
    have hptr' := hreading.cursor.ptr
    refine ⟨f', f'.bstop - f'.bptr, ?_, hreading, rfl, ?_⟩
    · rw [if_neg (not_not_intro hzero), hrun]
      cases more with
      | true =>
          have hlt := hiff.mp rfl
          rw [if_neg (by simp), if_neg (by omega)]
          change Except.ok (f', Fastbufs.bavailr f') = _
          rw [hreading.bavailr]
      | false =>
          have hle := hlast rfl
          by_cases hdie : s.dieOnEof = true ∧ check = false
          · rw [if_pos (by simp [hdie]), if_pos ⟨hle, hdie⟩]
            rfl
          · rw [if_neg (by simpa [and_comm] using hdie), if_neg fun h => hdie h.2]
            change Except.ok (f', Fastbufs.bavailr f') = _
            rw [hreading.bavailr]
    · cases more with
      | true =>
          have hlt := hiff.mp rfl
          have := hmore.mp rfl
          omega
      | false =>
          have hle := hlast rfl
          have hnot : ¬ f'.bptr < f'.bstop := fun hlt => Bool.false_ne_true (hmore.mpr hlt)
          omega
  · refine ⟨f, f.bstop - f.bptr, ?_, h, rfl, by omega⟩
    rw [if_pos hzero, if_neg (by omega)]

theorem drop_split (l : List Byte) (p k n : Nat) (hk : k ≤ n) :
    (l.drop p).take k ++ (l.drop (p + k)).take (n - k) = (l.drop p).take n := by
  rw [← List.drop_drop]
  obtain ⟨d, rfl⟩ := Nat.exists_eq_add_of_le hk
  rw [Nat.add_sub_cancel_left, ← List.take_add]

theorem breadLoop_ok (hserves : Serves be s Own) (check : Bool) (fuel : Nat) {p l : Nat}
    {f : Fastbuf σ} (h : Reading s Own p f) (hfuel : l ≤ fuel) :
    Agrees s Own (breadLoop be check fuel f l)
      (if s.dieOnEof = true ∧ check = false ∧ (s.content.drop p).length < l then .error .eof
      else .ok (p + ((s.content.drop p).take l).length, (s.content.drop p).take l)) := by
  induction fuel generalizing p l f with
  | zero =>
      obtain rfl := Nat.le_zero.mp hfuel
      rw [if_neg (by omega), breadLoop, if_pos rfl]
      exact ⟨f, rfl, h⟩
  | succ fuel ih =>
      rw [breadLoop]
      by_cases hl : l = 0
      · subst hl
        rw [if_pos rfl, if_neg (by omega)]
        exact ⟨f, rfl, h⟩
      obtain ⟨f', k, hrun, hreading, hk, hzero⟩ := available_ok hserves h check
      rw [if_neg hl, hrun]
      by_cases hend : s.content.length ≤ p
      · have hnil : s.content.drop p = [] := List.drop_eq_nil_of_le hend
        rw [hnil]
        by_cases hdie : s.dieOnEof = true ∧ check = false
        · rw [if_pos ⟨hend, hdie⟩, if_pos ⟨hdie.1, hdie.2, by simpa using Nat.pos_of_ne_zero hl⟩]
          rfl
        · rw [if_neg fun h => hdie h.2, if_neg fun h => hdie ⟨h.1, h.2.1⟩]
          dsimp only [bind, Except.bind]
          rw [if_pos (hzero.mpr hend)]
          exact ⟨f', by simp [pure, Except.pure], by simpa using hreading⟩
      · have hleft := hreading.left
        rw [if_neg fun h => hend h.1]
        dsimp only [bind, Except.bind]
        rw [if_neg fun h => hend (hzero.mp h), hreading.bytesAt (by omega)]
        dsimp only
        have hadvance := hreading.advance hserves (n := min k l) (by omega)
        have hrec := ih hadvance (l := l - min k l) (by omega)
        have hlen : (s.content.drop (p + min k l)).length = (s.content.drop p).length - min k l := by
          rw [List.length_drop, List.length_drop]
          omega
        have hpart : ((s.content.drop p).take (min k l)).length = min k l :=
          List.length_take_of_le (by omega)
        by_cases hdie : s.dieOnEof = true ∧ check = false ∧ (s.content.drop p).length < l
        · rw [if_pos ⟨hdie.1, hdie.2.1, by omega⟩] at hrec
          rw [if_pos hdie, show breadLoop be check fuel _ _ = .error .eof from hrec]
          rfl
        · rw [if_neg fun h => hdie ⟨h.1, h.2.1, by omega⟩] at hrec
          obtain ⟨f'', hok, hreading'⟩ := hrec
          have hsplit := drop_split s.content p (min k l) l (min_le_right k l)
          rw [if_neg hdie, hok]
          refine ⟨f'', ?_, ?_⟩
          · rw [← hsplit]
            rfl
          · rw [← hsplit, List.length_append, hpart, ← Nat.add_assoc]
            exact hreading'

theorem bread_ok (hserves : Serves be s Own) (h : Reading s Own p f) (l : Nat) (check : Bool) :
    Agrees s Own (bread be f l check) (s.read p l check) := by
  have hleft := h.left
  rw [bread, h.bavailr, Stream.read]
  by_cases hfast : l ≤ f.bstop - f.bptr
  · rw [if_pos hfast, h.bytesAt hfast, if_neg (by omega)]
    refine ⟨f.advance l, rfl, ?_⟩
    rw [List.length_take_of_le (by omega)]
    exact h.advance hserves hfast
  rw [if_neg hfast, breadSlow]
  have hloop := breadLoop_ok hserves check l h le_rfl
  cases check with
  | false =>
      by_cases hdie : s.dieOnEof = true ∧ (s.content.drop p).length < l
      · rw [if_pos ⟨hdie.1, rfl, hdie.2⟩] at hloop
        rw [if_pos ⟨.inr ⟨rfl, hdie.1⟩, hdie.2⟩, show breadLoop be false l f l = .error .eof from hloop]
        rfl
      · rw [if_neg fun h => hdie ⟨h.1, h.2.2⟩] at hloop
        obtain ⟨f', hrun, hreading⟩ := hloop
        rw [if_neg fun h => hdie ⟨(h.1.resolve_left (by simp)).2, h.2⟩, hrun]
        dsimp only [bind, Except.bind]
        rw [if_neg (by simp)]
        exact ⟨f', rfl, hreading⟩
  | true =>
      rw [if_neg (by simp)] at hloop
      obtain ⟨f', hrun, hreading⟩ := hloop
      rw [hrun]
      dsimp only [bind, Except.bind]
      by_cases hshort : s.content.drop p ≠ [] ∧ (s.content.drop p).length < l
      · have hne : (s.content.drop p).take l ≠ [] := fun hnil => by
          rcases List.take_eq_nil_iff.mp hnil with h | h
          · omega
          · exact hshort.1 h
        rw [if_pos ⟨rfl, hne, by simpa using hshort.2⟩, if_pos ⟨.inl ⟨rfl, hshort.1⟩, hshort.2⟩]
        rfl
      · rw [if_neg, if_neg fun h => hshort ⟨(h.1.resolve_right (by simp)).2, h.2⟩]
        · exact ⟨f', rfl, hreading⟩
        · rintro ⟨-, hne, hlt⟩
          refine hshort ⟨fun hnil => hne (by rw [hnil, List.take_nil]), ?_⟩
          rw [List.length_take] at hlt
          omega

theorem bdirectReadPrepare_ok (hserves : Serves be s Own) (h : Reading s Own p f) :
    ∃ f' k, bdirectReadPrepare be f = .ok (f', k) ∧ Reading s Own p f' ∧
      k = f'.bstop - f'.bptr ∧ (k = 0 ↔ s.content.length ≤ p) := by
  have hptr := h.cursor.ptr
  rw [bdirectReadPrepare]
  by_cases hend : f.bptr = f.bstop
  · obtain ⟨refill, f', more, hrefill, hrun, hreading, hmore, hlast⟩ := refill_ok hserves h hend
    have hiff := more_iff hreading hmore hlast
    rw [if_pos hend, hrefill]
    dsimp only
    rw [hrun]
    dsimp only
    cases more with
    | true =>
        have hlt := hmore.mp rfl
        have hp := hiff.mp rfl
        rw [if_pos rfl]
        exact ⟨f', _, rfl, hreading, hreading.bavailr, by rw [hreading.bavailr]; omega⟩
    | false =>
        have hp := hlast rfl
        have hnot : ¬ f'.bptr < f'.bstop := fun hlt => Bool.false_ne_true (hmore.mpr hlt)
        rw [if_neg Bool.false_ne_true]
        exact ⟨f', 0, rfl, hreading, by omega, by omega⟩
  · have hleft := h.left
    rw [List.length_drop] at hleft
    rw [if_neg hend, h.bavailr]
    exact ⟨f, _, rfl, h, rfl, by omega⟩

theorem bskipSlow_ok (hserves : Serves be s Own) (fuel : Nat) {p l : Nat} {f : Fastbuf σ}
    (h : Reading s Own p f) (hfuel : l ≤ fuel) :
    Agrees s Own (bskipSlow be fuel f l)
      (.ok (p + min l (s.content.drop p).length, decide (l ≤ (s.content.drop p).length))) := by
  induction fuel generalizing p l f with
  | zero =>
      obtain rfl := Nat.le_zero.mp hfuel
      rw [bskipSlow, if_pos rfl]
      exact ⟨f, by simp, by simpa using h⟩
  | succ fuel ih =>
      rw [bskipSlow]
      by_cases hl : l = 0
      · subst hl
        rw [if_pos rfl]
        exact ⟨f, by simp, by simpa using h⟩
      obtain ⟨f', k, hrun, hreading, hk, hzero⟩ := bdirectReadPrepare_ok hserves h
      rw [if_neg hl, hrun]
      dsimp only [bind, Except.bind]
      by_cases hend : s.content.length ≤ p
      · rw [if_pos (hzero.mpr hend), List.drop_eq_nil_of_le hend]
        exact ⟨f', by simp [pure, Except.pure, hl], by simpa using hreading⟩
      · have hleft := hreading.left
        rw [if_neg fun h => hend (hzero.mp h)]
        obtain ⟨f'', hok, hreading'⟩ :=
          ih (hreading.advance hserves (n := min k l) (by omega)) (l := l - min k l) (by omega)
        have hlen : (s.content.drop (p + min k l)).length = (s.content.drop p).length - min k l := by
          rw [List.length_drop, List.length_drop]
          omega
        rw [hlen] at hok hreading'
        refine ⟨f'', ?_, ?_⟩
        · have hflag : decide (l - min k l ≤ (s.content.drop p).length - min k l) =
              decide (l ≤ (s.content.drop p).length) := decide_eq_decide.mpr (by omega)
          rw [hok, hflag]
        · rwa [show p + min k l + min (l - min k l) ((s.content.drop p).length - min k l) =
            p + min l (s.content.drop p).length by omega] at hreading'

theorem bskip_ok (hserves : Serves be s Own) (h : Reading s Own p f) (l : Nat) :
    Agrees s Own (bskip be f l)
      (.ok (p + min l (s.content.drop p).length, decide (l ≤ (s.content.drop p).length))) := by
  have hleft := h.left
  rw [bskip, h.bavailr]
  by_cases hfast : l ≤ f.bstop - f.bptr
  · rw [if_pos hfast]
    refine ⟨f.advance l, by rw [decide_eq_true (by omega)], ?_⟩
    rw [min_eq_left (by omega)]
    exact h.advance hserves hfast
  · rw [if_neg hfast]
    exact bskipSlow_ok hserves l h le_rfl

/-! ## Lines -/

theorem takeWhile_take {l : List Byte} {n : Nat}
    (h : ((l.take n).takeWhile (· ≠ 10)).length < (l.take n).length) :
    l.takeWhile (· ≠ 10) = (l.take n).takeWhile (· ≠ 10) := by
  conv_lhs => rw [← List.take_append_drop n l]
  rw [List.takeWhile_append, if_neg (by omega)]

theorem takeWhile_of_take {l : List Byte} {n : Nat}
    (h : ¬ ((l.take n).takeWhile (· ≠ 10)).length < (l.take n).length) :
    l.takeWhile (· ≠ 10) = l.take n ++ (l.drop n).takeWhile (· ≠ 10) := by
  have hle := (List.takeWhile_sublist (l := l.take n) (p := fun b => decide (b ≠ 10))).length_le
  conv_lhs => rw [← List.take_append_drop n l]
  rw [List.takeWhile_append, if_pos (by omega)]

/-- The line that begins with `b`. -/
def Gets.prepend (b : List Byte) : Gets → Gets
  | .nothing => .line b
  | .line bytes => .line (b ++ bytes)
  | .long bytes => .long (b ++ bytes)

theorem Gets.prepend_prepend (b b' : List Byte) (r : Gets) :
    (r.prepend b').prepend b = r.prepend (b ++ b') := by
  cases r <;> simp [Gets.prepend]

/-- A line that goes over the end of what is there. -/
theorem nextLine_append {rest : List Byte} {k l : Nat} (hk : 0 < k) (hkl : k < l)
    (hlen : k ≤ rest.length)
    (hline : ¬ ((rest.take k).takeWhile (· ≠ 10)).length < (rest.take k).length) :
    nextLine rest l = ((nextLine (rest.drop k) (l - k)).1.prepend (rest.take k),
      k + (nextLine (rest.drop k) (l - k)).2) := by
  have hsplit := takeWhile_of_take hline
  have htake : (rest.take k).length = k := List.length_take_of_le hlen
  have hne : rest.isEmpty = false := by
    cases rest with
    | nil => simp at hlen; omega
    | cons => rfl
  have hdrop : (rest.drop k).length = rest.length - k := List.length_drop
  rw [nextLine, nextLine, hne, if_neg Bool.false_ne_true]
  rw [hsplit, List.length_append, htake]
  by_cases hend : (rest.drop k).isEmpty = true
  · have hnil := List.isEmpty_iff.mp hend
    have hzero : rest.length = k := by
      rw [hnil, List.length_nil] at hdrop
      omega
    rw [if_pos hend, hnil, if_pos (by simpa using hkl)]
    simp [Gets.prepend, hzero]
  · rw [if_neg hend]
    by_cases hfits : ((rest.drop k).takeWhile (· ≠ 10)).length < l - k
    · rw [if_pos hfits, if_pos (by omega)]
      refine Prod.ext rfl ?_
      change min _ _ = k + min _ _
      omega
    · rw [if_neg hfits, if_neg (by omega)]
      refine Prod.ext ?_ ?_
      · change Gets.long _ = .long _
        rw [← List.take_add, Nat.add_sub_cancel' hkl.le]
      · change l = k + (l - k)
        omega

theorem bgetsLoop_ok (hserves : Serves be s Own) (fuel : Nat) {p l : Nat} {f : Fastbuf σ}
    (h : Reading s Own p f) (hsrc : 0 < f.bstop - f.bptr) (hl : 0 < l) (hfuel : l ≤ fuel)
    (b : List Byte) :
    Agrees s Own (bgetsLoop be fuel f (f.bstop - f.bptr) l b)
      (.ok (p + (nextLine (s.content.drop p) l).2, (nextLine (s.content.drop p) l).1.prepend b)) := by
  induction fuel generalizing p l f b with
  | zero => omega
  | succ fuel ih =>
      have hleft := h.left
      generalize hrest : s.content.drop p = rest at hleft
      generalize hk : f.bstop - f.bptr = k at hsrc hleft
      have hne : rest.isEmpty = false := by
        cases rest with
        | nil => simp at hleft; omega
        | cons => rfl
      have htake : (rest.take (min l k)).length = min l k := List.length_take_of_le (by omega)
      rw [bgetsLoop, h.bytesAt (by omega), hrest]
      dsimp only [bind, Except.bind]
      by_cases hnewline :
          ((rest.take (min l k)).takeWhile (· ≠ 10)).length < (rest.take (min l k)).length
      · rw [if_pos hnewline, nextLine, hne, if_neg Bool.false_ne_true]
        rw [takeWhile_take hnewline]
        generalize (rest.take (min l k)).takeWhile (· ≠ 10) = part at hnewline ⊢
        rw [if_pos (show part.length < l by omega), min_eq_left (show _ ≤ rest.length by omega)]
        exact ⟨_, rfl, h.advance hserves (by omega)⟩
      · rw [if_neg hnewline]
        by_cases hlong : min l k = l
        · have hsplit := takeWhile_of_take hnewline
          rw [if_pos hlong, nextLine, hne, if_neg Bool.false_ne_true]
          rw [hsplit, if_neg (by rw [List.length_append, htake]; omega), hlong]
          exact ⟨_, rfl, h.advance hserves (by omega)⟩
        · have hmin : min l k = k := by omega
          rw [hmin] at hnewline
          rw [if_neg hlong, hmin, nextLine_append hsrc (by omega) hleft hnewline]
          have hadvance := h.advance hserves (n := k) (by omega)
          obtain ⟨f', k', hrun, hreading, hk', hzero⟩ := bdirectReadPrepare_ok hserves hadvance
          have hdrop : s.content.drop (p + k) = rest.drop k := by rw [← List.drop_drop, hrest]
          rw [hrun]
          dsimp only
          by_cases hend : s.content.length ≤ p + k
          · have hnil : rest.drop k = [] := by rw [← hdrop, List.drop_eq_nil_of_le hend]
            rw [if_pos (hzero.mpr hend), hnil]
            exact ⟨f', rfl, by simpa [nextLine] using hreading⟩
          · rw [if_neg fun h => hend (hzero.mp h), hk']
            have hrec := ih hreading (l := l - k) (by omega) (by omega) (by omega) (b ++ rest.take k)
            rw [hdrop] at hrec
            obtain ⟨f'', hok, hreading'⟩ := hrec
            rw [hok]
            refine ⟨f'', ?_, ?_⟩
            · rw [Gets.prepend_prepend]
            · rwa [← Nat.add_assoc]

theorem bgetsNodie_ok (hserves : Serves be s Own) (h : Reading s Own p f) {l : Nat} (hl : 0 < l) :
    Agrees s Own (bgetsNodie be f l)
      (.ok (p + (nextLine (s.content.drop p) l).2, (nextLine (s.content.drop p) l).1)) := by
  obtain ⟨f', k, hrun, hreading, hk, hzero⟩ := bdirectReadPrepare_ok hserves h
  rw [bgetsNodie, if_neg (by omega), hrun]
  dsimp only [bind, Except.bind]
  by_cases hend : s.content.length ≤ p
  · rw [if_pos (hzero.mpr hend), List.drop_eq_nil_of_le hend]
    exact ⟨f', rfl, hreading⟩
  · rw [if_neg fun h => hend (hzero.mp h), hk]
    obtain ⟨f'', hok, hreading'⟩ := bgetsLoop_ok hserves l hreading (by omega) hl le_rfl []
    refine ⟨f'', ?_, hreading'⟩
    rw [hok]
    have hne : (s.content.drop p).isEmpty = false := by
      cases hd : s.content.drop p with
      | nil =>
          have := List.drop_eq_nil_iff.mp hd
          omega
      | cons => rfl
    rw [nextLine, hne, if_neg Bool.false_ne_true]
    split <;> rfl

/-! ## Seeking -/

/-- While reading, a flush goes to the position of the back-end. -/
theorem bflush_ok (hserves : Serves be s Own) (h : Reading s Own p f) :
    bflush be f = .ok { f with bptr := f.bstop } ∧
      Reading s Own f.pos { f with bptr := f.bstop } := by
  have hleft := h.left
  have hptr := h.cursor.ptr
  have htell := h.cursor.tell
  rw [List.length_drop] at hleft
  refine ⟨if_neg (by omega), hserves.moves _ _ h.own, ⟨le_rfl, h.cursor.stop, h.cursor.size, rfl,
    .inl rfl⟩, ?_, h.die⟩
  by_cases hend : f.bptr = f.bstop
  · rw [show f.pos = p by omega]
    exact h.allowed
  · exact hserves.allows _ (by omega)

theorem doSeek_ok (hserves : Serves be s Own) (h : Reading s Own p f) (pos : Int) {whence : Whence}
    (hwhence : whence ≠ .cur) (hset : whence = .set → 0 ≤ pos) :
    Agrees s Own ((doSeek be f pos whence).map fun f => (f, ReadOut.done))
      (s.goTo (if whence = .ending then s.content.length + pos else pos)) := by
  obtain ⟨hflush, hflushed⟩ := bflush_ok hserves h
  obtain ⟨seek, hseek, hok⟩ := hserves.seek
  have hresult := hok _ _ hflushed.own hflushed.cursor rfl pos whence hwhence hset
  rw [doSeek, hflush]
  dsimp only [bind, Except.bind] at hresult ⊢
  rw [hseek]
  dsimp only
  rw [Stream.goTo]
  generalize htarget : (if whence = .ending then (s.content.length : Int) + pos else pos) = target
    at hresult ⊢
  by_cases hallowed : 0 ≤ target ∧ s.allows target.toNat = true
  · rw [if_pos hallowed] at hresult ⊢
    obtain ⟨f', hrun, hown', hcursor', hend, hdie⟩ := hresult
    have hreading : Reading s Own target.toNat f' :=
      ⟨hown', hcursor', hallowed.2, hdie.trans h.die⟩
    have htell : btell f' = target := by
      rw [hreading.btell]
      exact Int.toNat_of_nonneg hallowed.1
    have hpos : whence = .set → pos = target := by
      rintro rfl
      rw [← htarget, if_neg (by decide)]
    rw [hrun]
    dsimp only
    rw [if_neg (not_not_intro ⟨hend.ge, hend.le.trans hcursor'.stop⟩), if_neg]
    · exact ⟨f', rfl, hreading⟩
    · rw [htell]
      rintro (⟨h, hne⟩ | ⟨-, hneg⟩)
      · exact hne (hpos h).symm
      · omega
  · rw [if_neg hallowed] at hresult ⊢
    rw [hresult]
    rfl

theorem bsetpos_ok (hserves : Serves be s Own) (h : Reading s Own p f) (pos : Int) :
    Agrees s Own ((bsetpos be f pos).map fun f => (f, ReadOut.done)) (s.goTo pos) := by
  have hleft := h.left
  obtain ⟨hptr, hstop, hsize, htell, hwindow⟩ := h.cursor
  rw [List.length_drop] at hleft
  rw [bsetpos, h.btell]
  by_cases hinside : f.bptr < f.bstop ∧ pos ≤ f.pos ∧ (f.pos : Int) - f.bstop ≤ pos
  · -- the position is in the buffer
    obtain ⟨hstart, hbytes⟩ := hwindow.resolve_left (by omega)
    obtain ⟨q, rfl⟩ := Int.eq_ofNat_of_zero_le (show 0 ≤ pos by omega)
    have hallowed : s.allows q = true := hserves.allows q (by omega)
    rw [if_pos hinside, Stream.goTo, if_pos ⟨by omega, by simpa using hallowed⟩]
    refine ⟨_, rfl, hserves.moves _ _ h.own, ⟨?_, hstop, hsize, ?_, .inr ⟨hstart, hbytes⟩⟩, ?_, h.die⟩
    · change ((f.bstop : Int) + (q - f.pos)).toNat ≤ f.bstop
      omega
    · change q + f.bstop = f.pos + ((f.bstop : Int) + (q - f.pos)).toNat
      omega
    · exact hallowed
  · rw [if_neg hinside]
    by_cases hhere : pos = p
    · subst hhere
      rw [if_neg (not_not_intro rfl), Stream.goTo, if_pos ⟨by omega, by simpa using h.allowed⟩]
      exact ⟨f, rfl, by simpa using h⟩
    · rw [if_pos hhere]
      by_cases hneg : pos < 0
      · rw [if_pos hneg, Stream.goTo, if_neg (by omega)]
        rfl
      · rw [if_neg hneg]
        exact doSeek_ok hserves h pos (by decide) fun _ => not_lt.mp hneg

theorem brewind_ok (hserves : Serves be s Own) (h : Reading s Own p f) :
    Agrees s Own ((brewind be f).map fun f => (f, ReadOut.done)) (s.goTo 0) := by
  obtain ⟨hflush, hflushed⟩ := bflush_ok hserves h
  rw [brewind, hflush]
  exact bsetpos_ok hserves hflushed 0

theorem bseek_ok (hserves : Serves be s Own) (h : Reading s Own p f) (pos : Int) (whence : Whence) :
    Agrees s Own ((bseek be f pos whence).map fun f => (f, ReadOut.done))
      (s.step p (.seek pos whence)) := by
  cases whence with
  | set => exact bsetpos_ok hserves h pos
  | cur =>
      rw [bseek, h.btell]
      exact bsetpos_ok hserves h (offT (p + pos))
  | ending =>
      rw [bseek, Stream.step]
      by_cases hpos : 0 < pos
      · rw [if_pos hpos, if_pos hpos]
        rfl
      · rw [if_neg hpos, if_neg hpos]
        exact doSeek_ok hserves h pos (by decide) fun h => by cases h

theorem bfilesize_ok (hserves : Serves be s Own) (h : Reading s Own p f) :
    Agrees s Own (bfilesize be f) (.ok (p, (s.content.length : Int))) := by
  obtain ⟨hflush, hflushed⟩ := bflush_ok hserves h
  obtain ⟨seek, hseek, hok⟩ := hserves.seek
  have hresult := hok _ _ hflushed.own hflushed.cursor rfl 0 .ending (by decide)
    fun h => by cases h
  have hallowed : s.allows s.content.length = true := hserves.allows _ le_rfl
  dsimp only at hresult
  rw [if_pos rfl, Int.add_zero, Int.toNat_natCast, if_pos ⟨by omega, hallowed⟩] at hresult
  obtain ⟨f', hrun, hown', hcursor', -, hdie⟩ := hresult
  have hreading : Reading s Own s.content.length f' :=
    ⟨hown', hcursor', hallowed, hdie.trans h.die⟩
  have hback := bsetpos_ok hserves hreading p
  rw [Stream.goTo, if_pos ⟨by omega, by simpa using h.allowed⟩] at hback
  obtain ⟨f'', hback, hreading'⟩ := hback
  rw [bfilesize, hseek, h.btell, hflush]
  dsimp only [bind, Except.bind]
  rw [hrun]
  dsimp only
  cases hset : bsetpos be f' p with
  | error fault => rw [hset] at hback; cases hback
  | ok g =>
      rw [hset] at hback
      cases hback
      rw [hreading.btell]
      exact ⟨f'', rfl, by simpa using hreading'⟩

/-! ## Runs -/

/-- Every operation of the front end gives what the stream gives. -/
theorem readStep_ok (hserves : Serves be s Own) (h : Reading s Own p f) (op : ReadOp) :
    Agrees s Own (readStep be f op) (s.step p op) := by
  cases op with
  | getc =>
      have hget := (bgetc_ok hserves h).1.map ReadOut.byte
      rw [readStep, Stream.step]
      cases hs : s.peek p with
      | ok c => rwa [hs] at hget
      | error fault => rwa [hs] at hget
  | peekc =>
      have hpeek := (bpeekc_ok hserves h).1.map ReadOut.byte
      rw [readStep, Stream.step]
      cases hs : s.peek p with
      | ok c => rwa [hs] at hpeek
      | error fault => rwa [hs] at hpeek
  | back =>
      obtain ⟨hget, hbefore⟩ := bgetc_ok hserves h
      rw [readStep, Stream.step]
      cases hs : s.peek p with
      | error fault =>
          rw [hs] at hget
          rw [show bgetc be f = .error fault from hget]
          rfl
      | ok c =>
          rw [hs] at hget
          obtain ⟨f', hrun, hreading⟩ := hget
          rw [hrun]
          cases c with
          | none => exact ⟨f', rfl, hreading⟩
          | some c =>
              obtain ⟨f₀, rfl, hreading₀⟩ := hbefore f' c hrun
              exact ⟨f₀, rfl, hreading₀⟩
  | eof => exact (beof_ok hserves h).map ReadOut.flag
  | read l => exact (bread_ok hserves h l false).map ReadOut.bytes
  | readb l => exact (bread_ok hserves h l true).map ReadOut.bytes
  | skip l => exact (bskip_ok hserves h l).map ReadOut.flag
  | gets l =>
      rw [readStep, Stream.step]
      by_cases hl : l = 0
      · rw [if_pos hl, bgetsNodie, if_pos hl]
        rfl
      · rw [if_neg hl]
        exact (bgetsNodie_ok hserves h (Nat.pos_of_ne_zero hl)).map ReadOut.line
  | setpos pos => exact bsetpos_ok hserves h pos
  | seek pos whence => exact bseek_ok hserves h pos whence
  | rewind => exact brewind_ok hserves h
  | tell => exact ⟨f, by rw [readStep, h.btell], h⟩
  | filesize => exact (bfilesize_ok hserves h).map ReadOut.number

/-- What a reader gets, up to the first fault. -/
def Stream.run (s : Stream) (p : Nat) : List ReadOp → List (Except FbFault ReadOut)
  | [] => []
  | op :: ops =>
    match s.step p op with
    | .ok (p, out) => .ok out :: s.run p ops
    | .error fault => [.error fault]

def readRun (be : BackEnd σ) (f : Fastbuf σ) : List ReadOp → List (Except FbFault ReadOut)
  | [] => []
  | op :: ops =>
    match readStep be f op with
    | .ok (f, out) => .ok out :: readRun be f ops
    | .error fault => [.error fault]

/-- However the operations are mixed, a fastbuf over a back-end that keeps the rules reads like
the stream itself. -/
theorem readRun_ok (hserves : Serves be s Own) (h : Reading s Own p f) (ops : List ReadOp) :
    readRun be f ops = s.run p ops := by
  induction ops generalizing p f with
  | nil => rfl
  | cons op ops ih =>
      have hstep := readStep_ok hserves h op
      rw [readRun, Stream.run]
      cases hs : s.step p op with
      | ok r =>
          rw [hs] at hstep
          obtain ⟨f', hrun, hreading⟩ := hstep
          rw [hrun]
          exact congrArg _ (ih hreading)
      | error fault =>
          rw [hs] at hstep
          rw [show readStep be f op = .error fault from hstep]

/-- The state after some operations -/
def readsTo (be : BackEnd σ) (f : Fastbuf σ) : List ReadOp → Except FbFault (Fastbuf σ)
  | [] => .ok f
  | op :: ops => do
    let (f, _) ← readStep be f op
    readsTo be f ops

theorem readsTo_ok (hserves : Serves be s Own) (h : Reading s Own p f) {ops : List ReadOp}
    {f' : Fastbuf σ} (hrun : readsTo be f ops = .ok f') : ∃ q, Reading s Own q f' := by
  induction ops generalizing p f with
  | nil =>
      cases hrun
      exact ⟨p, h⟩
  | cons op ops ih =>
      have hstep := readStep_ok hserves h op
      rw [readsTo] at hrun
      cases hs : s.step p op with
      | ok r =>
          rw [hs] at hstep
          obtain ⟨f₁, hok, hreading⟩ := hstep
          rw [hok] at hrun
          exact ih hreading hrun
      | error fault =>
          rw [hs] at hstep
          rw [show readStep be f op = .error fault from hstep] at hrun
          cases hrun

end OpenAAA.Fastbufs
