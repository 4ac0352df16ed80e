import OpenAAA.Str.AttrRuns

/-!
`object_write` and `object_read` of `generic/string/object.c`: the attributes of an
object as lines of text in a buffer, and back. `struct object` is not part of the
repository's files; like `struct attr_list` it has a pool and a list of attributes.
The writer asks `snprintf` for every line and puts a newline where the terminator
was; the reader cuts the buffer up in place by writing terminators into it. All
lengths and the results are 32 bits wide.
-/

namespace OpenAAA.Attrs

open Memory Alloc Rings Intrusive

/-- A number returned as an `int`. -/
def toInt32 (n : Nat) : Int :=
  if n % 2 ^ 32 < 2 ^ 31 then (n % 2 ^ 32 : Nat) else (n % 2 ^ 32 : Nat) - 2 ^ 32

/-- The characters of `%s`; a null pointer is printed as text. -/
def formatString : Option (List Byte) → Except Fault (List Byte)
  | none => .ok [40, 110, 117, 108, 108, 41]
  | some block =>
      match strlen block with
      | .error fault => .error fault
      | .ok n => .ok (block.take n)

/-- `"%s: %s\n"` -/
def formatLine (key : List Byte) (val : Option (List Byte)) : Except Fault (List Byte) :=
  match formatString (some key) with
  | .error fault => .error fault
  | .ok key =>
      match formatString val with
      | .error fault => .error fault
      | .ok val => .ok (key ++ [58, 32] ++ val ++ [10])

/-- `snprintf` into `n` bytes: the length of the text, or -1 if it is no `int`, and the
memory with as much of the text as fits before a terminator. -/
def snprintf (m : Mem) (p n : Nat) (text : List Byte) : Int × Mem :=
  if text.length < 2 ^ 31 then
    (text.length, if n = 0 then m else write m p (text.take (n - 1) ++ [0]))
  else (-1, m)

/-- `list_for_each` of `object_write`. -/
def writeFrom (s : Store) (list size : Nat) :
    Nat → Nat → Nat → Nat → Mem → Except Fault (Int × Mem)
  | 0, _, _, _, _ => .error .endless
  | fuel + 1, a, p, len, m =>
      if a = list then .ok (toInt32 len, m)
      else match formatLine (s.attr a).key (s.attr a).val with
        | .error fault => .error fault
        | .ok text =>
            let (rv, m) := snprintf m p ((size + 2 * 2 ^ 32 - len - 1) % 2 ^ 32) text
            let p := (p + rv).toNat
            let len := ((len + rv) % 2 ^ 32).toNat
            writeFrom s list size fuel (s.links.next a) p len (write m p [10])

/-- `object_write` -/
def objectWrite (s : Store) (list : Nat) (m : Mem) (addr size : Nat) : Except Fault (Int × Mem) :=
  writeFrom s list size (s.fresh + 1) (s.links.next list) addr 0 m

/-- `while (pkt < end && ...) pkt++`, with the number of bytes before the end. -/
def skip (more : Byte → Bool) (m : Mem) : Nat → Nat → Nat
  | 0, pkt => pkt
  | n + 1, pkt => if more (m pkt) then skip more m n (pkt + 1) else pkt

/-- The loop of `object_read`. Every turn that does not return moves `pkt`. -/
def readFrom (list start len : Nat) : Nat → Nat → Mem → Store → Except Fault (Int × Mem × Store)
  | 0, _, _, _ => .error .endless
  | fuel + 1, pkt, m, s =>
      let stop := start + len
      if pkt < stop then
        let key := pkt
        let pkt := skip (fun c => c ≠ 58 && c ≠ 10) m (stop - pkt) pkt
        if stop ≤ pkt then .ok (-1, m, s)
        else if m pkt ≠ 58 then .ok (toInt32 (pkt - start), m, s)
        else
          let m := write m pkt [0]
          let keyEnd := pkt + 1
          let value := skip (fun c => c = 32) m (stop - keyEnd) keyEnd
          let pkt := skip (fun c => c ≠ 10) m (stop - value) value
          if stop ≤ pkt then .ok (-1, m, s)
          else
            let m := write m pkt [0]
            let pkt := pkt + 1
            match attrSet s list (read m key (keyEnd - key)) (some (read m value (pkt - value))) with
            | .error fault => .error fault
            | .ok s => readFrom list start len fuel pkt m s
      else .ok (toInt32 len, m, s)

/-- `object_read` -/
def objectRead (s : Store) (list : Nat) (m : Mem) (pkt len : Nat) :
    Except Fault (Int × Mem × Store) :=
  readFrom list pkt len (len + 1) pkt m s

/-! ## The text of an object -/

/-- An attribute that can be written as a line. -/
structure Field where
  key : CString
  val : CString
  key_colon : 58 ∉ key.chars
  key_line : 10 ∉ key.chars
  val_line : 10 ∉ val.chars

def Field.line (f : Field) : List Byte := f.key.chars ++ [58, 32] ++ f.val.chars ++ [10]

def text (fs : List Field) : List Byte := fs.flatMap Field.line

@[simp]
theorem text_nil : text [] = [] := rfl

@[simp]
theorem text_cons (f : Field) (fs : List Field) : text (f :: fs) = f.line ++ text fs :=
  List.flatMap_cons

/-- The value without its leading spaces. -/
def Field.stripped (f : Field) : CString :=
  ⟨f.val.chars.dropWhile (fun c => c = 32),
    fun h => f.val.no_nul ((List.dropWhile_sublist _).mem h)⟩

/-- The attributes of a list, in order, have these keys and values. -/
def HasFields (s : Store) (list : Nat) (fields : List (CString × CString)) : Prop :=
  ∃ ns, IsRing s.links list ns ∧ (∀ n ∈ ns, n < s.fresh) ∧
    ns.map (fun n => ((s.attr n).key, (s.attr n).val)) =
      fields.map (fun f => (f.1.bytes, some f.2.bytes))

theorem toInt32_of_lt {n : Nat} (h : n < 2 ^ 31) : toInt32 n = n := by
  have hmod : n % 2 ^ 32 = n := Nat.mod_eq_of_lt (by omega)
  rw [toInt32, hmod, if_pos h]

theorem toInt32_lt (n : Nat) : toInt32 n < 2 ^ 31 := by
  unfold toInt32
  split <;> omega

theorem formatString_bytes (c : CString) : formatString (some c.bytes) = .ok c.chars := by
  simp only [formatString, CString.bytes, strlen_chars c.no_nul, List.take_left]

theorem formatLine_field (f : Field) :
    formatLine f.key.bytes (some f.val.bytes) = .ok f.line := by
  simp only [formatLine, formatString_bytes, Field.line]

theorem read_succ (m : Mem) (a n : Nat) : read m a (n + 1) = m a :: read m (a + 1) n := by
  rw [Nat.add_comm n 1, read_append]
  rfl

/-! ## Writing -/

/-- One turn of the writer: the line, and a newline instead of the terminator. -/
theorem writeFrom_turn {s : Store} {list size fuel a p len : Nat} {m : Mem} {f : Field}
    (ha : a ≠ list) (hkey : (s.attr a).key = f.key.bytes) (hval : (s.attr a).val = some f.val.bytes)
    (hsize : len + f.line.length + 2 ≤ size) (hwidth : size < 2 ^ 32)
    (hint : f.line.length < 2 ^ 31) :
    writeFrom s list size (fuel + 1) a p len m =
      writeFrom s list size fuel (s.links.next a) (p + f.line.length) (len + f.line.length)
        (write (write m p (f.line ++ [0])) (p + f.line.length) [10]) := by
  have hroom : (size + 2 * 2 ^ 32 - len - 1) % 2 ^ 32 = size - len - 1 := by omega
  have htake : f.line.take (size - len - 1 - 1) = f.line := List.take_of_length_le (by omega)
  have hprint : snprintf m p (size - len - 1) f.line =
      ((f.line.length : Int), write m p (f.line ++ [0])) := by
    have hpos : size - len - 1 ≠ 0 := by omega
    rw [snprintf, if_pos hint, if_neg hpos, htake]
  have hp : ((p : Int) + (f.line.length : Int)).toNat = p + f.line.length := by omega
  have hlen : (((len : Int) + (f.line.length : Int)) % 2 ^ 32).toNat = len + f.line.length := by
    omega
  rw [writeFrom, if_neg ha, hkey, hval, formatLine_field]
  dsimp only
  rw [hroom, hprint]
  dsimp only
  rw [hp, hlen]

/-- The writer from behind any node on: it writes the remaining lines and one newline, and
nothing else. -/
theorem writeFrom_path {s : Store} {list size a fuel : Nat} {ns : List Nat} {fs : List Field}
    (hpath : Path s.links a ns list) (hlist : list ∉ ns)
    (hfields : ns.map (fun n => ((s.attr n).key, (s.attr n).val)) =
      fs.map (fun f => (f.key.bytes, some f.val.bytes)))
    (hfuel : ns.length < fuel) (p len : Nat) (m : Mem)
    (hsize : len + (text fs).length + 2 ≤ size) (hwidth : size < 2 ^ 32)
    (hint : len + (text fs).length < 2 ^ 31) :
    ∃ m', writeFrom s list size fuel (s.links.next a) p len m =
        .ok ((len + (text fs).length : Nat), m') ∧
      ChangesOnly m m' p ((text fs).length + 1) ∧
      (m p = 10 ∨ fs ≠ [] → read m' p ((text fs).length + 1) = text fs ++ [10]) := by
  induction ns generalizing a fuel fs p len m with
  | nil =>
      have hfs : fs = [] := by
        cases fs with
        | nil => rfl
        | cons f fs => simp at hfields
      subst hfs
      obtain ⟨fuel, rfl⟩ : ∃ k, fuel = k + 1 := ⟨fuel - 1, by simp at hfuel; omega⟩
      refine ⟨m, ?_, fun x _ => rfl, fun hnewline => ?_⟩
      · have hlen : len < 2 ^ 31 := by simpa using hint
        rw [hpath.1, writeFrom, if_pos rfl, toInt32_of_lt hlen]
        simp
      · have hbyte : m p = 10 := hnewline.resolve_right (fun hne => hne rfl)
        rw [text_nil, List.length_nil, List.nil_append, read_succ, hbyte]
        rfl
  | cons n ns ih =>
      cases fs with
      | nil => simp at hfields
      | cons f fs =>
          obtain ⟨hnext, _, htail⟩ := hpath
          rw [List.map_cons, List.map_cons, List.cons.injEq, Prod.mk.injEq] at hfields
          obtain ⟨⟨hkey, hval⟩, hrest⟩ := hfields
          have hn : n ≠ list := fun heq => hlist (by simp [heq])
          obtain ⟨fuel, rfl⟩ : ∃ k, fuel = k + 1 := ⟨fuel - 1, by simp at hfuel; omega⟩
          have hlength : (text (f :: fs)).length = f.line.length + (text fs).length := by simp
          rw [hlength] at hsize hint
          rw [hlength]
          obtain ⟨m', hrun, hchanges, hread⟩ := ih htail
            (fun hin => hlist (List.mem_cons_of_mem _ hin)) hrest (by simpa using hfuel)
            (p + f.line.length) (len + f.line.length)
            (write (write m p (f.line ++ [0])) (p + f.line.length) [10]) (by omega) (by omega)
          have hfirst : ChangesOnly m (write (write m p (f.line ++ [0])) (p + f.line.length) [10]) p
              (f.line.length + 1) := by
            have hline := write_changesOnly m p (f.line ++ [0])
            rw [List.length_append, List.length_singleton] at hline
            exact hline.trans ((write_changesOnly _ _ _).mono (by unfold Inside; simp))
          refine ⟨m', ?_, ?_, fun _ => ?_⟩
          · rw [hnext, writeFrom_turn hn hkey hval (by omega) hwidth (by omega), hrun, Nat.add_assoc]
          · refine (hfirst.mono ?_).trans (hchanges.mono ?_)
            · unfold Inside
              omega
            · unfold Inside
              omega
          · -- the line is kept by the rest of the run, the newline behind it too if it is the last
            have hline : read m' p f.line.length = f.line := by
              have hagree : Agree (write m p (f.line ++ [0])) m' p f.line.length := by
                intro x hl hu
                rw [hchanges x (by omega)]
                exact write_changesOnly _ _ _ x (by omega)
              rw [read_of_agree hagree]
              have hwhole := read_write_self m p (f.line ++ [0])
              rw [List.length_append, read_append] at hwhole
              exact List.append_inj_left hwhole (by simp)
            rw [Nat.add_assoc, read_append, hline, text_cons, List.append_assoc]
            congr 1
            exact hread (Or.inl (by simp [write]))

theorem objectWrite_eq {s : Store} {list size : Nat} {fs : List Field}
    (hobject : HasFields s list (fs.map (fun f => (f.key, f.val)))) (hne : fs ≠ []) (m : Mem)
    (addr : Nat) (hsize : (text fs).length + 2 ≤ size) (hwidth : size < 2 ^ 32)
    (hint : (text fs).length < 2 ^ 31) :
    ∃ m', objectWrite s list m addr size = .ok ((text fs).length, m') ∧
      read m' addr ((text fs).length + 1) = text fs ++ [10] := by
  obtain ⟨ns, hring, hbound, hfields⟩ := hobject
  obtain ⟨hhead, hnodup⟩ := List.nodup_cons.mp hring.nodup
  have hfuel : ns.length < s.fresh + 1 := length_lt_of_fresh hnodup hbound
  rw [List.map_map] at hfields
  obtain ⟨m', hrun, _, hread⟩ := writeFrom_path hring.path hhead hfields hfuel addr 0 m
    (by omega) hwidth (by omega)
  rw [Nat.zero_add] at hrun
  exact ⟨m', hrun, hread (Or.inr hne)⟩

/-! ## Reading -/

theorem skip_eq (more : Byte → Bool) (m : Mem) (n pkt : Nat) :
    skip more m n pkt = pkt + ((read m pkt n).takeWhile more).length := by
  induction n generalizing pkt with
  | zero => rfl
  | succ n ih =>
      rw [skip, read_succ, List.takeWhile_cons]
      split
      · rw [ih, List.length_cons]
        omega
      · simp

/-- Skipping stops at the first byte that ends it. -/
theorem skip_to {more : Byte → Bool} {m : Mem} {n pkt : Nat} {w rest : List Byte} {c : Byte}
    (hread : read m pkt n = w ++ c :: rest) (hw : ∀ b ∈ w, more b = true) (hc : more c = false) :
    skip more m n pkt = pkt + w.length := by
  rw [skip_eq, hread, List.takeWhile_append_of_pos hw, List.takeWhile_cons, hc]
  simp

theorem byte_at {m : Mem} {n pkt : Nat} {w rest : List Byte} {c : Byte}
    (hread : read m pkt n = w ++ c :: rest) : m (pkt + w.length) = c := by
  have hlength := congrArg List.length hread
  rw [read_length, List.length_append, List.length_cons] at hlength
  have hat : (read m pkt n)[w.length]? = some c := by simp [hread]
  rw [read_getElem? (by omega)] at hat
  exact Option.some.inj hat

/-- The bytes behind a part of what was read. -/
theorem read_behind {m : Mem} {n pkt : Nat} {w rest : List Byte} (hread : read m pkt n = w ++ rest) :
    read m pkt w.length = w ∧ read m (pkt + w.length) (n - w.length) = rest := by
  have hlength := congrArg List.length hread
  rw [read_length, List.length_append] at hlength
  have hsplit : n = w.length + (n - w.length) := by omega
  rw [hsplit, read_append] at hread
  exact List.append_inj hread (by simp)

/-- A terminator in the place of a byte that was read. -/
theorem read_cut {m : Mem} {n pkt : Nat} {w rest : List Byte} {c : Byte}
    (hread : read m pkt n = w ++ c :: rest) :
    read (write m (pkt + w.length) [0]) pkt (w.length + 1) = w ++ [0] ∧
      read (write m (pkt + w.length) [0]) (pkt + w.length + 1) (n - (w.length + 1)) = rest := by
  have hfront : read m pkt w.length = w := (read_behind hread).1
  have hback : read m (pkt + (w ++ [c]).length) (n - (w ++ [c]).length) = rest := by
    rw [List.append_cons] at hread
    exact (read_behind hread).2
  rw [List.length_append, List.length_singleton, ← Nat.add_assoc] at hback
  constructor
  · rw [read_append, read_succ, read_of_agree (m := m), hfront]
    · have hbyte : write m (pkt + w.length) [0] (pkt + w.length) = 0 := by simp [write]
      rw [hbyte]
      rfl
    · exact write_agree (by unfold Apart; simp)
  · rw [read_of_agree (m := m), hback]
    exact write_agree (by unfold Apart; simp)

theorem takeWhile_until (more : Byte → Bool) {c : Byte} (hc : more c = false) (w rest : List Byte) :
    (w ++ c :: rest).takeWhile more = w.takeWhile more ∧
      w.takeWhile more ++ (w.dropWhile more ++ c :: rest) = w ++ c :: rest := by
  constructor
  · induction w with
    | nil => simp [hc]
    | cons b w ih =>
        rw [List.cons_append, List.takeWhile_cons, List.takeWhile_cons, ih]
  · rw [← List.append_assoc, List.takeWhile_append_dropWhile]

/-- The text behind a colon without its leading spaces. -/
def CString.stripped (c : CString) : CString :=
  ⟨c.chars.dropWhile (fun b => b = 32), fun h => c.no_nul ((List.dropWhile_sublist _).mem h)⟩

/-- One turn of the reader over a line with a colon: key and stripped value go to `attr_set`, and
the rest of the buffer is as before. -/
theorem readFrom_line (fuel list : Nat) {start len pkt : Nat} {m : Mem} (s : Store)
    (key val : CString) {rest : List Byte} (hcolon : 58 ∉ key.chars) (hkeyLine : 10 ∉ key.chars)
    (hvalLine : 10 ∉ val.chars)
    (hread : read m pkt (start + len - pkt) = key.chars ++ 58 :: (val.chars ++ 10 :: rest)) :
    ∃ m' next, next = pkt + key.chars.length + val.chars.length + 2 ∧
      readFrom list start len (fuel + 1) pkt m s =
        (match attrSet s list key.bytes (some val.stripped.bytes) with
        | .error fault => .error fault
        | .ok s => readFrom list start len fuel next m' s) ∧
      read m' next (start + len - next) = rest := by
  have hlength := congrArg List.length hread
  rw [read_length, List.length_append, List.length_cons, List.length_append, List.length_cons]
    at hlength
  -- the key, up to the colon
  have hkeyBytes : ∀ b ∈ key.chars, (decide (b ≠ 58) && decide (b ≠ 10)) = true := by
    intro b hb
    have hne : b ≠ 58 := fun heq => hcolon (heq ▸ hb)
    have hnl : b ≠ 10 := fun heq => hkeyLine (heq ▸ hb)
    rw [Bool.and_eq_true, decide_eq_true_iff, decide_eq_true_iff]
    exact ⟨hne, hnl⟩
  have hkey := skip_to hread hkeyBytes (by decide)
  have hbyte := byte_at hread
  obtain ⟨hkeyBlock, hbehind⟩ := read_cut hread
  generalize hm₁ : write m (pkt + key.chars.length) [0] = m₁ at hkeyBlock hbehind
  generalize hkeyEnd : pkt + key.chars.length + 1 = keyEnd at hbehind
  have hleft : start + len - pkt - (key.chars.length + 1) = start + len - keyEnd := by omega
  rw [hleft] at hbehind
  -- the spaces
  obtain ⟨htake, hsplit⟩ := takeWhile_until (fun c => decide (c = 32)) (c := 10) (by decide)
    val.chars rest
  have hvalue : skip (fun c => decide (c = 32)) m₁ (start + len - keyEnd) keyEnd =
      keyEnd + (val.chars.takeWhile (fun c => decide (c = 32))).length := by
    rw [skip_eq, hbehind, htake]
  have hspaces : read m₁ keyEnd (start + len - keyEnd) =
      val.chars.takeWhile (fun c => decide (c = 32)) ++ (val.stripped.chars ++ 10 :: rest) := by
    rw [hbehind, ← hsplit]
    rfl
  have hcount : (val.chars.takeWhile (fun c => decide (c = 32))).length +
      val.stripped.chars.length = val.chars.length := by
    rw [CString.stripped, ← List.length_append, List.takeWhile_append_dropWhile]
  generalize (val.chars.takeWhile (fun c => decide (c = 32))) = spaces at hvalue hspaces hcount
  -- the value, up to the newline
  have hbehindSpaces := (read_behind hspaces).2
  generalize hvalueAt : keyEnd + spaces.length = value at hvalue hbehindSpaces
  have hleft' : start + len - keyEnd - spaces.length = start + len - value := by omega
  rw [hleft'] at hbehindSpaces
  have hvalBytes : ∀ b ∈ val.stripped.chars, decide (b ≠ 10) = true := by
    intro b hb
    rw [decide_eq_true_iff]
    exact fun heq => hvalLine (heq ▸ (List.dropWhile_sublist _).mem hb)
  have hend := skip_to hbehindSpaces hvalBytes (by decide)
  obtain ⟨hvalBlock, hrest⟩ := read_cut hbehindSpaces
  generalize hm₂ : write m₁ (value + val.stripped.chars.length) [0] = m₂ at hvalBlock hrest
  have hkeyBlock' : read m₂ pkt (key.chars.length + 1) = key.chars ++ [0] := by
    rw [← hkeyBlock, ← hm₂]
    apply read_of_agree
    apply write_agree
    unfold Apart
    omega
  refine ⟨m₂, value + val.stripped.chars.length + 1, by omega, ?_, ?_⟩
  · have hin : pkt < start + len := by omega
    have hkeyIn : ¬ start + len ≤ pkt + key.chars.length := by omega
    have hvalIn : ¬ start + len ≤ value + val.stripped.chars.length := by omega
    have hkeyLen : keyEnd - pkt = key.chars.length + 1 := by omega
    have hvalLen : value + val.stripped.chars.length + 1 - value = val.stripped.chars.length + 1 := by
      omega
    rw [readFrom]
    dsimp only
    rw [if_pos hin, hkey, if_neg hkeyIn, if_neg (fun hne => hne hbyte), hm₁, hkeyEnd, hvalue, hend,
      if_neg hvalIn, hm₂, hkeyLen, hvalLen, hkeyBlock', hvalBlock]
    rfl
  · have hleft'' : start + len - value - (val.stripped.chars.length + 1) =
        start + len - (value + val.stripped.chars.length + 1) := by omega
    rw [hleft''] at hrest
    exact hrest

/-- One turn of the reader over the line of a field. -/
theorem readFrom_turn (fuel : Nat) {list start len pkt : Nat} {m : Mem} {s s' : Store} {f : Field}
    {rest : List Byte} (hread : read m pkt (start + len - pkt) = f.line ++ rest)
    (hset : attrSet s list f.key.bytes (some f.stripped.bytes) = .ok s') :
    ∃ m', readFrom list start len (fuel + 1) pkt m s =
        readFrom list start len fuel (pkt + f.line.length) m' s' ∧
      read m' (pkt + f.line.length) (start + len - (pkt + f.line.length)) = rest := by
  have hspaced : 0 ∉ (32 : Byte) :: f.val.chars := by
    intro hin
    rcases List.mem_cons.mp hin with hzero | hval
    · exact absurd hzero (by decide)
    · exact f.val.no_nul hval
  have hline : 10 ∉ (32 : Byte) :: f.val.chars := by
    intro hin
    rcases List.mem_cons.mp hin with hnewline | hval
    · exact absurd hnewline (by decide)
    · exact f.val_line hval
  have hlineRest : f.line ++ rest = f.key.chars ++ 58 :: ((32 :: f.val.chars) ++ 10 :: rest) := by
    simp [Field.line]
  rw [hlineRest] at hread
  obtain ⟨m', next, hnext, hturn, hrest⟩ :=
    readFrom_line fuel list s f.key ⟨32 :: f.val.chars, hspaced⟩ f.key_colon f.key_line hline hread
  have hlength : next = pkt + f.line.length := by
    rw [hnext]
    simp [Field.line]
    omega
  have hstripped : CString.stripped ⟨32 :: f.val.chars, hspaced⟩ = f.stripped := by
    simp [CString.stripped, Field.stripped]
  rw [hlength, hstripped, hset] at hturn
  rw [hlength] at hrest
  exact ⟨m', hturn, hrest⟩

/-- What the reader makes of a line. -/
def Field.entry (f : Field) : Entry := ⟨f.key, some f.stripped, true⟩

/-- A key that is not there yet is stored at the end. -/
theorem storeAt_touch_new {k : CString} {es : List Entry} (hk : k ∉ es.map (·.key))
    (v : Option CString) : storeAt true k v (touch k es) = es ++ [⟨k, v, true⟩] := by
  have hkeep : storeAt true k v es = es := by
    have hsame : ∀ e ∈ es,
        (if e.key = k then { e with val := v, changed := e.changed || true } else e) = e := by
      intro e he
      have hne : e.key ≠ k := fun heq => hk (List.mem_map.mpr ⟨e, he, heq⟩)
      rw [if_neg hne]
    rw [storeAt, List.map_congr_left hsame, List.map_id']
  rw [touch, if_neg hk, storeAt, List.map_append]
  rw [storeAt] at hkeep
  rw [hkeep]
  simp

/-- The reader over the remaining lines, with or without the newline behind them. -/
theorem readFrom_text (start len : Nat) {list : Nat} {fs : List Field} {tail : List Byte}
    (htail : tail = [] ∨ tail = [10]) (hfits : ∀ f ∈ fs, f.key.Fits ∧ f.stripped.Fits)
    {fuel pkt : Nat} {m : Mem} {s : Store} {nodes : Nat → List Nat} {entries : Nat → List Entry}
    (hs : Holds [list] s nodes entries)
    (hkeys : ((entries list).map (·.key) ++ fs.map (·.key)).Nodup)
    (hpkt : start ≤ pkt) (hstop : pkt ≤ start + len)
    (hread : read m pkt (start + len - pkt) = text fs ++ tail)
    (hint : pkt - start + (text fs).length < 2 ^ 31) (hfuel : fs.length < fuel) :
    ∃ m' s' nodes', readFrom list start len fuel pkt m s =
        .ok ((pkt - start + (text fs).length : Nat), m', s') ∧
      Holds [list] s' nodes'
        (Function.update entries list (entries list ++ fs.map Field.entry)) := by
  obtain ⟨fuel, rfl⟩ : ∃ k, fuel = k + 1 := ⟨fuel - 1, by omega⟩
  have hlength := congrArg List.length hread
  rw [read_length, List.length_append] at hlength
  induction fs generalizing fuel pkt m s nodes entries with
  | nil =>
      have hmap : entries list ++ [].map Field.entry = entries list := by simp
      rw [hmap, Function.update_eq_self]
      rw [text_nil, List.length_nil, Nat.add_zero] at hint
      refine ⟨m, s, nodes, ?_, hs⟩
      rcases htail with rfl | rfl
      · have hend : pkt = start + len := by simp at hlength; omega
        have hlen : len = pkt - start := by omega
        rw [readFrom]
        dsimp only
        rw [if_neg (by omega), hlen, toInt32_of_lt hint]
        rfl
      · have hone : start + len - pkt = 1 := by simpa using hlength
        have hnewline : m pkt = 10 := byte_at (w := []) hread
        have hskip : skip (fun c => c ≠ 58 && c ≠ 10) m (start + len - pkt) pkt = pkt := by
          rw [hone, skip, hnewline]
          rfl
        have hcolon : m pkt ≠ 58 := by rw [hnewline]; decide
        rw [readFrom]
        dsimp only
        rw [if_pos (by omega), hskip, if_neg (by omega), if_pos hcolon, toInt32_of_lt hint]
        rfl
  | cons f fs ih =>
      rw [text_cons, List.append_assoc] at hread
      rw [text_cons, List.length_append] at hint hlength
      obtain ⟨hkeyFits, hvalFits⟩ := hfits f List.mem_cons_self
      obtain ⟨s₁, ns, hset, hs₁⟩ := hs.attrStore List.mem_cons_self hkeyFits (v := some f.stripped)
        (fun x hx => Option.some.inj hx ▸ hvalFits) true
      obtain ⟨m₁, hturn, hread₁⟩ := readFrom_turn fuel hread hset
      have hnew : f.key ∉ (entries list).map (·.key) := by
        intro hin
        rw [List.nodup_append] at hkeys
        exact hkeys.2.2 _ hin f.key (by simp) rfl
      rw [storeAt_touch_new hnew] at hs₁
      obtain ⟨fuel, rfl⟩ : ∃ k, fuel = k + 1 := ⟨fuel - 1, by simp at hfuel; omega⟩
      have hlength₁ : start + len - (pkt + f.line.length) = (text fs).length + tail.length := by omega
      obtain ⟨m', s', nodes', hrun, hs'⟩ := ih (fun g hg => hfits g (List.mem_cons_of_mem _ hg)) hs₁
        (by simpa using hkeys) (by omega) (by omega) hread₁ (by omega) fuel (by simpa using hfuel)
        hlength₁
      refine ⟨m', s', nodes', ?_, ?_⟩
      · rw [hturn, hrun, text_cons, List.length_append]
        congr 3
        omega
      · rw [Function.update_self, Function.update_idem, List.append_assoc] at hs'
        exact hs'

/-- A string that is part of a text shorter than `2 ^ 31` bytes can be copied. -/
theorem fits_of_mem {fs : List Field} (hint : (text fs).length < 2 ^ 31) :
    ∀ f ∈ fs, f.key.Fits ∧ f.stripped.Fits := by
  intro f hf
  have hmax : 2 ^ 31 < Pool.mpSizeMax := by decide
  have hline : f.line.length ≤ (text fs).length := by
    rw [text, List.length_flatMap]
    exact List.single_le_sum (fun _ _ => Nat.zero_le _) _ (List.mem_map_of_mem hf)
  have hkey : f.key.chars.length + 1 ≤ f.line.length := by
    simp only [Field.line, List.length_append, List.length_cons, List.length_nil]
    omega
  have hval : f.stripped.chars.length + 1 ≤ f.line.length := by
    have hstrip : f.stripped.chars.length ≤ f.val.chars.length :=
      (List.dropWhile_sublist _).length_le
    simp only [Field.line, List.length_append, List.length_cons, List.length_nil]
    omega
  unfold CString.Fits
  omega

theorem objectRead_eq {fs : List Field} (hkeys : (fs.map (·.key)).Nodup)
    (hint : (text fs).length < 2 ^ 31) {s : Store} {list : Nat} (hempty : EmptyLists [list] s)
    {m : Mem} {addr len : Nat} (hread : read m addr ((text fs).length + 1) = text fs ++ [10])
    (hlen : len = (text fs).length ∨ len = (text fs).length + 1) :
    ∃ m' s', objectRead s list m addr len = .ok ((text fs).length, m', s') ∧
      HasFields s' list (fs.map (fun f => (f.key, f.stripped))) := by
  obtain ⟨s₀, nodes, hstore, hs⟩ := kept_of_empty hempty
  obtain rfl : s = s₀ := Except.ok.inj hstore
  have hbuffer : ∃ tail, (tail = [] ∨ tail = [10]) ∧ read m addr len = text fs ++ tail := by
    rcases hlen with rfl | rfl
    · refine ⟨[], Or.inl rfl, ?_⟩
      rw [(read_behind hread).1, List.append_nil]
    · exact ⟨[10], Or.inr rfl, hread⟩
  obtain ⟨tail, htail, hbytes⟩ := hbuffer
  have hfuel : fs.length < len + 1 := by
    have hline : fs.length ≤ (text fs).length := by
      rw [text, List.length_flatMap]
      have hone : ∀ n ∈ fs.map (fun f => f.line.length), 1 ≤ n := by
        intro n hn
        obtain ⟨f, _, rfl⟩ := List.mem_map.mp hn
        simp [Field.line]
        omega
      simpa using List.length_le_sum_of_one_le _ hone
    omega
  have hnone : entriesOf [] = [] := rfl
  obtain ⟨m', s', nodes', hrun, hs'⟩ := readFrom_text addr len htail
    (fits_of_mem hint) hs (by simpa [hnone] using hkeys) le_rfl (by omega)
    (by simpa using hbytes) (by simpa using hint) hfuel
  refine ⟨m', s', ?_, ?_⟩
  · simpa [objectRead] using hrun
  · refine ⟨nodes' list, hs'.ring list List.mem_cons_self,
      fun n hn => hs'.bound list List.mem_cons_self n (List.mem_cons_of_mem _ hn), ?_⟩
    have hattrs := hs'.attrs list List.mem_cons_self
    have hpairs := congrArg (List.map (fun a : Attr => (a.key, a.val))) hattrs
    rw [Function.update_self, hnone, List.nil_append, List.map_map, List.map_map, List.map_map] at hpairs
    rw [List.map_map]
    exact hpairs

/-- `object_write` leaves the text and one newline, and `object_read` of it, with or without that
newline, gives the keys in their order with the values stripped of leading spaces; both return
the length of the text. -/
def RoundTrip (s : Store) (list : Nat) (fs : List Field) (m : Mem) (addr size : Nat)
    (fresh : Store) (copy : Nat) : Prop :=
  ∃ m', objectWrite s list m addr size = .ok ((text fs).length, m') ∧
    read m' addr ((text fs).length + 1) = text fs ++ [10] ∧
    ∀ len, len = (text fs).length ∨ len = (text fs).length + 1 →
      ∃ m'' s', objectRead fresh copy m' addr len = .ok ((text fs).length, m'', s') ∧
        HasFields s' copy (fs.map (fun f => (f.key, f.stripped)))

theorem writeFrom_lt {s : Store} {list size : Nat} {fuel a p len : Nat} {m m' : Mem} {r : Int}
    (h : writeFrom s list size fuel a p len m = .ok (r, m')) : r < 2 ^ 31 := by
  induction fuel generalizing a p len m with
  | zero => exact absurd h nofun
  | succ fuel ih =>
      rw [writeFrom] at h
      split at h
      · rw [← (Prod.mk.inj (Except.ok.inj h)).1]
        exact toInt32_lt len
      · split at h
        · exact absurd h nofun
        · exact ih h

/-- For every object with lines to write, every buffer with two bytes more than the text and every
fresh object, the round trip works if and only if the length of the text is an `int`. -/
theorem object_round_trip_iff (s : Store) (list : Nat) (fs : List Field)
    (hobject : HasFields s list (fs.map (fun f => (f.key, f.val)))) (hkeys : (fs.map (·.key)).Nodup)
    (hne : fs ≠ []) (m : Mem) (addr size : Nat) (hsize : (text fs).length + 2 ≤ size)
    (hwidth : size < 2 ^ 32) (fresh : Store) (copy : Nat) (hempty : EmptyLists [copy] fresh) :
    RoundTrip s list fs m addr size fresh copy ↔ (text fs).length < 2 ^ 31 := by
  constructor
  · rintro ⟨m', hwrite, _⟩
    have hlt := writeFrom_lt hwrite
    omega
  · intro hint
    obtain ⟨m', hwrite, hread⟩ := objectWrite_eq hobject hne m addr hsize hwidth hint
    exact ⟨m', hwrite, hread, fun len hlen => objectRead_eq hkeys hint hempty hread hlen⟩

/-- A line with an empty key. -/
def valueField (v : CString) (h : 10 ∉ v.chars) : Field where
  key := ⟨[], by simp⟩
  val := v
  key_colon := by simp
  key_line := by simp
  val_line := h

/-- The first list of `twoLists` with one attribute that has an empty key. -/
def oneAttr (v : CString) : Store :=
  (twoLists.addAttr 0 [0]).setAttr 2 ⟨[0], some v.bytes, attrChanged⟩

theorem oneAttr_hasFields (v : CString) (h : 10 ∉ v.chars) :
    HasFields (oneAttr v) 0 ([valueField v h].map (fun f => (f.key, f.val))) := by
  refine ⟨[2], ⟨by decide, ?_⟩, ?_, ?_⟩
  · exact ⟨rfl, rfl, rfl, rfl⟩
  · intro n hn
    rcases List.mem_singleton.mp hn with rfl
    exact Nat.lt_succ_self 2
  · simp [oneAttr, Store.setAttr_self, valueField, CString.bytes]

theorem text_valueField (v : CString) (h : 10 ∉ v.chars) :
    (text [valueField v h]).length = v.chars.length + 3 := by
  simp [Field.line, valueField]

/-- An empty key with the value `"  a:b"`, whose leading spaces are lost. -/
def spacedValue : CString := ⟨[32, 32, 97, 58, 98], by decide⟩

/-- A second line, with the key `"k"` and the value `"1"` -/
def namedField : Field where
  key := ⟨[107], by decide⟩
  val := ⟨[49], by decide⟩
  key_colon := by decide
  key_line := by decide
  val_line := by decide

/-- The list of `oneAttr` with the attribute of `namedField` behind its own. -/
def namedPair : Store :=
  ((oneAttr spacedValue).addAttr 0 namedField.key.bytes).setAttr 3
    ⟨namedField.key.bytes, some namedField.val.bytes, attrChanged⟩

theorem namedPair_ring : IsRing namedPair.links 0 [2, 3] :=
  ⟨by decide, rfl, rfl, rfl, rfl, rfl, rfl⟩

theorem namedPair_fresh : ∀ n ∈ [2, 3], n < namedPair.fresh := by decide

theorem namedPair_hasFields :
    HasFields namedPair 0
      ([valueField spacedValue (by decide), namedField].map (fun f => (f.key, f.val))) :=
  ⟨[2, 3], namedPair_ring, namedPair_fresh, rfl⟩

/-- An object of two lines, the first with leading spaces -/
theorem object_round_trip_spaced :
    (text [valueField spacedValue (by decide), namedField]).length + 2 ≤ 16 ∧
      RoundTrip namedPair 0 [valueField spacedValue (by decide), namedField] (fun _ => 0) 0x1000 16
        twoLists 1 := by
  have hsize : (text [valueField spacedValue (by decide), namedField]).length + 2 ≤ 16 := by decide
  have hempty : EmptyLists [1] twoLists := fun h hh => twoLists_empty h (List.mem_cons_of_mem _ hh)
  refine ⟨hsize, ?_⟩
  exact (object_round_trip_iff namedPair 0 _ namedPair_hasFields (by decide) (by simp) _ _ _ hsize
    (by decide) twoLists 1 hempty).mpr (by decide)

theorem manyChars_no_newline (n : Nat) : 10 ∉ (manyChars n).chars :=
  fun h => absurd (List.eq_of_mem_replicate h) (by decide)

theorem not_roundTrip_long {v : CString} (h : 10 ∉ v.chars) (hlong : 2 ^ 31 ≤ v.chars.length + 3)
    (m : Mem) (addr size : Nat) :
    ¬ RoundTrip (oneAttr v) 0 [valueField v h] m addr size twoLists 1 := by
  rintro ⟨m', hwrite, _⟩
  have hlt := writeFrom_lt hwrite
  rw [text_valueField] at hlt
  omega

/-- A text of `2 ^ 31` bytes in a buffer with room for it: the length that `object_write` returns
is negative. -/
theorem object_round_trip_fails_two_gib :
    HasFields (oneAttr (manyChars (2 ^ 31 - 3))) 0
        ([valueField (manyChars (2 ^ 31 - 3)) (manyChars_no_newline _)].map (fun f => (f.key, f.val))) ∧
      (text [valueField (manyChars (2 ^ 31 - 3)) (manyChars_no_newline _)]).length + 2 ≤ 2 ^ 31 + 2 ∧
      ¬ RoundTrip (oneAttr (manyChars (2 ^ 31 - 3))) 0
        [valueField (manyChars (2 ^ 31 - 3)) (manyChars_no_newline _)] (fun _ => 0) 0x1000
        (2 ^ 31 + 2) twoLists 1 := by
  have hlength : (manyChars (2 ^ 31 - 3)).chars.length = 2 ^ 31 - 3 := List.length_replicate
  refine ⟨oneAttr_hasFields _ _, ?_, not_roundTrip_long _ ?_ _ _ _⟩
  · rw [text_valueField, hlength]
    decide
  · rw [hlength]
    decide

end OpenAAA.Attrs
