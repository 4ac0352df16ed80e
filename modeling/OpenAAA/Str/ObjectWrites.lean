import OpenAAA.Str.Object

/-!
Where `object_write` writes. The writer is told the size of its buffer, but it moves on by
the length of the whole line, also when only a part of it was written, and then stores a
newline there. The loop is written once more with the accesses of every turn recorded; its
results are those of `Object`. It stays in the buffer exactly when every line ends before
the last byte of it.
-/

namespace OpenAAA.Attrs

open Memory Alloc Rings Intrusive

/-- What one turn of the writer does: the length that enters `size - len - 1`, the bytes
`snprintf` writes, and the address of the newline. -/
structure WriteTurn where
  len : Nat
  start : Nat
  width : Nat
  newline : Int

/-- How many bytes `snprintf` writes. -/
def printedWidth (n : Nat) (text : List Byte) : Nat :=
  if text.length < 2 ^ 31 then if n = 0 then 0 else (text.take (n - 1) ++ [0]).length else 0

/-- `writeFrom`, recorded. -/
def writeTurns (s : Store) (list size : Nat) :
    Nat → Nat → Nat → Nat → Mem → Except Fault (Int × Mem × List WriteTurn)
  | 0, _, _, _, _ => .error .endless
  | fuel + 1, a, p, len, m =>
      if a = list then .ok (toInt32 len, m, [])
      else match formatLine (s.attr a).key (s.attr a).val with
        | .error fault => .error fault
        | .ok text =>
            let n := (size + 2 * 2 ^ 32 - len - 1) % 2 ^ 32
            let (rv, m) := snprintf m p n text
            let turn : WriteTurn := ⟨len, p, printedWidth n text, p + rv⟩
            let p := (p + rv).toNat
            let len := ((len + rv) % 2 ^ 32).toNat
            match writeTurns s list size fuel (s.links.next a) p len (write m p [10]) with
            | .error fault => .error fault
            | .ok (r, m, turns) => .ok (r, m, turn :: turns)

/-- `object_write`, recorded. -/
def objectWriteTurns (s : Store) (list : Nat) (m : Mem) (addr size : Nat) :
    Except Fault (Int × Mem × List WriteTurn) :=
  writeTurns s list size (s.fresh + 1) (s.links.next list) addr 0 m

/-- The recorded loop computes what `object_write` does. -/
theorem writeTurns_eq (s : Store) (list size fuel a p len : Nat) (m : Mem) :
    writeFrom s list size fuel a p len m =
      (writeTurns s list size fuel a p len m).map (fun r => (r.1, r.2.1)) := by
  induction fuel generalizing a p len m with
  | zero => rfl
  | succ fuel ih =>
      rw [writeFrom, writeTurns]
      split
      · rfl
      · cases hline : formatLine (s.attr a).key (s.attr a).val with
        | error fault => rfl
        | ok text =>
            dsimp only
            rw [ih]
            cases writeTurns s list size fuel (s.links.next a) _ _ _ with
            | error fault => rfl
            | ok r => rfl

theorem objectWriteTurns_eq (s : Store) (list : Nat) (m : Mem) (addr size : Nat) :
    objectWrite s list m addr size =
      (objectWriteTurns s list m addr size).map (fun r => (r.1, r.2.1)) :=
  writeTurns_eq s list size _ _ addr 0 m

/-! ## The lines of an object -/

/-- The line of an attribute. A value that is not set is printed as text. -/
def Entry.text (e : Entry) : List Byte :=
  e.key.chars ++ [58, 32] ++
    (match e.val with
      | none => [40, 110, 117, 108, 108, 41]
      | some v => v.chars) ++ [10]

/-- What `snprintf` returns for a line: its length, if that is an `int`. -/
def Entry.printed (e : Entry) : Int := if e.text.length < 2 ^ 31 then e.text.length else -1

/-- Where the writer stands behind the first `k` lines. -/
def position (es : List Entry) (k : Nat) : Int := ((es.take k).map Entry.printed).sum

/-- The attributes of an object, in order. -/
def HasEntries (s : Store) (list : Nat) (es : List Entry) : Prop :=
  ∃ ns, IsRing s.links list ns ∧ (∀ n ∈ ns, n < s.fresh) ∧ ns.map s.attr = es.map Entry.attr

theorem formatLine_entry (e : Entry) : formatLine e.attr.key e.attr.val = .ok e.text := by
  rw [formatLine, Entry.attr]
  dsimp only
  rw [formatString_bytes, Entry.text]
  cases e.val with
  | none => rfl
  | some v => rw [Option.map_some, formatString_bytes]

theorem snprintf_printed (m : Mem) (p n : Nat) (e : Entry) : (snprintf m p n e.text).1 = e.printed := by
  unfold snprintf Entry.printed
  split <;> rfl

/-- A turn that stays in the buffer, with a size that does not wrap. -/
def WriteTurn.Inside (addr size : Nat) (t : WriteTurn) : Prop :=
  t.len + 1 ≤ size ∧ (t.width = 0 ∨ Memory.Inside t.start t.width addr size) ∧
    addr ≤ t.newline ∧ t.newline + 1 ≤ addr + size

section Turns

variable {s : Store} {list a fuel : Nat} {ns : List Nat} {es : List Entry}

/-- The writer returns from wherever it stands. -/
theorem writeTurns_total (size : Nat) (hpath : Path s.links a ns list) (hlist : list ∉ ns)
    (hattrs : ns.map s.attr = es.map Entry.attr) (hfuel : ns.length < fuel) (p len : Nat) (m : Mem) :
    ∃ r m' turns, writeTurns s list size fuel (s.links.next a) p len m = .ok (r, m', turns) := by
  induction ns generalizing a fuel es p len m with
  | nil =>
      obtain ⟨fuel, rfl⟩ : ∃ k, fuel = k + 1 := ⟨fuel - 1, by simp at hfuel; omega⟩
      exact ⟨toInt32 len, m, [], by rw [hpath.1, writeTurns, if_pos rfl]⟩
  | cons n ns ih =>
      cases es with
      | nil => simp at hattrs
      | cons e es =>
          obtain ⟨hnext, _, htail⟩ := hpath
          rw [List.map_cons, List.map_cons, List.cons.injEq] at hattrs
          have hn : n ≠ list := fun heq => hlist (by simp [heq])
          obtain ⟨fuel, rfl⟩ : ∃ k, fuel = k + 1 := ⟨fuel - 1, by simp at hfuel; omega⟩
          have htotal := ih htail (fun hin => hlist (List.mem_cons_of_mem _ hin)) hattrs.2
            (by simpa using hfuel)
          have hok : ∀ p len m fault,
              writeTurns s list size fuel (s.links.next n) p len m ≠ .error fault := by
            intro p len m fault
            obtain ⟨r, m', turns, hrest⟩ := htotal p len m
            rw [hrest]
            nofun
          rw [hnext, writeTurns, if_neg hn, hattrs.1, formatLine_entry]
          dsimp only
          split
          · next fault herror => exact absurd herror (hok _ _ _ fault)
          · next r m' turns _ => exact ⟨r, m', _, rfl⟩

variable {size : Nat}

/-- The lines that the writer has room for, from a position inside of the buffer on. -/
def FitsFrom (size len : Nat) (es : List Entry) : Prop :=
  ∀ k, 0 < k → k ≤ es.length → 0 ≤ len + position es k ∧ len + position es k < size

theorem fitsFrom_cons {len : Nat} {e : Entry} :
    FitsFrom size len (e :: es) ↔
      ∃ next : Nat, next = len + e.printed ∧ next < size ∧ FitsFrom size next es := by
  have hposition : ∀ k, position (e :: es) (k + 1) = e.printed + position es k := by
    intro k
    simp [position]
  constructor
  · intro h
    have hfirst := h 1 (by decide) (by simp)
    rw [hposition 0] at hfirst
    simp only [position, List.take_zero, List.map_nil, List.sum_nil, add_zero] at hfirst
    refine ⟨(len + e.printed).toNat, by omega, by omega, ?_⟩
    intro k hk hle
    have hnext := h (k + 1) (by omega) (by simpa using hle)
    rw [hposition k] at hnext
    omega
  · rintro ⟨next, hnext, hlt, hrest⟩ k hk hle
    obtain ⟨k, rfl⟩ : ∃ j, k = j + 1 := ⟨k - 1, by omega⟩
    rw [hposition k]
    cases k with
    | zero =>
        simp only [position, List.take_zero, List.map_nil, List.sum_nil, add_zero]
        omega
    | succ k =>
        have := hrest (k + 1) (by omega) (by simpa using hle)
        omega

/-- One turn, from a position in the buffer or at its start. -/
theorem writeTurns_cons {n p len : Nat} {e : Entry} {m : Mem} {r : Int} {m' : Mem}
    {turns : List WriteTurn} (hn : n ≠ list) (hattr : s.attr n = e.attr)
    (hrun : writeTurns s list size (fuel + 1) n p len m = .ok (r, m', turns)) :
    ∃ m₁ rest, turns = ⟨len, p, printedWidth ((size + 2 * 2 ^ 32 - len - 1) % 2 ^ 32) e.text,
        p + e.printed⟩ :: rest ∧
      writeTurns s list size fuel (s.links.next n) (p + e.printed).toNat
        ((len + e.printed) % 2 ^ 32).toNat m₁ = .ok (r, m', rest) := by
  rw [writeTurns, if_neg hn, hattr, formatLine_entry] at hrun
  dsimp only at hrun
  rw [snprintf_printed] at hrun
  split at hrun
  · cases hrun
  · next r₁ m₁ rest hrest =>
      simp only [Except.ok.injEq, Prod.mk.injEq] at hrun
      obtain ⟨rfl, rfl, rfl⟩ := hrun
      exact ⟨_, rest, rfl, hrest⟩

theorem printedWidth_le (n : Nat) (text : List Byte) : printedWidth n text ≤ n := by
  unfold printedWidth
  split
  · split
    · omega
    · rw [List.length_append, List.length_take, List.length_singleton]
      omega
  · omega

/-- The first turn stays inside exactly when its line ends before the last byte. -/
theorem inside_turn_iff (addr : Nat) {len : Nat} (e : Entry) (hlen : len < size ∨ len = 0)
    (hwidth : size < 2 ^ 32) :
    WriteTurn.Inside addr size
        ⟨len, addr + len, printedWidth ((size + 2 * 2 ^ 32 - len - 1) % 2 ^ 32) e.text,
          (addr + len : Nat) + e.printed⟩ ↔
      0 ≤ len + e.printed ∧ len + e.printed < size := by
  unfold WriteTurn.Inside
  dsimp only
  constructor
  · rintro ⟨_, _, hlow, hhigh⟩
    omega
  · intro hfits
    have hroom : (size + 2 * 2 ^ 32 - len - 1) % 2 ^ 32 = size - len - 1 := by omega
    have hprinted := printedWidth_le (size - len - 1) e.text
    rw [hroom]
    refine ⟨by omega, Or.inr ⟨by omega, by omega⟩, by omega, by omega⟩

/-- A run stays inside exactly when all its lines fit, and then it returns where the last one
ends. -/
theorem writeTurns_inside_iff (hpath : Path s.links a ns list) (hlist : list ∉ ns)
    (hattrs : ns.map s.attr = es.map Entry.attr) (hfuel : ns.length < fuel) (addr : Nat) {len : Nat}
    (hlen : len < size ∨ len = 0) (hwidth : size < 2 ^ 32) {m m' : Mem} {r : Int}
    {turns : List WriteTurn}
    (hrun : writeTurns s list size fuel (s.links.next a) (addr + len) len m = .ok (r, m', turns)) :
    ((∀ t ∈ turns, t.Inside addr size) ↔ FitsFrom size len es) ∧ (FitsFrom size len es → r ≤ size) := by
  induction ns generalizing a fuel es len m turns with
  | nil =>
      have hes : es = [] := by
        cases es with
        | nil => rfl
        | cons e es => simp at hattrs
      subst hes
      obtain ⟨fuel, rfl⟩ : ∃ k, fuel = k + 1 := ⟨fuel - 1, by simp at hfuel; omega⟩
      rw [hpath.1, writeTurns, if_pos rfl] at hrun
      simp only [Except.ok.injEq, Prod.mk.injEq] at hrun
      obtain ⟨rfl, rfl, rfl⟩ := hrun
      have hnone : FitsFrom size len [] := fun k hk hle => absurd hle (by simp; omega)
      refine ⟨⟨fun _ => hnone, fun _ t ht => absurd ht (by simp)⟩, fun _ => ?_⟩
      unfold toInt32
      split <;> omega
  | cons n ns ih =>
      cases es with
      | nil => simp at hattrs
      | cons e es =>
          obtain ⟨hnext, _, htail⟩ := hpath
          rw [List.map_cons, List.map_cons, List.cons.injEq] at hattrs
          have hn : n ≠ list := fun heq => hlist (by simp [heq])
          obtain ⟨fuel, rfl⟩ : ∃ k, fuel = k + 1 := ⟨fuel - 1, by simp at hfuel; omega⟩
          rw [hnext] at hrun
          obtain ⟨m₁, rest, rfl, hrest⟩ := writeTurns_cons hn hattrs.1 hrun
          have hturn := inside_turn_iff addr e hlen hwidth
          rw [List.forall_mem_cons, hturn, fitsFrom_cons]
          by_cases hfits : 0 ≤ len + e.printed ∧ len + e.printed < size
          · obtain ⟨next, hnextLen⟩ : ∃ next : Nat, (next : Int) = len + e.printed :=
              ⟨(len + e.printed).toNat, by omega⟩
            have hp : ((addr + len : Nat) + e.printed).toNat = addr + next := by omega
            have hlen' : ((len + e.printed) % 2 ^ 32).toNat = next := by omega
            rw [hp, hlen'] at hrest
            have hrec := ih htail (fun hin => hlist (List.mem_cons_of_mem _ hin)) hattrs.2
              (by simpa using hfuel) (Or.inl (by omega)) hrest
            constructor
            · rw [hrec.1]
              constructor
              · rintro ⟨_, hall⟩
                exact ⟨next, hnextLen, by omega, hall⟩
              · rintro ⟨next', hnext', _, hall⟩
                obtain rfl : next' = next := by omega
                exact ⟨hfits, hall⟩
            · rintro ⟨next', hnext', _, hall⟩
              obtain rfl : next' = next := by omega
              exact hrec.2 hall
          · constructor
            · constructor
              · rintro ⟨habs, _⟩
                exact absurd habs hfits
              · rintro ⟨next', hnext', hlt, _⟩
                exact absurd ⟨by omega, by omega⟩ hfits
            · rintro ⟨next', hnext', hlt, _⟩
              exact absurd ⟨by omega, by omega⟩ hfits

end Turns

/-- `object_write` keeps to its buffer: it returns at most the size, and in no turn does it write
outside of the buffer or compute a size that wraps. -/
def KeepsToBuffer (s : Store) (list : Nat) (m : Mem) (addr size : Nat) : Prop :=
  ∃ r m' turns, objectWriteTurns s list m addr size = .ok (r, m', turns) ∧
    (∀ t ∈ turns, t.Inside addr size) ∧ r ≤ size

theorem keepsToBuffer_iff {s : Store} {list : Nat} {es : List Entry} (hobject : HasEntries s list es)
    (m : Mem) (addr : Nat) {size : Nat} (hwidth : size < 2 ^ 32) :
    KeepsToBuffer s list m addr size ↔
      ∀ k, 0 < k → k ≤ es.length → 0 ≤ position es k ∧ position es k < size := by
  obtain ⟨ns, hring, hbound, hattrs⟩ := hobject
  obtain ⟨hhead, hnodup⟩ := List.nodup_cons.mp hring.nodup
  have hfuel : ns.length < s.fresh + 1 := length_lt_of_fresh hnodup hbound
  have hstart : (∀ k, 0 < k → k ≤ es.length → 0 ≤ position es k ∧ position es k < size) ↔
      FitsFrom size 0 es := by simp [FitsFrom]
  obtain ⟨r, m', turns, hrun⟩ := writeTurns_total size hring.path hhead hattrs hfuel addr 0 m
  have hinside := writeTurns_inside_iff hring.path hhead hattrs hfuel addr (Or.inr rfl) hwidth hrun
  rw [hstart]
  constructor
  · rintro ⟨r', m'', turns', hrun', hall, _⟩
    have hsame := hrun.symm.trans hrun'
    simp only [Except.ok.injEq, Prod.mk.injEq] at hsame
    obtain ⟨rfl, rfl, rfl⟩ := hsame
    exact hinside.1.mp hall
  · intro hfits
    exact ⟨r, m', turns, hrun, hinside.1.mpr hfits, hinside.2 hfits⟩

/-- For every object and every size, `object_write` keeps to its buffer if and only if after every
line the sum of what `snprintf` returned is the offset of a byte of the buffer. -/
theorem objectWrite_keeps_to_buffer_iff (s : Store) (list : Nat) (es : List Entry)
    (hobject : HasEntries s list es) (m : Mem) (addr size : Nat) (hwidth : size < 2 ^ 32) :
    KeepsToBuffer s list m addr size ↔
      ∀ k, 0 < k → k ≤ es.length → 0 ≤ position es k ∧ position es k < size :=
  keepsToBuffer_iff hobject m addr hwidth

theorem no_nul_nil : (0 : Byte) ∉ ([] : List Byte) := List.not_mem_nil

/-- The attribute of `oneAttr`. -/
def valueEntry (v : CString) : Entry := ⟨⟨[], no_nul_nil⟩, some v, true⟩

theorem oneAttr_hasEntries (v : CString) : HasEntries (oneAttr v) 0 [valueEntry v] := by
  refine ⟨[2], ⟨by decide, ?_⟩, ?_, ?_⟩
  · exact ⟨rfl, rfl, rfl, rfl⟩
  · intro n hn
    rcases List.mem_singleton.mp hn with rfl
    exact Nat.lt_succ_self 2
  · simp [oneAttr, Store.setAttr_self, valueEntry, Entry.attr, CString.bytes, markFlag]

/-- The attribute of `namedField` -/
def namedEntry : Entry := ⟨namedField.key, some namedField.val, true⟩

theorem namedPair_hasEntries : HasEntries namedPair 0 [valueEntry spacedValue, namedEntry] :=
  ⟨[2, 3], namedPair_ring, namedPair_fresh, rfl⟩

/-- Lines of eight and five bytes in a buffer of fourteen -/
theorem objectWrite_keeps_to_buffer_fourteen :
    HasEntries namedPair 0 [valueEntry spacedValue, namedEntry] ∧
      KeepsToBuffer namedPair 0 (fun _ => 0) 0x1000 14 := by
  refine ⟨namedPair_hasEntries,
    (objectWrite_keeps_to_buffer_iff _ 0 _ namedPair_hasEntries _ _ 14 (by decide)).mpr ?_⟩
  intro k hk hle
  obtain rfl | rfl : k = 1 ∨ k = 2 := by
    simp at hle
    omega
  · decide
  · decide

/-- The line of eight bytes alone in a buffer of eight: the newline is the ninth byte. -/
theorem not_keepsToBuffer_eight :
    ¬ KeepsToBuffer (oneAttr spacedValue) 0 (fun _ => 0) 0x1000 8 := by
  rw [keepsToBuffer_iff (oneAttr_hasEntries spacedValue) _ _ (by decide)]
  intro h
  exact absurd (h 1 (by decide) (by simp)) (by decide)

end OpenAAA.Attrs
