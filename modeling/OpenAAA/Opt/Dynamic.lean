import OpenAAA.Opt.Effects

/-!
What the operations on dynamic arrays do. An array is the sequence of what its elements
come from: the bytes that were there at the start, or words that a parser has read. Every
operation builds a new array and leaves the old one alone.
-/

namespace OpenAAA.Opt

open Memory Alloc Hoare

/-! ## Elements -/

/-- What `conf.h` asks of parsers of user types: they must store the value within
`[ptr, ptr + size)`. -/
def Env.ParsersStay (env : Env) : Prop :=
  ∀ u str p w r, env.utypeParser u str p w = some r →
    ∀ a, w.Live a → a ∉ range p (env.utypeSize u) → r.mem a = w.heap.mem a

/-- The bytes are what the parser of the type makes of a word. A string is a pointer to a copy,
which no address of `X` is part of. -/
def Parsed (env : Env) (X : Set Nat) (w : World) (type : CfType) (str : CStr) (bytes : List Byte) :
    Prop :=
  match type with
  | .lookup table => ∃ n, table.findIdx? (strcaseEq · str) = some n ∧ bytes = valueBytes 4 n
  | .user u => ∃ v q r, env.utypeParser u str q v = some r ∧ r.msg = none ∧
      bytes = read r.mem q (env.utypeSize u)
  | .string => ∃ q < 2 ^ 64, bytes = valueBytes 8 q ∧ Reserved X w q (str.length + 1) ∧
      read w.heap.mem q (str.length + 1) = str ++ [0]
  | type => (env.parse type str).1 = none ∧ ∀ value, (env.parse type str).2 = some value →
      bytes = valueBytes (cfTypeSize env type) value

/-- What an element comes from. -/
inductive Source where
  | initial (bytes : List Byte)
  | word (str : CStr)

/-- The bytes of an element that comes from the source. -/
def Shows (env : Env) (X : Set Nat) (w : World) (type : CfType) (x : Source) (bytes : List Byte) :
    Prop :=
  bytes.length = cfTypeSize env type ∧
    match x with
    | .initial b => bytes = b
    | .word str => Parsed env X w type str bytes

section Elements

variable {env : Env} {align : Nat} {type : CfType} {X X' V : Set Nat} {w w' : World} {p : Nat}
  {str : CStr} {bytes : List Byte}

theorem Parsed.leaves (h : Parsed env X w type str bytes) (hw : Leaves V w w')
    (hV : ∀ a ∈ V, w.Live a → a ∈ X) : Parsed env X w' type str bytes := by
  cases type with
  | string =>
      obtain ⟨q, hq, hbytes, hreserved, hread⟩ := h
      exact ⟨q, hq, hbytes, hreserved.leaves hw, (hreserved.read (hw.mono hV)).trans hread⟩
  | int => exact h
  | u64 => exact h
  | double => exact h
  | ip => exact h
  | lookup table => exact h
  | user u => exact h

theorem Parsed.sub (h : Parsed env X w type str bytes)
    (hX : ∀ a, w.Live a → a ∈ X' → a ∈ X) : Parsed env X' w type str bytes := by
  cases type with
  | string =>
      obtain ⟨q, hq, hbytes, hreserved, hread⟩ := h
      refine ⟨q, hq, hbytes, fun a ha => ?_, hread⟩
      obtain ⟨hlive, hout⟩ := hreserved a ha
      exact ⟨hlive, fun hin => hout (hX a hlive hin)⟩
  | int => exact h
  | u64 => exact h
  | double => exact h
  | ip => exact h
  | lookup table => exact h
  | user u => exact h

theorem Shows.leaves {x : Source} (hx : Shows env X w type x bytes) (hw : Leaves V w w')
    (hV : ∀ a ∈ V, w.Live a → a ∈ X) : Shows env X w' type x bytes := by
  cases x with
  | initial b => exact hx
  | word str => exact ⟨hx.1, Parsed.leaves hx.2 hw hV⟩

theorem Shows.sub {x : Source} (hx : Shows env X w type x bytes)
    (hX : ∀ a, w.Live a → a ∈ X' → a ∈ X) : Shows env X' w type x bytes := by
  cases x with
  | initial b => exact hx
  | word str => exact ⟨hx.1, Parsed.sub hx.2 hX⟩

theorem callUser_does {code : UserCode} (hcode : ∀ r, code w = some r → ∀ a, w.Live a → a ∉ V →
      r.mem a = w.heap.mem a) :
    Does V w (callUser code) fun msg w' =>
      ∃ r, code w = some r ∧ r.msg = msg ∧ w'.heap.mem = r.mem := by
  rintro v rfl
  unfold callUser
  cases hr : code v with
  | none => exact Or.inr (Or.inr (Or.inr rfl))
  | some r =>
      have hleaves : Leaves V v (v.afterUser r) :=
        ⟨fun b hb => List.mem_append_right _ hb, hcode r hr⟩
      have hdone : Leaves V v (v.afterUser r) ∧
          ∃ r', some r = some r' ∧ r'.msg = r.msg ∧ (v.afterUser r).heap.mem = r'.mem :=
        ⟨hleaves, r, rfl, rfl, rfl⟩
      dsimp only
      by_cases hover : ∃ b ∈ r.fromPool ++ r.fromHeap, ∃ b' ∈ v.heap.blocks,
          ¬ Apart b'.1 b'.2 b.1 b.2
      · rw [if_pos hover]
        exact Or.inr (Or.inr (Or.inr rfl))
      · rw [if_neg hover]
        by_cases hnone : r.fromPool = [] ∧ journalled v.cc r.saved = []
        · rw [if_pos hnone]
          exact hdone
        · rw [if_neg hnone]
          cases v.cc.pool with
          | none => exact Or.inr (Or.inl rfl)
          | some pool =>
              dsimp only
              by_cases hdead : pool ∈ v.deleted
              · rw [if_pos hdead]
                exact Or.inr (Or.inr (Or.inl rfl))
              · rw [if_neg hdead]
                exact hdone

/-- One element is parsed into memory that is in use. -/
theorem parseElement_does (halloc : env.alloc.HandsOutFresh align) (hstay : env.ParsersStay)
    (hX : ∀ a ∈ X, w.Live a) (hlive : ∀ a ∈ range p (cfTypeSize env type), w.Live a)
    (hstr : type = .string → str.length + 1 < 2 ^ 32) :
    Does (range p (cfTypeSize env type)) w (parseElement env type str p) fun msg w' =>
      msg = none →
        Parsed env X w' type str (read w'.heap.mem p (cfTypeSize env type)) := by
  have hstored (size : Nat) (value : Option Nat) : Does (range p size) w (storeParsed p size value)
      fun _ w' => ∀ v, value = some v → read w'.heap.mem p size = valueBytes size v := by
    cases value with
    | none => exact Does.pure nofun
    | some v =>
        refine (storeAt_does v fun a ha => ha).weaken fun _ w' _ hmem u hu => ?_
        cases hu
        rw [hmem, read_store]
  cases type with
  | lookup table =>
      change Does _ w (cfParseLookup env str p table) _
      unfold cfParseLookup
      cases hfind : table.findIdx? (strcaseEq · str) with
      | some n =>
          dsimp only
          refine (storeAt_does n fun a ha => ha).bind fun _ w₁ _ hmem => Does.pure fun _ => ?_
          refine ⟨n, hfind, ?_⟩
          rw [hmem]
          exact read_store _ _ _ _
      | none =>
          dsimp only
          refine Does.bind (Q := fun msg _ => Option.isSome msg) ?_ fun msg w₁ _ hmsg => ?_
          · exact (poolAlloc_does halloc _).bind fun _ _ _ _ => Does.pure rfl
          · refine (storeAt_does _ fun a ha => Or.inl ha).bind fun _ w₂ _ _ => Does.pure ?_
            rintro rfl
            cases hmsg
  | user u =>
      refine (callUser_does fun r hr a ha hout => hstay u str p w r hr a ha hout).weaken ?_
      rintro msg w' _ ⟨r, hr, hmsg, hmem⟩ hnone
      exact ⟨w, p, r, hr, hmsg.trans hnone, by rw [hmem]; rfl⟩
  | string =>
      refine (cfStrdup_does halloc (hstr rfl)).bind fun q w₁ hw₁ hq => ?_
      obtain ⟨hfresh, hread⟩ := hq
      refine (storeAt_does q fun a ha => Or.inl ha).bind fun _ w₂ hw₂ hmem => Does.pure fun _ => ?_
      -- the copy is new, so the element is no part of it
      have hcopy : Reserved (range p 8) w₁ q (str.length + 1) := fun a ha =>
        ⟨(hfresh.fresh a ha).2, fun hin => (hfresh.fresh a ha).1 (hlive a hin)⟩
      refine ⟨q, ?_, ?_, fun a ha => ?_, ?_⟩
      · have hbound := hfresh.bound
        omega
      · rw [hmem]
        exact read_store _ _ _ _
      · exact ⟨(hfresh.fresh a ha).2.mono hw₂.blocks, fun hin => (hfresh.fresh a ha).1 (hX a hin)⟩
      · rw [← hread, hmem]
        refine read_congr fun i hi => store_outside ?_
        have hout := (hcopy (q + i) ⟨by omega, by omega⟩).2
        have hsize : cfTypeSize env .string = 8 := rfl
        by_contra hin
        exact hout ⟨by omega, by omega⟩
  | int =>
      exact (hstored 4 _).bind fun _ _ _ hv => Does.pure fun hmsg => ⟨hmsg, hv⟩
  | u64 =>
      exact (hstored 8 _).bind fun _ _ _ hv => Does.pure fun hmsg => ⟨hmsg, hv⟩
  | double =>
      exact (hstored 8 _).bind fun _ _ _ hv => Does.pure fun hmsg => ⟨hmsg, hv⟩
  | ip =>
      exact (hstored 4 _).bind fun _ _ _ hv => Does.pure fun hmsg => ⟨hmsg, hv⟩

/-- Elements are parsed one behind the other, as long as their offsets do not wrap. -/
theorem parseAryFrom_does (halloc : env.alloc.HandsOutFresh align) (hstay : env.ParsersStay)
    (number k : Nat) : ∀ (i : Nat) (pars : List CStr) (w : World),
    (∀ a ∈ X, w.Live a) →
    (∀ a ∈ range (p + i * cfTypeSize env type) (k * cfTypeSize env type), a ∈ X) →
    (∀ j < k, (i + j) * cfTypeSize env type < 2 ^ 32) → k ≤ pars.length →
    (type = .string → ∀ str ∈ pars.take k, str.length + 1 < 2 ^ 32) →
    Does (range (p + i * cfTypeSize env type) (k * cfTypeSize env type)) w
      (parseAryFrom env type p number k i pars) fun msg w' => msg = none →
        ∃ elems, List.Forall₂ (Shows env X w' type) ((pars.take k).map .word) elems ∧
          read w'.heap.mem (p + i * cfTypeSize env type) (k * cfTypeSize env type) =
            elems.flatten := by
  generalize hsize : cfTypeSize env type = size
  induction k with
  | zero =>
      intro i pars w _ _ _ _ _
      refine Does.pure fun _ => ⟨[], ?_, ?_⟩
      · rw [List.take_zero]
        exact .nil
      · rw [Nat.zero_mul]
        rfl
  | succ k ih =>
      rintro i (_ | ⟨str, pars⟩) w hX hroom hfit hlength hstr
      · simp at hlength
      have hoffset : i * size % 2 ^ 32 = i * size := Nat.mod_eq_of_lt (hfit 0 (by omega))
      have hcount : (k + 1) * size = size + k * size := by ring
      have hnext : p + (i + 1) * size = p + i * size + size := by ring
      have hfirst : ∀ a ∈ range (p + i * size) size, a ∈ X := fun a ha =>
        hroom a (range_subset le_rfl (by omega) a ha)
      have hrest : ∀ a ∈ range (p + (i + 1) * size) (k * size), a ∈ X := fun a ha =>
        hroom a (range_subset (by omega) (by omega) a ha)
      have helem := parseElement_does (p := p + i * size) halloc hstay hX
        (fun a ha => hX a (hfirst a (hsize ▸ ha))) (hstr · str (by simp))
      rw [hsize] at helem
      rw [parseAryFrom, hsize, hoffset]
      refine (helem.mono fun a ha _ => range_subset le_rfl (by omega) a ha).bind
        fun msg w₁ hw₁ hmsg => ?_
      cases msg with
      | some msg =>
          refine Does.ite (fun _ => ?_) fun _ => Does.pure nofun
          refine (cfPrintf_does halloc _).weaken ?_
          rintro _ w₂ _ hsome rfl
          cases hsome
      | none =>
          have hX₁ : ∀ a ∈ X, w₁.Live a := fun a ha => (hX a ha).mono hw₁.blocks
          have htail := ih (i + 1) pars w₁ hX₁ hrest
            (fun j hj => by rw [Nat.add_assoc]; exact hfit (1 + j) (by omega))
            (by simpa using hlength) fun htype str' hin => hstr htype str' (by simp [hin])
          refine (htail.weaken fun msg' w₂ hw₂ htail hnone => ?_).mono fun a ha _ =>
            Or.inl (range_subset (by omega) (by omega) a ha)
          obtain ⟨elems, hall, hread⟩ := htail hnone
          have hkept : Reserved (range (p + (i + 1) * size) (k * size)) w₁ (p + i * size) size :=
            fun a ha => ⟨hX₁ a (hfirst a ha), fun hin => by
              have hlow := hin.1
              have hhigh := ha.2
              omega⟩
          refine ⟨read w₁.heap.mem (p + i * size) size :: elems, ?_, ?_⟩
          · rw [List.take_succ_cons, List.map_cons]
            have hparsed := (hmsg rfl).leaves hw₂ fun a ha _ => hrest a ha
            exact .cons ⟨by rw [read_length, hsize], hparsed⟩ hall
          · rw [hcount, read_append, hkept.read hw₂, List.flatten_cons, ← hread, hnext]

/-- All elements of an array are parsed. -/
theorem cfParseAry_does (halloc : env.alloc.HandsOutFresh align) (hstay : env.ParsersStay)
    {k : Nat} {pars : List CStr} (hX : ∀ a ∈ X, w.Live a)
    (hroom : ∀ a ∈ range p (k * cfTypeSize env type), a ∈ X)
    (hfit : (k - 1) * cfTypeSize env type < 2 ^ 32) (hlength : k ≤ pars.length)
    (hstr : type = .string → ∀ str ∈ pars.take k, str.length + 1 < 2 ^ 32) :
    Does (range p (k * cfTypeSize env type)) w (cfParseAry env k pars p type) fun msg w' =>
      msg = none →
        ∃ elems, List.Forall₂ (Shows env X w' type) ((pars.take k).map .word) elems ∧
          read w'.heap.mem p (k * cfTypeSize env type) = elems.flatten := by
  have hoffset : ∀ j < k, (0 + j) * cfTypeSize env type < 2 ^ 32 := by
    intro j hj
    exact lt_of_le_of_lt (Nat.mul_le_mul_right _ (by omega)) hfit
  have hparse := parseAryFrom_does (p := p) halloc hstay k k 0 pars w hX
    (by rwa [Nat.zero_mul]) hoffset hlength hstr
  rwa [Nat.zero_mul] at hparse

end Elements

/-! ## Arrays -/

/-- `GARY_SIZE` of the array that a variable points to. -/
def arraySize (w : World) (var : Nat) : Nat :=
  if load w.heap.mem var 8 = 0 then 0 else load w.heap.mem (load w.heap.mem var 8 - garyHdrSize) 8

/-- The elements of an array whose header is at `h`. -/
structure IsArray (env : Env) (type : CfType) (var : Nat) (w : World) (h : Nat) (xs : List Source) :
    Prop where
  reserved : Reserved (range var 8) w h (garyHdrSize + xs.length * cfTypeSize env type)
  elts_eq : load w.heap.mem h 8 = xs.length
  elements : ∃ elems, List.Forall₂ (Shows env (range var 8) w type) xs elems ∧
    read w.heap.mem (h + garyHdrSize) (xs.length * cfTypeSize env type) = elems.flatten

/-- The variable points to an array of the given elements, or to none. -/
def Holds (env : Env) (type : CfType) (var : Nat) (w : World) (xs : List Source) : Prop :=
  load w.heap.mem var 8 = 0 ∧ xs = [] ∨
    ∃ h, load w.heap.mem var 8 = h + garyHdrSize ∧ IsArray env type var w h xs

/-- The variable, and the array that is forever empty. -/
structure HasVariable (env : Env) (var : Nat) (w : World) : Prop where
  var_live : ∀ a ∈ range var 8, w.Live a
  empty : Reserved (range var 8) w env.garyEmptyHdr garyHdrSize
  empty_elts : load w.heap.mem env.garyEmptyHdr 8 = 0
  empty_bound : env.garyEmptyHdr + garyHdrSize < 2 ^ 64

/-- The variable points to a new array with room for `n` elements. -/
structure Pointed (env : Env) (type : CfType) (var : Nat) (w : World) (h n : Nat) : Prop where
  var_live : ∀ a ∈ range var 8, w.Live a
  pointer : load w.heap.mem var 8 = (h + garyHdrSize) % 2 ^ 64
  reserved : Reserved (range var 8) w h (garyHdrSize + n * cfTypeSize env type)
  bound : h + (garyHdrSize + n * cfTypeSize env type) ≤ 2 ^ 64
  elts_eq : load w.heap.mem h 8 = n

section Arrays

variable {env : Env} {align : Nat} {type : CfType} {V : Set Nat} {w w' : World} {var h n : Nat}
  {xs : List Source}

theorem HasVariable.leaves (hr : HasVariable env var w) (hw : Leaves (range var 8) w w') :
    HasVariable env var w' where
  var_live := fun a ha => (hr.var_live a ha).mono hw.blocks
  empty := hr.empty.leaves hw
  empty_elts := by
    have hhdr : Reserved (range var 8) w env.garyEmptyHdr 8 := hr.empty.mono le_rfl (by
      rw [garyHdrSize]
      omega)
    rw [hhdr.load hw]
    exact hr.empty_elts
  empty_bound := hr.empty_bound

/-- The elements of the array that a variable points to, also where it points to none. -/
theorem Holds.elements (hs : Holds env type var w xs) :
    ∃ elems, List.Forall₂ (Shows env (range var 8) w type) xs elems ∧
      read w.heap.mem (load w.heap.mem var 8) (xs.length * cfTypeSize env type) = elems.flatten ∧
      Reserved (range var 8) w (load w.heap.mem var 8) (xs.length * cfTypeSize env type) := by
  rcases hs with ⟨_, rfl⟩ | ⟨h, hptr, ha⟩
  · refine ⟨[], .nil, ?_, fun a ha => ?_⟩
    · rw [List.length_nil, Nat.zero_mul]
      rfl
    · rw [List.length_nil, Nat.zero_mul] at ha
      have hlow := ha.1
      have hhigh := ha.2
      omega
  · obtain ⟨elems, hall, hread⟩ := ha.elements
    rw [hptr]
    exact ⟨elems, hall, hread, ha.reserved.mono (by omega) (by omega)⟩

theorem Holds.arraySize_eq (hs : Holds env type var w xs) : arraySize w var = xs.length := by
  rcases hs with ⟨hnull, rfl⟩ | ⟨h, hptr, ha⟩
  · rw [arraySize, if_pos hnull]
    rfl
  · rw [arraySize, hptr, if_neg (by rw [garyHdrSize]; omega), Nat.add_sub_cancel]
    exact ha.elts_eq

/-- Only the room for the elements is written. -/
theorem Pointed.leaves (hp : Pointed env type var w h n) (hw : Leaves V w w')
    (hV : ∀ a ∈ V, w.Live a → a ∈ range (h + garyHdrSize) (n * cfTypeSize env type)) :
    Pointed env type var w' h n := by
  have hhdr : garyHdrSize = 32 := rfl
  have hvar : Reserved V w var 8 := fun a ha => ⟨hp.var_live a ha, fun hin =>
    (hp.reserved a (range_subset (by omega) (by omega) a
      (hV a hin (hp.var_live a ha)))).2 ha⟩
  have helts : Reserved V w h 8 := fun a ha =>
    have hlive := (hp.reserved a (range_subset le_rfl (by omega) a ha)).1
    ⟨hlive, fun hin => by
      have hlow := (hV a hin hlive).1
      have hhigh := ha.2
      omega⟩
  refine ⟨fun a ha => (hp.var_live a ha).mono hw.blocks, ?_, hp.reserved.leaves hw, hp.bound, ?_⟩
  · rw [hvar.load hw]
    exact hp.pointer
  · rw [helts.load hw]
    exact hp.elts_eq

/-- A new array has the elements that were written there. An array without elements may end where
the memory ends, and then it is none. -/
theorem Pointed.holds (hp : Pointed env type var w h xs.length) (hsize : 0 < cfTypeSize env type)
    {elems : List (List Byte)} (hall : List.Forall₂ (Shows env (range var 8) w type) xs elems)
    (hread : read w.heap.mem (h + garyHdrSize) (xs.length * cfTypeSize env type) = elems.flatten) :
    Holds env type var w xs := by
  have hbound := hp.bound
  by_cases hend : h + garyHdrSize = 2 ^ 64
  · have hnone : xs.length * cfTypeSize env type = 0 := by omega
    refine Or.inl ⟨?_, ?_⟩
    · rw [hp.pointer, hend, Nat.mod_self]
    · exact List.length_eq_zero_iff.mp ((Nat.mul_eq_zero.mp hnone).resolve_right (by omega))
  · refine Or.inr ⟨h, ?_, hp.reserved, hp.elts_eq, elems, hall, hread⟩
    rw [hp.pointer, Nat.mod_eq_of_lt (by omega)]

theorem Pointed.arraySize_eq (hp : Pointed env type var w h n) (hsize : 0 < cfTypeSize env type) :
    arraySize w var = n := by
  have hbound := hp.bound
  have hhdr : garyHdrSize = 32 := rfl
  rw [arraySize, hp.pointer]
  by_cases hend : h + garyHdrSize = 2 ^ 64
  · have hnone : n * cfTypeSize env type = 0 := by omega
    rw [hend, if_pos (Nat.mod_self _)]
    exact ((Nat.mul_eq_zero.mp hnone).resolve_right (by omega)).symm
  · rw [Nat.mod_eq_of_lt (by omega), if_neg (by omega), Nat.add_sub_cancel]
    exact hp.elts_eq

/-- A new array: memory that was not in use, with the number of elements in front. -/
theorem garyInit_does (halloc : env.alloc.HandsOutFresh align) (size : Nat) {elts : Nat}
    (helts : elts < 2 ^ 64) :
    Does V w (garyInit env size elts) fun p w' => ∃ h, p = h + garyHdrSize ∧
      Allocated w w' h (garyHdrSize + elts * size) ∧ load w'.heap.mem h 8 = elts := by
  have hhdr : garyHdrSize = 32 := rfl
  unfold garyInit
  refine (memAlloc_does halloc _).bind fun h w₁ _ hh => ?_
  have hfield (k : Nat) (hk : k + 8 ≤ 32) : ∀ a ∈ range (h + k) 8, a ∈ V ∪ w.spare := fun a ha =>
    Or.inr (hh.fresh a (range_subset (by omega) (by omega) a ha)).1
  have hmore {U : Set Nat} {v : World} {k : Nat} (hk : ∀ a ∈ range (h + k) 8, a ∈ U) :
      ∀ a ∈ range (h + k) 8, a ∈ U ∪ v.spare := fun a ha => Or.inl (hk a ha)
  refine (storeAt_does _ (hfield 0 (by omega))).bind fun _ w₂ hw₂ hm₂ => ?_
  refine (storeAt_does _ (hmore (hfield 8 (by omega)))).bind fun _ w₃ hw₃ hm₃ => ?_
  refine (storeAt_does _ (hmore (hmore (hfield 16 (by omega))))).bind fun _ w₄ hw₄ hm₄ => ?_
  refine (storeAt_does _ (hmore (hmore (hmore (hfield 24 (by omega)))))).bind fun _ w₅ hw₅ hm₅ =>
    Does.pure ⟨h, rfl, ⟨fun a ha => ?_, ?_⟩, ?_⟩
  · rw [Nat.mul_comm] at ha
    refine ⟨(hh.fresh a ha).1, ((hh.fresh a ha).2.mono fun b hb => ?_)⟩
    exact hw₅.blocks (hw₄.blocks (hw₃.blocks (hw₂.blocks hb)))
  · rw [Nat.mul_comm]
    exact hh.bound
  · have hapart (m : Mem) (k v : Nat) (hk : 8 ≤ k) : load (store m (h + k) 8 v) h 8 = load m h 8 :=
      load_store_apart (by unfold Apart; omega)
    rw [hm₅, hapart _ 24 _ (by omega), hm₄, hapart _ 16 _ (by omega), hm₃, hapart _ 8 _ (by omega),
      hm₂, Nat.add_zero, load_store_same]
    exact Nat.mod_eq_of_lt helts

/-- The variable is made to point to a new array. -/
theorem pointTo_does (hvar : ∀ a ∈ range var 8, w.Live a)
    (hroom : ∀ a ∈ range h (garyHdrSize + n * cfTypeSize env type), w.Live a ∧ a ∉ range var 8)
    (hbound : h + (garyHdrSize + n * cfTypeSize env type) ≤ 2 ^ 64)
    (helts : load w.heap.mem h 8 = n) :
    Does (range var 8) w (storeAt var 8 (h + garyHdrSize)) fun _ w' =>
      Pointed env type var w' h n := by
  have hhdr : garyHdrSize = 32 := rfl
  refine (storeAt_does _ fun a ha => ha).weaken fun _ w' hw' hmem => ?_
  have hreserved : Reserved (range var 8) w h (garyHdrSize + n * cfTypeSize env type) := hroom
  refine ⟨fun a ha => (hvar a ha).mono hw'.blocks, ?_, hreserved.leaves hw', hbound, ?_⟩
  · rw [hmem, load_store_same]
    rfl
  · have hfield : Reserved (range var 8) w h 8 := hreserved.mono le_rfl (by omega)
    rw [hfield.load hw']
    exact helts

end Arrays

/-! ## Operations -/

/-- The operations of the configuration language on arrays. -/
inductive ArrayOperation where
  | set
  | append
  | prepend
  | clear
  | reset
deriving DecidableEq

def ArrayOperation.op : ArrayOperation → CfOperation
  | .set => .set
  | .append => .append
  | .prepend => .prepend
  | .clear => .clear
  | .reset => .reset

/-- What an operation with the given new elements makes of a sequence. -/
def ArrayOperation.apply {α : Type} (new old : List α) : ArrayOperation → List α
  | .set => new
  | .append => old ++ new
  | .prepend => new ++ old
  | .clear => []
  | .reset => new

/-- How many words of a line the operation takes for an array of `m` elements that may have `limit`
of them. -/
def ArrayOperation.taken (count limit m : Nat) : ArrayOperation → Nat
  | .set => min count limit
  | .append => min count (limit - m)
  | .prepend => min count (limit - m)
  | .clear => 0
  | .reset => min count limit

/-- The offsets of all elements that the operation copies or parses, and the lengths of the strings
that it copies, are unsigned integers. -/
structure ArrayOperation.Fits (env : Env) (type : CfType) (pars : List CStr) (limit m : Nat)
    (change : ArrayOperation) : Prop where
  parsed : (change.taken pars.length limit m - 1) * cfTypeSize env type < 2 ^ 32
  copied : change = .append ∨ change = .prepend → m * cfTypeSize env type < 2 ^ 32
  moved : change = .prepend →
    m = 0 ∨ change.taken pars.length limit m * cfTypeSize env type < 2 ^ 32
  words : type = .string → ∀ str ∈ pars.take (change.taken pars.length limit m),
    str.length + 1 < 2 ^ 32

section Operations

variable {env : Env} {align : Nat} {type : CfType} {w : World} {var : Nat} {xs : List Source}

/-- What is in use is not spare. -/
theorem Reserved.of_spare {V : Set Nat} {p n : Nat} (h : Reserved V w p n) :
    Reserved (V ∪ w.spare) w p n :=
  fun a ha => ⟨(h a ha).1, fun hin => hin.elim (h a ha).2 fun hspare => hspare (h a ha).1⟩

/-- The new elements are parsed behind, or in front of, the others, and the array is complete. -/
theorem parseRest_does (halloc : env.alloc.HandsOutFresh align) (hstay : env.ParsersStay)
    {h n k q : Nat} {pars : List CStr} (hp : Pointed env type var w h n)
    (hin : h + garyHdrSize ≤ q ∧
      q + k * cfTypeSize env type ≤ h + (garyHdrSize + n * cfTypeSize env type))
    (hfit : (k - 1) * cfTypeSize env type < 2 ^ 32) (hlength : k ≤ pars.length)
    (hstr : type = .string → ∀ str ∈ pars.take k, str.length + 1 < 2 ^ 32) :
    Does (range q (k * cfTypeSize env type)) w (cfParseAry env k pars q type) fun msg w' =>
      Pointed env type var w' h n ∧ (msg = none →
        ∃ elems, List.Forall₂ (Shows env (range var 8) w' type) ((pars.take k).map .word) elems ∧
          read w'.heap.mem q (k * cfTypeSize env type) = elems.flatten) := by
  have hlive : ∀ a ∈ range q (k * cfTypeSize env type), w.Live a := fun a ha =>
    (hp.reserved a (range_subset (by omega) (by omega) a ha)).1
  have hX : ∀ a ∈ range var 8 ∪ range q (k * cfTypeSize env type), w.Live a := fun a ha =>
    ha.elim (hp.var_live a) (hlive a)
  refine (cfParseAry_does halloc hstay hX (fun a ha => Or.inr ha) hfit hlength hstr).weaken
    fun msg w' hw' hparse => ⟨hp.leaves hw' fun a ha _ => ?_, fun hmsg => ?_⟩
  · exact range_subset (by omega) (by omega) a ha
  · obtain ⟨elems, hall, hread⟩ := hparse hmsg
    exact ⟨elems, hall.imp fun x bytes hx => hx.sub fun a _ ha => Or.inl ha, hread⟩

theorem interpretSetDynamic_does (halloc : env.alloc.HandsOutFresh align) (hstay : env.ParsersStay)
    (hvar : ∀ a ∈ range var 8, w.Live a) (hsize : 0 < cfTypeSize env type) {k : Nat}
    {pars : List CStr} (hk : k < 2 ^ 64) (hfit : (k - 1) * cfTypeSize env type < 2 ^ 32)
    (hlength : k ≤ pars.length)
    (hstr : type = .string → ∀ str ∈ pars.take k, str.length + 1 < 2 ^ 32) :
    Does (range var 8) w (interpretSetDynamic env type k pars var) fun msg w' =>
      arraySize w' var = k ∧ (msg = none → Holds env type var w' ((pars.take k).map .word)) := by
  unfold interpretSetDynamic
  refine (cfJournalBlock_does halloc var (by decide)).bind fun _ w₁ hw₁ _ => ?_
  refine (garyInit_does halloc _ hk).bind fun p w₂ hw₂ hinit => ?_
  obtain ⟨h, rfl, hh, helts⟩ := hinit
  have hvar₁ : ∀ a ∈ range var 8, w₁.Live a := fun a ha => (hvar a ha).mono hw₁.blocks
  have hpoint := pointTo_does (fun a ha => (hvar₁ a ha).mono hw₂.blocks)
    (fun a ha => ⟨(hh.fresh a ha).2, fun hin => (hh.fresh a ha).1 (hvar₁ a hin)⟩) hh.bound helts
  refine (hpoint.mono fun a ha _ => Or.inl (Or.inl ha)).bind fun _ w₃ hw₃ hp => ?_
  have hrest := parseRest_does halloc hstay hp ⟨le_rfl, by omega⟩ hfit hlength hstr
  refine (hrest.mono fun a ha _ => ?_).weaken fun msg w₄ _ hdone => ?_
  · -- the elements are in memory that was not in use
    refine Or.inl (Or.inr (hh.fresh a ?_).1)
    exact range_subset (by omega) (by omega) a ha
  · refine ⟨hdone.1.arraySize_eq hsize, fun hmsg => ?_⟩
    obtain ⟨elems, hall, hread⟩ := hdone.2 hmsg
    have hcount : ((pars.take k).map Source.word).length = k := by
      rw [List.length_map, List.length_take]
      omega
    rw [← hcount] at hdone hread
    exact hdone.1.holds hsize hall hread

/-- The old elements are copied, if there are any. -/
theorem copyOld_does {dest d n : Nat} (src : Nat) (hdest : n ≠ 0 → dest = d) :
    Does (range d n) w (memcpy dest src n) fun _ w' =>
      read w'.heap.mem d n = read w.heap.mem src n := by
  by_cases hn : n = 0
  · subst hn
    refine (memcpy_does fun a ha => ?_).weaken fun _ _ _ _ => rfl
    have hlow := ha.1
    have hhigh := ha.2
    omega
  · rw [hdest hn]
    refine (memcpy_does fun a ha => ha).weaken fun _ w' _ hmem => ?_
    have hlength : (read w.heap.mem src n).length = n := read_length _ _ _
    rw [hmem]
    nth_rewrite 2 [← hlength]
    exact read_write_self _ _ _

section Fill

variable {X : Set Nat} {h t oldP : Nat} {pars : List CStr} {elems : List (List Byte)}

/-- The old elements are copied to one part of the new array, and the new ones parsed into the
other. -/
theorem fill_does {dest d q : Nat} (halloc : env.alloc.HandsOutFresh align)
    (hstay : env.ParsersStay) (hp : Pointed env type var w h (xs.length + t))
    (hvar : ∀ a ∈ range var 8, a ∈ X)
    (hroom : ∀ a ∈ range (h + garyHdrSize) ((xs.length + t) * cfTypeSize env type), a ∈ X)
    (hall : List.Forall₂ (Shows env X w type) xs elems)
    (hold : read w.heap.mem oldP (xs.length * cfTypeSize env type) = elems.flatten)
    (hdest : xs.length * cfTypeSize env type ≠ 0 → dest = d)
    (hparts : d = h + garyHdrSize ∧ q = d + xs.length * cfTypeSize env type ∨
      q = h + garyHdrSize ∧ d = q + t * cfTypeSize env type)
    (hfit : (t - 1) * cfTypeSize env type < 2 ^ 32) (hlength : t ≤ pars.length)
    (hstr : type = .string → ∀ str ∈ pars.take t, str.length + 1 < 2 ^ 32) :
    Does (range (h + garyHdrSize) ((xs.length + t) * cfTypeSize env type)) w
      (memcpy dest oldP (xs.length * cfTypeSize env type) >>= fun _ =>
        cfParseAry env t pars q type) fun msg w' =>
        Pointed env type var w' h (xs.length + t) ∧ (msg = none → ∃ news,
          List.Forall₂ (Shows env (range var 8) w' type) xs elems ∧
          List.Forall₂ (Shows env (range var 8) w' type) ((pars.take t).map .word) news ∧
          read w'.heap.mem d (xs.length * cfTypeSize env type) = elems.flatten ∧
          read w'.heap.mem q (t * cfTypeSize env type) = news.flatten) := by
  have hcount : (xs.length + t) * cfTypeSize env type =
      xs.length * cfTypeSize env type + t * cfTypeSize env type := Nat.add_mul _ _ _
  have hcopy := copyOld_does (w := w) oldP hdest
  refine (hcopy.mono fun a ha _ => range_subset (by omega) (by omega) a ha).bind
    fun _ w₁ hw₁ hread => ?_
  have hp₁ := hp.leaves hw₁ fun a ha _ => ha
  have hrest := parseRest_does (q := q) halloc hstay hp₁ ⟨by omega, by omega⟩ hfit hlength hstr
  refine (hrest.weaken fun msg w₂ hw₂ hdone => ⟨hdone.1, fun hmsg => ?_⟩).mono fun a ha _ =>
    Or.inl (range_subset (by omega) (by omega) a ha)
  obtain ⟨news, hnews, hreadNews⟩ := hdone.2 hmsg
  refine ⟨news, hall.imp fun x bytes hx => ?_, hnews, ?_, hreadNews⟩
  · have hx₁ := hx.leaves hw₁ fun a ha _ => hroom a ha
    have hx₂ := hx₁.leaves hw₂ fun a ha _ => hroom a (range_subset (by omega) (by omega) a ha)
    exact hx₂.sub fun a _ ha => hvar a ha
  · have hkept : Reserved (range q (t * cfTypeSize env type)) w₁ d
        (xs.length * cfTypeSize env type) := by
      refine fun a ha => ⟨(hp₁.reserved a (range_subset (by omega) (by omega) a ha)).1,
        fun hin => ?_⟩
      have hlow := hin.1
      have hhigh := hin.2
      have hlow' := ha.1
      have hhigh' := ha.2
      omega
    rw [hkept.read hw₂, hread, hold]

theorem fillDynamic_does (halloc : env.alloc.HandsOutFresh align) (hstay : env.ParsersStay)
    (hp : Pointed env type var w h (xs.length + t)) (hvar : ∀ a ∈ range var 8, a ∈ X)
    (hroom : ∀ a ∈ range (h + garyHdrSize) ((xs.length + t) * cfTypeSize env type), a ∈ X)
    (hall : List.Forall₂ (Shows env X w type) xs elems)
    (hold : read w.heap.mem oldP (xs.length * cfTypeSize env type) = elems.flatten)
    (hcopied : xs.length * cfTypeSize env type < 2 ^ 32) {change : ArrayOperation}
    (hchange : change = .append ∨ change = .prepend)
    (hmoved : change = .prepend → xs.length = 0 ∨ t * cfTypeSize env type < 2 ^ 32)
    (hfit : (t - 1) * cfTypeSize env type < 2 ^ 32) (hlength : t ≤ pars.length)
    (hstr : type = .string → ∀ str ∈ pars.take t, str.length + 1 < 2 ^ 32) :
    Does (range (h + garyHdrSize) ((xs.length + t) * cfTypeSize env type)) w
      (fillDynamic env type t pars oldP xs.length (h + garyHdrSize) change.op) fun msg w' =>
        Pointed env type var w' h (xs.length + t) ∧ (msg = none → ∃ elems',
          List.Forall₂ (Shows env (range var 8) w' type)
            (change.apply ((pars.take t).map .word) xs) elems' ∧
          read w'.heap.mem (h + garyHdrSize) ((xs.length + t) * cfTypeSize env type) =
            elems'.flatten) := by
  have hcount : (xs.length + t) * cfTypeSize env type =
      xs.length * cfTypeSize env type + t * cfTypeSize env type := Nat.add_mul _ _ _
  unfold fillDynamic
  dsimp only
  rw [Nat.mod_eq_of_lt hcopied, Int.toNat_natCast, hcount]
  rcases hchange with rfl | rfl
  · rw [ArrayOperation.op, if_pos rfl, if_neg (by omega)]
    refine (fill_does halloc hstay hp hvar hroom hall hold (fun _ => rfl) (.inl ⟨rfl, rfl⟩) hfit
      hlength hstr |>.mono fun a ha _ => hcount ▸ ha).weaken fun msg w' _ hdone =>
        ⟨hdone.1, fun hmsg => ?_⟩
    obtain ⟨news, hxs, hnews, hread, hreadNews⟩ := hdone.2 hmsg
    refine ⟨elems ++ news, List.rel_append hxs hnews, ?_⟩
    rw [read_append, hread, hreadNews, List.flatten_append]
  · rw [ArrayOperation.op, if_neg (by decide), if_pos rfl, if_neg (by omega)]
    have hdest : xs.length * cfTypeSize env type ≠ 0 →
        h + garyHdrSize + t * cfTypeSize env type % 2 ^ 32 =
          h + garyHdrSize + t * cfTypeSize env type := by
      intro hsome
      rcases hmoved rfl with hnone | hmoved
      · rw [hnone, Nat.zero_mul] at hsome
        exact absurd rfl hsome
      · rw [Nat.mod_eq_of_lt hmoved]
    refine (fill_does halloc hstay hp hvar hroom hall hold hdest (.inr ⟨rfl, rfl⟩) hfit
      hlength hstr |>.mono fun a ha _ => hcount ▸ ha).weaken fun msg w' _ hdone =>
        ⟨hdone.1, fun hmsg => ?_⟩
    obtain ⟨news, hxs, hnews, hread, hreadNews⟩ := hdone.2 hmsg
    refine ⟨news ++ elems, List.rel_append hnews hxs, ?_⟩
    rw [Nat.add_comm (xs.length * _), read_append, hread, hreadNews, List.flatten_append]

end Fill

-- A word that a condition compares with zero is not unfolded into its bytes.
attribute [local irreducible] load

/-- Elements are added to those that the variable holds. -/
theorem interpretAddDynamic_does (halloc : env.alloc.HandsOutFresh align) (hstay : env.ParsersStay)
    {item : CfItem} (hvar : ∀ a ∈ range var 8, w.Live a) (hsize : 4 ≤ cfTypeSize env type)
    (hs : Holds env type var w xs) (hlimit : item.number.natAbs < 2 ^ 31)
    (hfits : xs.length ≤ item.number.natAbs) {pars : List CStr} (change : ArrayOperation)
    (hchange : change = .append ∨ change = .prepend) {t : Nat}
    (ht : t = min pars.length (item.number.natAbs - xs.length))
    (hcopied : xs.length * cfTypeSize env type < 2 ^ 32)
    (hmoved : change = .prepend → xs.length = 0 ∨ t * cfTypeSize env type < 2 ^ 32)
    (hfit : (t - 1) * cfTypeSize env type < 2 ^ 32)
    (hstr : type = .string → ∀ str ∈ pars.take t, str.length + 1 < 2 ^ 32) :
    Does (range var 8) w
      (interpretAddDynamic env item type pars.length pars var change.op) fun r w' =>
        r.2 = t ∧ arraySize w' var = xs.length + t ∧
          (r.1 = none → Holds env type var w' (change.apply ((pars.take t).map .word) xs)) := by
  obtain ⟨elems, hall, hold, hreserved⟩ := hs.elements
  have hlen := hs.arraySize_eq
  unfold interpretAddDynamic
  refine Does.load ?_
  rw [if_neg (by omega)]
  refine Does.load ?_
  dsimp only
  have htaken : addDynamicTaken item pars.length xs.length = (t : Int) := by
    rw [addDynamicTaken, ht]
    omega
  have hsum : ((xs.length : Int) + t).toNat = xs.length + t := by omega
  unfold arraySize at hlen
  rw [hlen, if_neg (by omega), htaken, hsum]
  refine (garyInit_does halloc _ (by omega)).bind fun p w₁ hw₁ hinit => ?_
  obtain ⟨h, rfl, hh, helts⟩ := hinit
  refine ((cfJournalBlock_does (V := ∅) halloc var (by decide)).framed nofun).bind
    fun _ w₂ _ hw₂ => ?_
  have hw₂ := hw₂.1
  have hblock : Reserved ∅ w₁ h 8 := fun a ha =>
    ⟨(hh.fresh a (range_subset le_rfl (by rw [garyHdrSize]; omega) a ha)).2, Set.notMem_empty a⟩
  have hpoint := pointTo_does (n := xs.length + t)
    (fun a ha => ((hvar a ha).mono hw₁.blocks).mono hw₂.blocks)
    (fun a ha => ⟨(hh.fresh a ha).2.mono hw₂.blocks, fun hin => (hh.fresh a ha).1 (hvar a hin)⟩)
    hh.bound ((hblock.load hw₂).trans helts)
  refine (hpoint.mono fun a ha _ => ?_).bind fun _ w₃ hw₃ hp => ?_
  · exact Or.inl (Or.inl ha)
  -- up to here only the variable and memory that was not in use have changed
  have hw : Leaves (range var 8 ∪ w.spare) w w₃ := by
    refine ((hw₁.trans (hw₂.mono nofun)).trans (hw₃.mono fun a ha _ => ?_)).mono fun a ha _ =>
      Or.inl ha
    exact ha.elim id fun hspare => Or.inr (spare_of_spare hw₁.blocks hspare)
  have hroom : ∀ a ∈ range (h + garyHdrSize) ((xs.length + t) * cfTypeSize env type),
      a ∈ range var 8 ∪ w.spare := fun a ha =>
    Or.inr (hh.fresh a (range_subset (by omega) (by omega) a ha)).1
  have hfill := fillDynamic_does halloc hstay hp (fun a ha => Or.inl ha) hroom
    (hall.imp fun x bytes hx => (hx.sub fun a ha hin => hin.resolve_right (not_not.mpr ha)).leaves hw
      fun a ha _ => ha)
    ((hreserved.of_spare.read hw).trans hold) hcopied hchange hmoved hfit (by omega) hstr
  refine Does.bind (hfill.mono fun a ha _ => ?_) fun msg w₄ _ hdone => Does.pure ⟨rfl, ?_, ?_⟩
  · exact Or.inl (Or.inl (hroom a ha))
  · exact hdone.1.arraySize_eq (by omega)
  · intro hmsg
    obtain ⟨elems', hall', hread'⟩ := hdone.2 hmsg
    have hcount : (change.apply ((pars.take t).map Source.word) xs).length = xs.length + t := by
      rcases hchange with rfl | rfl
      · simp [ArrayOperation.apply]
        omega
      · simp [ArrayOperation.apply]
        omega
    rw [← hcount] at hdone hread'
    exact hdone.1.holds (by omega) hall' hread'

/-- The variable is made to point to the array that is forever empty. -/
theorem clearDynamic_does (halloc : env.alloc.HandsOutFresh align) {item : CfItem}
    (hcls : item.cls = .dynamic type) (hv : HasVariable env var w) :
    Does (range var 8) w (interpretSetAll env item var .clear) fun msg w' =>
      msg = none ∧ Holds env type var w' [] := by
  unfold interpretSetAll
  rw [hcls]
  dsimp only
  rw [if_neg (by decide)]
  refine ((cfJournalBlock_does (V := ∅) halloc var (by decide)).framed nofun).bind
    fun _ w₁ _ hw₁ => ?_
  have hv₁ := hv.leaves (hw₁.1.mono nofun)
  refine ((storeAt_does _ fun a ha => ha).framed fun a ha _ => Or.inl ha).bind fun _ w₂ _ hw₂ => ?_
  have hv₂ := hv₁.leaves hw₂.1
  refine Does.pure ⟨rfl, Or.inr ⟨env.garyEmptyHdr, ?_, ?_, hv₂.empty_elts, [], .nil, ?_⟩⟩
  · rw [hw₂.2, load_store_same]
    exact Nat.mod_eq_of_lt hv.empty_bound
  · rw [List.length_nil, Nat.zero_mul]
    exact hv₂.empty
  · rw [List.length_nil, Nat.zero_mul]
    rfl

/-- An operation of a line makes of the array what it says, if it takes all words of the line. -/
theorem interpretOperation_does (halloc : env.alloc.HandsOutFresh align) (hstay : env.ParsersStay)
    (hfuel : 0 < env.fuel) (name : CStr) {found : Found} (hcls : found.item.cls = .dynamic type)
    (hsize : 4 ≤ cfTypeSize env type) (hlimit : found.item.number.natAbs < 2 ^ 31)
    (hv : HasVariable env found.ptr w) (hs : Holds env type found.ptr w xs)
    (hroom : xs.length ≤ found.item.number.natAbs) {change : ArrayOperation} {pars : List CStr}
    (hfits : change.Fits env type pars found.item.number.natAbs xs.length) :
    Does (range found.ptr 8) w (interpretOperation env name change.op found pars.length pars)
      fun r w' => r.2 = change.taken pars.length found.item.number.natAbs xs.length ∧
        arraySize w' found.ptr ≤ found.item.number.natAbs ∧
        (r.1 = none → Holds env type found.ptr w' (change.apply ((pars.take
          (change.taken pars.length found.item.number.natAbs xs.length)).map .word) xs)) := by
  have hadd (op : CfOperation) : interpretAdd env name found.item pars.length pars found.ptr op =
      interpretAddDynamic env found.item type pars.length pars found.ptr op := by
    unfold interpretAdd
    rw [hcls]
  cases change with
  | set =>
      obtain ⟨fuel, hsucc⟩ := Nat.exists_eq_add_one.mpr hfuel
      change Does _ w (interpretSetItem env env.fuel found.item pars.length pars found.ptr true) _
      rw [hsucc, interpretSetItem, hcls]
      dsimp only
      rw [if_pos rfl]
      have htaken : (min (pars.length : Int) found.item.number.natAbs).toNat =
          min pars.length found.item.number.natAbs := by omega
      rw [htaken]
      have hset := interpretSetDynamic_does halloc hstay hv.var_live (by omega)
        (k := min pars.length found.item.number.natAbs) (by omega) hfits.parsed (by omega)
        hfits.words
      refine hset.bind fun msg w₁ _ hdone => Does.pure ⟨?_, ?_, hdone.2⟩
      · rw [ArrayOperation.taken]
        omega
      · rw [hdone.1]
        exact min_le_right _ _
  | append =>
      change Does _ w (interpretAdd env name found.item pars.length pars found.ptr .append) _
      rw [hadd]
      refine (interpretAddDynamic_does halloc hstay hv.var_live hsize hs hlimit hroom .append
        (.inl rfl) rfl (hfits.copied (.inl rfl)) nofun hfits.parsed hfits.words).weaken
        fun r w' _ hdone => ⟨hdone.1, ?_, hdone.2.2⟩
      rw [hdone.2.1]
      omega
  | prepend =>
      change Does _ w (interpretAdd env name found.item pars.length pars found.ptr .prepend) _
      rw [hadd]
      refine (interpretAddDynamic_does halloc hstay hv.var_live hsize hs hlimit hroom .prepend
        (.inr rfl) rfl (hfits.copied (.inr rfl)) hfits.moved hfits.parsed
        hfits.words).weaken fun r w' _ hdone => ⟨hdone.1, ?_, hdone.2.2⟩
      rw [hdone.2.1]
      omega
  | clear =>
      change Does _ w (interpretSetAll env found.item found.ptr .clear >>= fun msg =>
        pure (msg, 0)) _
      refine (clearDynamic_does halloc hcls hv).bind fun msg w₁ _ hdone =>
        Does.pure ⟨rfl, ?_, fun _ => hdone.2⟩
      rw [hdone.2.arraySize_eq]
      exact Nat.zero_le _
  | reset =>
      rw [ArrayOperation.op, interpretOperation]
      refine ((clearDynamic_does halloc hcls hv).framed fun a ha _ => ha).bind
        fun msg w₁ _ hdone => ?_
      obtain ⟨hw₁, rfl, hempty⟩ := hdone
      dsimp only
      rw [hadd]
      have happend := interpretAddDynamic_does halloc hstay (hv.leaves hw₁).var_live hsize hempty
        hlimit (Nat.zero_le _) .append (.inl rfl) rfl
        (by rw [List.length_nil, Nat.zero_mul]; decide) nofun hfits.parsed hfits.words
      refine (happend.weaken fun r w' _ hdone => ⟨hdone.1, ?_, hdone.2.2⟩).mono fun a ha _ =>
        Or.inl ha
      rw [hdone.2.1, List.length_nil]
      omega

end Operations

end OpenAAA.Opt
