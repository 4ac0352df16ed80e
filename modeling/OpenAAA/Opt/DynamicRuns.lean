import OpenAAA.Opt.Dynamic
import OpenAAA.Opt.Texts
import OpenAAA.Opt.Units

/-!
Sequences of lines on one dynamic array. As long as all offsets and lengths are unsigned
integers, the array is after each line the sequence that the operations make of the one
at the start.
-/

namespace OpenAAA.Opt

open Memory Alloc Hoare

/-! ## Lines -/

/-- A line of a configuration that works on an array. -/
structure ArrayLine where
  name : CStr
  change : ArrayOperation
  pars : List CStr

/-- What the line makes of a sequence. -/
def ArrayLine.apply (line : ArrayLine) (xs : List Source) : List Source :=
  line.change.apply (line.pars.map .word) xs

def ArrayLine.run (env : Env) (line : ArrayLine) : Cf Msg :=
  cfInterpretLine env line.name line.change.op false line.pars

/-- The name leads to an item. -/
def Names (env : Env) (item : CfItem) (var : Nat) (name : CStr) (w : World) : Prop :=
  ∃ found w', findItem env w.cc.top.sec name w.cc.top.basePtr w = .ok ((none, some found), w') ∧
    found.item = item ∧ found.ptr = var

/-- The array is the given sequence, and not too long. -/
structure ArraySound (env : Env) (item : CfItem) (type : CfType) (var : Nat) (w : World)
    (xs : List Source) : Prop where
  holds : Holds env type var w xs
  size_eq : arraySize w var = xs.length
  size_le : xs.length ≤ item.number.natAbs

/-- A line leaves alone whatever was in use, such as the array from before it, except the variable.
It never makes the array too long, and it is an error if it would. -/
structure LineSound (item : CfItem) (var : Nat) (line : ArrayLine) (w : World) (xs : List Source)
    (msg : Msg) (w' : World) : Prop where
  untouched : ∀ a, w.Live a → a ∉ range var 8 → w'.heap.mem a = w.heap.mem a
  size_le : arraySize w' var ≤ item.number.natAbs
  rejected : item.number.natAbs < (line.apply xs).length → msg.isSome

/-- Every line returns, unless the program around the interpreter stops it, and does what it
promises; if it is accepted, the rest goes on with what it makes of the sequence. -/
def SoundLines (env : Env) (item : CfItem) (type : CfType) (var : Nat) :
    List ArrayLine → World → List Source → Prop
  | [], w, xs => ArraySound env item type var w xs
  | line :: lines, w, xs => ArraySound env item type var w xs ∧
      Triple Excused (· = w) (line.run env) fun msg w' =>
        LineSound item var line w xs msg w' ∧
          (msg = none → SoundLines env item type var lines w' (line.apply xs))

/-- Every line is about the item, and no offset or length that it computes goes over the range of
an unsigned integer. -/
def EachFits (env : Env) (item : CfItem) (type : CfType) (var : Nat) :
    List ArrayLine → World → List Source → Prop
  | [], _, _ => True
  | line :: lines, w, xs => Names env item var line.name w ∧
      line.change.Fits env type line.pars item.number.natAbs xs.length ∧
      ∀ w', line.run env w = .ok (none, w') →
        EachFits env item type var lines w' (line.apply xs)

section Lines

variable {env : Env} {align : Nat} {item : CfItem} {type : CfType} {var : Nat} {w w' : World}
  {xs : List Source}

/-- Nothing that was in use changes. -/
theorem Holds.leaves (hs : Holds env type var w xs) (hv : HasVariable env var w)
    (hw : Leaves ∅ w w') : Holds env type var w' xs := by
  have hvar : Reserved ∅ w var 8 := fun a ha => ⟨hv.var_live a ha, Set.notMem_empty a⟩
  rcases hs with ⟨hnull, hxs⟩ | ⟨h, hptr, ha⟩
  · exact Or.inl ⟨(hvar.load hw).trans hnull, hxs⟩
  · have hblock : Reserved ∅ w h (garyHdrSize + xs.length * cfTypeSize env type) :=
      ha.reserved.sub fun _ => False.elim
    have helts : Reserved ∅ w h 8 := hblock.mono le_rfl (by rw [garyHdrSize]; omega)
    have hbody : Reserved ∅ w (h + garyHdrSize) (xs.length * cfTypeSize env type) :=
      hblock.mono (by omega) (by omega)
    obtain ⟨elems, hall, hread⟩ := ha.elements
    refine Or.inr ⟨h, (hvar.load hw).trans hptr, ha.reserved.leaves hw,
      (helts.load hw).trans ha.elts_eq, elems, ?_, (hbody.read hw).trans hread⟩
    exact hall.imp fun x bytes hx => hx.leaves hw fun a ha => absurd ha (Set.notMem_empty a)

theorem findPath_does (halloc : env.alloc.HandsOutFresh align) (parts : List CStr) :
    ∀ (sec ptr : Nat) (w : World), Does ∅ w (findPath env sec ptr parts) fun _ _ => True := by
  induction parts with
  | nil => exact fun _ _ _ => Does.pure trivial
  | cons name parts ih =>
      intro sec ptr w
      unfold findPath
      have hdirty : Does ∅ w (whenSet (sec ≠ env.root) (cfAddDirtyTo sec ptr)) fun _ _ => True :=
        Does.whenSet fun _ => (Does.modify rfl).weaken fun _ _ _ _ => trivial
      refine hdirty.bind fun _ w₁ _ _ => ?_
      have hmessage (text : String) (v : World) : Does ∅ v
          (cfPrintf env text >>= fun msg => pure ((msg, none) : Msg × Option Found))
          fun _ _ => True :=
        (cfPrintf_does halloc text).bind fun _ _ _ _ => Does.pure trivial
      refine Does.mono (V := ∅) ?_ nofun
      cases cfFindSubitem env sec name with
      | none => exact Does.ite (fun _ => Does.pure trivial) fun _ => hmessage _ _
      | some found =>
          refine Does.ite (fun _ => Does.pure trivial) fun _ => ?_
          split
          · exact ih _ _ _
          · exact hmessage _ _

theorem findItem_does (halloc : env.alloc.HandsOutFresh align) (sec : Option Nat) (name : CStr)
    (ptr : Nat) : Does ∅ w (findItem env sec name ptr) fun _ _ => True := by
  have hfrom : ∀ sec name, Does ∅ w (findItem.findFrom env ptr sec name) fun _ _ => True := by
    intro sec name
    cases sec with
    | none => exact Does.pure trivial
    | some sec => exact findPath_does halloc _ _ _ _
  cases name with
  | nil => exact hfrom sec []
  | cons b rest => exact Does.ite (fun _ => findPath_does halloc _ _ _ _) fun _ => hfrom _ _

/-- An array cannot select nodes of a list. -/
theorem trySelector_does (st : ItemStack) {found : Found} (hcls : found.item.cls = .dynamic type) :
    Does ∅ w (trySelector st (some found)) fun _ _ => True := by
  refine Does.ite (fun _ => ?_) fun _ => Does.pure trivial
  unfold recordSelector
  dsimp only
  rw [hcls]
  exact Does.ite (fun _ => Does.ite (fun _ => Does.pure trivial) fun _ => Does.pure trivial)
    fun _ => Does.pure trivial

/-- Where all words are taken, the array does not get too long. -/
theorem ArrayOperation.length_apply_le {α : Type} {new old : List α} {limit : Nat}
    (hold : old.length ≤ limit) (change : ArrayOperation)
    (hall : new.length ≤ change.taken new.length limit old.length) :
    (change.apply new old).length ≤ limit := by
  cases change with
  | set =>
      rw [taken] at hall
      rw [apply]
      omega
  | append =>
      rw [taken] at hall
      rw [apply, List.length_append]
      omega
  | prepend =>
      rw [taken] at hall
      rw [apply, List.length_append]
      omega
  | clear => exact Nat.zero_le _
  | reset =>
      rw [taken] at hall
      rw [apply]
      omega

/-- What a line does to an array. -/
theorem line_does (halloc : env.alloc.HandsOutFresh align) (hstay : env.ParsersStay)
    (hfuel : 0 < env.fuel) (hcls : item.cls = .dynamic type) (hsize : 4 ≤ cfTypeSize env type)
    (hlimit : item.number.natAbs < 2 ^ 31) (hv : HasVariable env var w)
    (hs : Holds env type var w xs) (hroom : xs.length ≤ item.number.natAbs) (line : ArrayLine)
    (hname : Names env item var line.name w)
    (hfits : line.change.Fits env type line.pars item.number.natAbs xs.length) :
    Does (range var 8) w (line.run env) fun msg w' => arraySize w' var ≤ item.number.natAbs ∧
      (msg = none → Holds env type var w' (line.apply xs) ∧
        (line.apply xs).length ≤ item.number.natAbs) := by
  obtain ⟨found, w', hfind, rfl, rfl⟩ := hname
  unfold ArrayLine.run cfInterpretLine
  dsimp only
  rw [if_neg (by cases line.change <;> decide)]
  refine Does.withState ?_
  refine ((findItem_does halloc w.cc.top.sec line.name w.cc.top.basePtr).with_eq.framed nofun).bind
    fun result w₁ _ hresult => ?_
  obtain ⟨hw₁, heq, _⟩ := hresult
  rw [hfind] at heq
  cases heq
  dsimp only
  have hv₁ := hv.leaves (hw₁.mono nofun)
  have hs₁ := hs.leaves hv hw₁
  refine ((trySelector_does w.cc.top hcls).framed nofun).bind fun msg w₂ _ hselect => ?_
  have hv₂ := hv₁.leaves (hselect.1.mono nofun)
  have hs₂ := hs₁.leaves hv₁ hselect.1
  cases msg with
  | some msg =>
      refine Does.pure ⟨?_, nofun⟩
      rw [hs₂.arraySize_eq]
      exact hroom
  | none =>
      unfold interpretFound
      dsimp only
      rw [if_neg (by decide)]
      have hop := interpretOperation_does halloc hstay hfuel line.name hcls hsize hlimit hv₂ hs₂ hroom
        hfits
      refine (hop.framed fun a ha _ => Or.inl (Or.inl ha)).bind fun result w₃ _ hdone => ?_
      obtain ⟨msg, taken⟩ := result
      obtain ⟨hw₃, htaken, hsound, hholds⟩ := hdone
      dsimp only at htaken hholds ⊢
      cases msg with
      | some msg => exact Does.pure ⟨hsound, nofun⟩
      | none =>
          refine Does.ite (fun _ => ?_) fun hall => Does.pure ⟨hsound, fun _ => ?_⟩
          · refine ((cfPrintf_does (V := ∅) halloc _).framed nofun).weaken
              fun msg w₄ _ hmsg => ⟨?_, ?_⟩
            · have hs₃ := hholds rfl
              have hs₄ := hs₃.leaves (hv₂.leaves hw₃) hmsg.1
              rw [hs₄.arraySize_eq, ← hs₃.arraySize_eq]
              exact hsound
            · rintro rfl
              cases hmsg.2
          · -- all words of the line were taken
            have hcount : line.pars.length ≤
                line.change.taken line.pars.length found.item.number.natAbs xs.length := by omega
            refine ⟨?_, ?_⟩
            · have hwords := hholds rfl
              rw [List.take_of_length_le hcount] at hwords
              exact hwords
            · refine line.change.length_apply_le hroom ?_
              rw [List.length_map]
              exact hcount

/-- A line, and the array that the next one starts from. -/
theorem line_sound (halloc : env.alloc.HandsOutFresh align) (hstay : env.ParsersStay)
    (hfuel : 0 < env.fuel) (hcls : item.cls = .dynamic type) (hsize : 4 ≤ cfTypeSize env type)
    (hlimit : item.number.natAbs < 2 ^ 31) (hv : HasVariable env var w)
    (hs : Holds env type var w xs) (hroom : xs.length ≤ item.number.natAbs) (line : ArrayLine)
    (hname : Names env item var line.name w)
    (hfits : line.change.Fits env type line.pars item.number.natAbs xs.length) :
    Triple Excused (· = w) (line.run env) fun msg w' => line.run env w = .ok (msg, w') ∧
      LineSound item var line w xs msg w' ∧ (msg = none → HasVariable env var w' ∧
        Holds env type var w' (line.apply xs) ∧ (line.apply xs).length ≤ item.number.natAbs) := by
  have hline := line_does halloc hstay hfuel hcls hsize hlimit hv hs hroom line hname hfits
  refine Triple.weaken hline.with_eq fun msg w' hw' => ?_
  obtain ⟨hw, heq, hsound, haccepted⟩ := hw'
  refine ⟨heq, ⟨hw.mem, hsound, fun hlong => ?_⟩, fun hmsg => ⟨hv.leaves hw, haccepted hmsg⟩⟩
  cases msg with
  | some msg => rfl
  | none => exact absurd (haccepted rfl).2 (not_le.mpr hlong)

end Lines

/-- A dynamic array that starts with at most as many elements as the item may have, through any
lines that set, extend, clear or reset it, as long as no offset and no length that a line computes
goes over the range of an unsigned integer: after each accepted line the array is, element by
element, what the operation makes of the one before. -/
theorem dynamic_array_follows_lines (env : Env) (align : Nat)
    (halloc : env.alloc.HandsOutFresh align) (hstay : env.ParsersStay) (hfuel : 0 < env.fuel)
    (item : CfItem) (type : CfType) (hcls : item.cls = .dynamic type)
    (hsize : 4 ≤ cfTypeSize env type) (hnumber : item.number.natAbs < 2 ^ 31) (var : Nat) (w : World)
    (hv : HasVariable env var w) (xs : List Source) (hs : Holds env type var w xs)
    (hroom : xs.length ≤ item.number.natAbs) (lines : List ArrayLine)
    (hlines : EachFits env item type var lines w xs) :
    SoundLines env item type var lines w xs := by
  induction lines generalizing w xs with
  | nil => exact ⟨hs, hs.arraySize_eq, hroom⟩
  | cons line lines ih =>
      obtain ⟨hname, hfits, hrest⟩ := hlines
      refine ⟨⟨hs, hs.arraySize_eq, hroom⟩, ?_⟩
      refine (line_sound halloc hstay hfuel hcls hsize hnumber hv hs hroom line hname hfits).weaken
        fun msg w' hw' => ?_
      obtain ⟨heq, hsound, haccepted⟩ := hw'
      refine ⟨hsound, ?_⟩
      rintro rfl
      obtain ⟨hv', hs', hroom'⟩ := haccepted rfl
      exact ih w' hv' (line.apply xs) hs' hroom' (hrest w' heq)

/-! ## Two small programs -/

/-- A program with one dynamic array `a`, the pointer to which is at `0x1000`. -/
def arrayEnv (type : CfType) (number : Int) : Env :=
  { plainEnv (fun _ => ⟨0, false, false, false, [⟨bytesOf ['a'], number, 0x1000, .dynamic type⟩],
      false, true, false⟩) fun _ => .missing with
    alloc := stride 8 (2 ^ 40) (2 ^ 36)
    parse := fun _ => cfParseInt }

/-- `freshWorld` with room for the header of the empty array, and no array yet. -/
def arrayWorld : World :=
  { freshWorld with heap := { freshWorld.heap with blocks := [(0x1000, 64), (0x8000, 32)] } }

def arrayItem (type : CfType) (number : Int) : CfItem :=
  ⟨bytesOf ['a'], number, 0x1000, .dynamic type⟩

/-- `^a:change pars` -/
def arrayLine (change : ArrayOperation) (pars : List CStr) : ArrayLine :=
  ⟨bytesOf ['^', 'a'], change, pars⟩

theorem arrayWorld_hasVariable (type : CfType) (number : Int) :
    HasVariable (arrayEnv type number) 0x1000 arrayWorld where
  var_live := fun a ha =>
    ⟨(0x1000, 64), List.mem_cons_self, range_subset le_rfl (by decide) a ha⟩
  empty := fun a ha => by
    refine ⟨⟨(0x8000, 32), by simp [arrayWorld], ha⟩, fun hin => ?_⟩
    have hlow : 0x8000 ≤ a := ha.1
    have hhigh := hin.2
    omega
  empty_elts := by
    change load arrayWorld.heap.mem 0x8000 8 = 0
    decide +kernel
  empty_bound := by
    change 0x8000 + garyHdrSize < 2 ^ 64
    decide

theorem arrayWorld_holds (type : CfType) (number : Int) :
    Holds (arrayEnv type number) type 0x1000 arrayWorld [] :=
  Or.inl ⟨by decide +kernel, rfl⟩

theorem arrayLine_names (type : CfType) (number : Int) (w : World) :
    Names (arrayEnv type number) (arrayItem type number) 0x1000 (bytesOf ['^', 'a']) w :=
  ⟨⟨0, 0, arrayItem type number, 0x1000⟩, w, rfl, rfl, rfl⟩

theorem arrayEnv_parsersStay (type : CfType) (number : Int) : (arrayEnv type number).ParsersStay := by
  intro u str p w r hr a _ _
  cases hr
  rfl

/-- All five operations on an array of up to four numbers. -/
def someLines : List ArrayLine :=
  [arrayLine .set [bytesOf ['1'], bytesOf ['2']], arrayLine .append [bytesOf ['3']],
    arrayLine .prepend [bytesOf ['4']], arrayLine .reset [bytesOf ['5']], arrayLine .clear []]

theorem dynamic_array_follows_lines_some :
    SoundLines (arrayEnv .int 4) (arrayItem .int 4) .int 0x1000 someLines arrayWorld [] := by
  have hname := arrayLine_names .int 4
  refine dynamic_array_follows_lines (arrayEnv .int 4) 8 (stride_handsOutFresh _ _ _)
    (arrayEnv_parsersStay _ _) (by decide) (arrayItem .int 4) .int rfl (by decide) (by decide) 0x1000
    arrayWorld (arrayWorld_hasVariable _ _) [] (arrayWorld_holds _ _) (by decide) someLines ?_
  refine ⟨hname _, ⟨by decide, by decide, by decide, nofun⟩, fun _ _ => ?_⟩
  refine ⟨hname _, ⟨by decide, by decide, by decide, nofun⟩, fun _ _ => ?_⟩
  refine ⟨hname _, ⟨by decide, by decide, by decide, nofun⟩, fun _ _ => ?_⟩
  refine ⟨hname _, ⟨by decide, by decide, by decide, nofun⟩, fun _ _ => ?_⟩
  exact ⟨hname _, ⟨by decide, by decide, by decide, nofun⟩, fun _ _ => trivial⟩

/-- The first byte of a word is stored. -/
def stampWord (str : CStr) (ptr : Nat) : UserCode := fun w =>
  some ⟨none, write w.heap.mem ptr (str.take 1), [], [], []⟩

/-- Elements of `2 ^ 31` bytes. -/
def wideEnv : Env :=
  { arrayEnv (.user 0) 3 with
    utypeSize := fun _ => 2 ^ 31
    utypeParser := fun _ str ptr => stampWord str ptr }

theorem wideEnv_parsersStay : wideEnv.ParsersStay := by
  intro u str p w r hr a _ hout
  cases hr
  refine write_changesOnly _ _ _ a ?_
  have hshort : (str.take 1).length ≤ 1 := by simp
  have hsize : wideEnv.utypeSize u = 2 ^ 31 := rfl
  by_contra hin
  exact hout ⟨by omega, by omega⟩

def threeWords : ArrayLine := arrayLine .set [bytesOf ['1'], bytesOf ['2'], bytesOf ['3']]

/-- The line is accepted, and the first element starts like the third word. -/
def startsWithThird : Except CfFault (Msg × World) → Bool
  | .ok (none, w) => w.heap.mem (load w.heap.mem 0x1000 8) == charByte '3'
  | _ => false

/-- An element that is parsed from a word starts with its first byte. -/
theorem wideEnv_starts {X : Set Nat} {w : World} {b : Byte} {more : CStr} {bytes : List Byte}
    (h : Shows wideEnv X w (.user 0) (.word (b :: more)) bytes) : bytes[0]? = some b := by
  obtain ⟨_, v, q, r, hr, _, hbytes⟩ := h
  have hstamp : stampWord (b :: more) q v = some r := hr
  have hmem : write v.heap.mem q [b] = r.mem := congrArg UserResult.mem (Option.some.inj hstamp)
  have hpos : 0 < wideEnv.utypeSize 0 := Nat.two_pow_pos 31
  rw [hbytes, read_getElem? hpos, ← hmem, write, if_pos (Nat.le_add_right _ _),
    Nat.add_sub_cancel_left]
  rfl

/-- So does the array. -/
theorem wideEnv_array_starts {w : World} {b : Byte} {more : CStr} {xs : List Source}
    (hs : Holds wideEnv (.user 0) 0x1000 w (.word (b :: more) :: xs)) :
    w.heap.mem (load w.heap.mem 0x1000 8) = b := by
  obtain ⟨elems, hall, hread, _⟩ := hs.elements
  obtain ⟨bytes, elems, hfirst, _, rfl⟩ := List.forall₂_cons_left_iff.mp hall
  have hroom : 0 < (Source.word (b :: more) :: xs).length * cfTypeSize wideEnv (.user 0) :=
    Nat.mul_pos (by simp) (Nat.two_pow_pos 31)
  have hstart := congrArg (fun bytes : List Byte => bytes[0]?) hread
  rw [read_getElem? hroom, Nat.add_zero, List.flatten_cons, List.getElem?_append_left] at hstart
  · rw [wideEnv_starts hfirst] at hstart
    exact Option.some.inj hstart
  · rw [hfirst.1]
    exact Nat.two_pow_pos 31

/-- The offset of the third element wraps, and it is parsed into the first. -/
theorem threeWords_not_held : wideEnv.ParsersStay ∧ HasVariable wideEnv 0x1000 arrayWorld ∧
    Holds wideEnv (.user 0) 0x1000 arrayWorld [] ∧
    Names wideEnv (arrayItem (.user 0) 3) 0x1000 threeWords.name arrayWorld ∧
    (threeWords.apply []).length ≤ (arrayItem (.user 0) 3).number.natAbs ∧
    ∃ w', threeWords.run wideEnv arrayWorld = .ok (none, w') ∧
      ¬ Holds wideEnv (.user 0) 0x1000 w' (threeWords.apply []) := by
  refine ⟨wideEnv_parsersStay, ⟨(arrayWorld_hasVariable .int 3).var_live,
    (arrayWorld_hasVariable .int 3).empty, by decide +kernel, by decide⟩, Or.inl ⟨by decide +kernel,
    rfl⟩, ⟨⟨0, 0, arrayItem (.user 0) 3, 0x1000⟩, arrayWorld, rfl, rfl, rfl⟩, by decide, ?_⟩
  have hthird : startsWithThird (threeWords.run wideEnv arrayWorld) = true := by decide +kernel
  generalize threeWords.run wideEnv arrayWorld = r at hthird ⊢
  rcases r with fault | ⟨msg, w'⟩
  · cases hthird
  · cases msg with
    | some msg => cases hthird
    | none =>
        refine ⟨w', rfl, fun hs => ?_⟩
        have hbyte : w'.heap.mem (load w'.heap.mem 0x1000 8) = charByte '3' :=
          beq_iff_eq.mp hthird
        have hfirst : charByte '1' = charByte '3' := (wideEnv_array_starts hs).symm.trans hbyte
        exact absurd hfirst (by decide)

end OpenAAA.Opt
