import OpenAAA.Opt.Conf

/-!
`generic/opt/intr.c`: the interpreter of configuration lines, with the initialisation of
sections from `section.c` and the arrays of `generic/gary.c`. Parameters of a line are a
list of words, and `number` says how many of them are left. An address in the first
phase of a block belongs to a node that is not yet in any list.
-/

namespace OpenAAA.Opt

open Memory Alloc

/-! ## Words -/

def charByte (c : Char) : Byte := BitVec.ofNat 8 c.toNat

def bytesOf (cs : List Char) : CStr := cs.map charByte

def showBytes (s : CStr) : String := String.ofList (s.map fun b => Char.ofNat b.toNat)

def toLower (b : Byte) : Byte :=
  if 65 ≤ b.toNat ∧ b.toNat ≤ 90 then b + 32 else b

/-- `!strcasecmp(a, b)` -/
def strcaseEq (a b : CStr) : Bool := a.map toLower = b.map toLower

/-- `cf_op_names` -/
def cfOpNames : CfOperation → CStr
  | .close => bytesOf ['C', 'L', 'O', 'S', 'E']
  | .set => bytesOf ['S', 'E', 'T']
  | .clear => bytesOf ['C', 'L', 'E', 'A', 'R']
  | .all => bytesOf ['A', 'L', 'L']
  | .append => bytesOf ['A', 'P', 'P', 'E', 'N', 'D']
  | .prepend => bytesOf ['P', 'R', 'E', 'P', 'E', 'N', 'D']
  | .remove => bytesOf ['R', 'E', 'M', 'O', 'V', 'E']
  | .edit => bytesOf ['E', 'D', 'I', 'T']
  | .after => bytesOf ['A', 'F', 'T', 'E', 'R']
  | .before => bytesOf ['B', 'E', 'F', 'O', 'R', 'E']
  | .copy => bytesOf ['C', 'O', 'P', 'Y']
  | .reset => bytesOf ['R', 'E', 'S', 'E', 'T']

/-- `cf_type_names` -/
def cfTypeNames : CfType → String
  | .int => "int"
  | .u64 => "u64"
  | .double => "double"
  | .ip => "ip"
  | .string => "string"
  | .lookup _ => "lookup"
  | .user _ => "user"

def cfTypeSize (env : Env) : CfType → Nat
  | .int => 4
  | .u64 => 8
  | .double => 8
  | .ip => 4
  | .string => 8
  | .lookup _ => 4
  | .user utype => env.utypeSize utype

/-- The value of an `int` as an unsigned integer. -/
def toUint (i : Int) : Nat := (i % 2 ^ 32).toNat

/-! ## Single values -/

/-- The message of `cf_parse_lookup` for a word that is not in the table. -/
def lookupError (env : Env) (str : CStr) (table : List CStr) : Cf Msg := do
  let _ ← cfMalloc env ((table.map fun n => n.length + 2).sum + str.length + 60)
  pure (some ("Invalid value " ++ showBytes str ++ ", possible values are: " ++
    ", ".intercalate (table.map showBytes)))

def cfParseLookup (env : Env) (str : CStr) (ptr : Nat) (table : List CStr) : Cf Msg :=
  match table.findIdx? (strcaseEq · str) with
  | some n => do
      storeAt ptr 4 n
      pure none
  | none => do
      let err ← lookupError env str table
      storeAt ptr 4 (2 ^ 32 - 1)
      pure err

/-- What a parser of a basic type leaves in its variable, also next to an error. -/
def storeParsed (ptr size : Nat) : Option Nat → Cf Unit
  | some value => storeAt ptr size value
  | none => pure ()

def parseElement (env : Env) (type : CfType) (str : CStr) (ptr : Nat) : Cf Msg :=
  match type with
  | .lookup table => cfParseLookup env str ptr table
  | .user utype => callUser (env.utypeParser utype str ptr)
  | .string => do
      let p ← cfStrdup env str
      storeAt ptr 8 p
      pure none
  | type => do
      storeParsed ptr (cfTypeSize env type) (env.parse type str).2
      pure (env.parse type str).1

/-- The loop of `cf_parse_ary` over `number` elements, from the `i`th on. The offset of an element
is an unsigned integer. -/
def parseAryFrom (env : Env) (type : CfType) (ptr number : Nat) : Nat → Nat → List CStr → Cf Msg
  | 0, _, _ => pure none
  | _ + 1, _, [] => throw .overrun
  | k + 1, i, str :: pars => do
      match ← parseElement env type str (ptr + i * cfTypeSize env type % 2 ^ 32) with
      | none => parseAryFrom env type ptr number k (i + 1) pars
      | some msg =>
          if 1 < number then cfPrintf env ("Item " ++ toString (i + 1) ++ ": " ++ msg)
          else pure (some msg)

def cfParseAry (env : Env) (number : Nat) (pars : List CStr) (ptr : Nat) (type : CfType) :
    Cf Msg :=
  parseAryFrom env type ptr number number 0 pars

/-! ## Dynamic arrays -/

/-- `GARY_HDR_SIZE` -/
def garyHdrSize : Nat := 32

/-- `gary_init`: the header and room for the elements, in memory of its own. -/
def garyInit (env : Env) (size elts : Nat) : Cf Nat := do
  let h ← memAlloc env (garyHdrSize + size * elts)
  storeAt h 8 elts
  storeAt (h + 8) 8 elts
  storeAt (h + 16) 8 size
  storeAt (h + 24) 8 env.memStd
  pure (h + garyHdrSize)

/-- `GARY_SIZE` -/
def garySize (ptr : Nat) : Cf Nat := loadAt (ptr - garyHdrSize) 8

/-- `GARY_FOREVER_EMPTY` -/
def garyForeverEmpty (env : Env) : Nat := env.garyEmptyHdr + garyHdrSize

def interpretSetDynamic (env : Env) (type : CfType) (number : Nat) (pars : List CStr) (ptr : Nat) :
    Cf Msg := do
  cfJournalBlock env ptr 8
  let p ← garyInit env (cfTypeSize env type) number
  storeAt ptr 8 p
  cfParseAry env number pars p type

/-- The number of elements an array has room for, and the number it has. -/
def addDynamicTaken (item : CfItem) (number : Int) (oldNr : Nat) : Int :=
  min number (item.number.natAbs - oldNr)

/-- The last part of `interpret_add_dynamic`: the old elements and then, or before them, the new. -/
def fillDynamic (env : Env) (type : CfType) (taken : Int) (pars : List CStr) (oldP oldNr newP : Nat)
    (op : CfOperation) : Cf Msg :=
  let size := cfTypeSize env type
  let old := oldNr * size % 2 ^ 32
  if op = .append then
    if taken < 0 then throw .overrun
    else do
      memcpy newP oldP old
      cfParseAry env taken.toNat pars (newP + old) type
  else if op = .prepend then
    if taken < 0 then throw .overrun
    else do
      memcpy (newP + taken.toNat * size % 2 ^ 32) oldP old
      cfParseAry env taken.toNat pars newP type
  else cfPrintf env ("Dynamic arrays do not support operation " ++ showBytes (cfOpNames op))

def interpretAddDynamic (env : Env) (item : CfItem) (type : CfType) (number : Int)
    (pars : List CStr) (ptr : Nat) (op : CfOperation) : Cf (Msg × Int) := do
  let oldP ← loadAt ptr 8
  if cfTypeSize env type < 4 then throw .assertion
  else
    let elts ← garySize oldP
    let oldNr := if oldP = 0 then 0 else elts
    -- a length that is not an `int`
    if 2 ^ 31 ≤ oldNr then throw .overrun
    else
      let taken := addDynamicTaken item number oldNr
      let newP ← garyInit env (cfTypeSize env type) (oldNr + taken).toNat
      cfJournalBlock env ptr 8
      storeAt ptr 8 newP
      let msg ← fillDynamic env type taken pars oldP oldNr newP op
      pure (msg, taken)

/-! ## Lists -/

/-- `list_init` -/
def listInit (p : Nat) : Cf Unit := do
  storeAt (p + 8) 8 p
  storeAt p 8 p

/-- `list_insert_after` -/
def listInsertAfter (what after : Nat) : Cf Unit := do
  let before ← loadAt after 8
  storeAt what 8 before
  storeAt (what + 8) 8 after
  storeAt (before + 8) 8 what
  storeAt after 8 what

/-- `list_insert_before` -/
def listInsertBefore (what before : Nat) : Cf Unit := do
  let after ← loadAt (before + 8) 8
  storeAt what 8 before
  storeAt (what + 8) 8 after
  storeAt (before + 8) 8 what
  storeAt after 8 what

/-- `list_remove` -/
def listRemove (n : Nat) : Cf Unit := do
  let before ← loadAt (n + 8) 8
  let after ← loadAt n 8
  storeAt before 8 after
  storeAt (after + 8) 8 before

def addToList (env : Env) (place newNode : Nat) : CfOperation → Cf Unit
  | .edit => pure ()
  | .remove => do
      let prev ← loadAt (place + 8) 8
      cfJournalBlock env prev 8
      let next ← loadAt place 8
      cfJournalBlock env (next + 8) 8
      listRemove place
  | .after | .prepend | .copy => do
      let next ← loadAt place 8
      cfJournalBlock env (next + 8) 8
      cfJournalBlock env place 8
      listInsertAfter newNode place
  | .before | .append | .set => do
      let prev ← loadAt (place + 8) 8
      cfJournalBlock env prev 8
      cfJournalBlock env (place + 8) 8
      listInsertBefore newNode place
  | .close | .clear | .all | .reset => throw .assertZero

/-! ## Initialisation of sections -/

/-- `if (!*dyn) *dyn = GARY_FOREVER_EMPTY;` -/
def initDynamic (env : Env) (p : Nat) : Cf Unit := do
  let dyn ← loadAt p 8
  if dyn = 0 then storeAt p 8 (garyForeverEmpty env) else pure ()

def initItem (env : Env) (initSection : CStr → Nat → Nat → Cf Unit) (ptr : Nat) (ci : CfItem) :
    Cf Unit :=
  match ci.cls with
  | .section sec => initSection ci.name sec (ptr + ci.ptr)
  | .list _ => listInit (ptr + ci.ptr)
  | .dynamic _ => initDynamic env (ptr + ci.ptr)
  | _ => pure ()

/-- The loop of `cf_init_section` over the items, with the call for subsections. -/
def initItems (env : Env) (initSection : CStr → Nat → Nat → Cf Unit) (ptr : Nat) :
    List CfItem → Cf Unit
  | [] => pure ()
  | ci :: rest => do
      initItem env initSection ptr ci
      initItems env initSection ptr rest

def runInit (env : Env) (sec ptr : Nat) : Cf Unit :=
  if (env.sections sec).init then do
    match ← callUser (env.init sec ptr) with
    | none => pure ()
    | some _ => throw .die
  else pure ()

def initFields (env : Env) : Nat → CStr → Nat → Nat → Cf Unit
  | 0, _, _, _ => throw .endless
  | fuel + 1, _, sec, ptr => do
      initItems env (initFields env fuel) ptr (env.sections sec).cfg
      runInit env sec ptr

/-- `cf_init_section`. Only the first call, for a whole node, clears the memory. -/
def cfInitSection (env : Env) (name : CStr) (sec ptr : Nat) (doBzero : Bool) : Cf Unit := do
  whenSet doBzero do
    if (env.sections sec).size = 0 then throw .assertion
    else memset ptr (env.sections sec).size
  initFields env env.fuel name sec ptr

/-! ## Items -/

def cfAddDirtyTo (sec ptr : Nat) : Cf Unit :=
  modifyCc fun cc => { cc with dirty := cfAddDirty cc.dirty (toLex (sec, ptr)) }

/-- An interpreter of one item: the parameters, their number, the address of the variable and
whether lists and arrays may take them; the message and the number of parameters used. -/
abbrev SetItem := CfItem → Int → List CStr → Nat → Bool → Cf (Msg × Int)

/-- The loop of `interpret_section`. -/
def interpretItems (env : Env) (setItem : SetItem) (ptr : Nat) (allowDynamic : Bool) :
    List CfItem → Int → List CStr → Int → Cf (Msg × Int)
  | [], _, _, processed => pure (none, processed)
  | ci :: rest, number, pars, processed => do
      let (msg, taken) ← setItem ci number pars (ptr + ci.ptr) (allowDynamic && rest.isEmpty)
      match msg with
      | some msg =>
          let msg ← cfPrintf env ("Item " ++ showBytes ci.name ++ ": " ++ msg)
          pure (msg, processed)
      | none =>
          if number - taken = 0 then pure (none, processed + taken)
          else
            interpretItems env setItem ptr allowDynamic rest (number - taken)
              (pars.drop taken.toNat) (processed + taken)

def interpretSectionWith (env : Env) (setItem : SetItem) (sec : Nat) (number : Int)
    (pars : List CStr) (ptr : Nat) (allowDynamic : Bool) : Cf (Msg × Int) := do
  cfAddDirtyTo sec ptr
  interpretItems env setItem ptr allowDynamic (env.sections sec).cfg number pars 0

/-- `while (number > 0)` in `interpret_add_list`. -/
def addListNodes (env : Env) (setItem : SetItem) (name : CStr) (sec ptr : Nat)
    (op : CfOperation) : Nat → Nat → Int → List CStr → Int → Cf (Msg × Int)
  | 0, _, _, _, _ => throw .endless
  | fuel + 1, index, number, pars, processed =>
      if number ≤ 0 then pure (none, processed)
      else do
        let node ← cfMalloc env (env.sections sec).size
        cfInitSection env name sec node true
        addToList env ptr node op
        let (msg, taken) ← interpretSectionWith env setItem sec number pars node
          (env.sections sec).flagDynamic
        match msg with
        | some msg =>
            if (env.sections sec).flagDynamic then pure (some msg, processed)
            else
              let msg ← cfPrintf env ("Node " ++ toString (index + 1) ++ " of list " ++
                showBytes name ++ ": " ++ msg)
              pure (msg, processed)
        | none =>
            if (env.sections sec).flagDynamic then pure (none, processed + taken)
            else
              addListNodes env setItem name sec ptr op fuel (index + 1) (number - taken)
                (pars.drop taken.toNat) (processed + taken)

def interpretAddListWith (env : Env) (setItem : SetItem) (name : CStr) (sec : Nat) (number : Int)
    (pars : List CStr) (ptr : Nat) (op : CfOperation) : Cf (Msg × Int) :=
  if CfOperation.remove.code ≤ op.code then do
    let msg ← cfPrintf env ("You have to open a block for operation " ++ showBytes (cfOpNames op))
    pure (msg, 0)
  else if number = 0 then pure (some "Nothing to add to the list", 0)
  else addListNodes env setItem name sec ptr op env.fuel 0 number pars 0

/-- The bit a parameter of a bitmap names. -/
def bitIndex (env : Env) (type : CfType) (str : CStr) : Cf (Msg × Nat) :=
  match type with
  | .lookup table =>
      match table.findIdx? (strcaseEq · str) with
      | some n => pure (none, n)
      | none => do
          let err ← lookupError env str table
          pure (err, 0)
  | type =>
      match env.parse type str with
      | (some msg, _) => pure (some msg, 0)
      | (none, some idx) => pure (none, idx)
      | (none, none) => throw .overrun

/-- The loop of `interpret_add_bitmap`. -/
def addBits (env : Env) (type : CfType) (ptr : Nat) (op : CfOperation) : List CStr → Cf Msg
  | [] => pure none
  | str :: pars => do
      let (msg, idx) ← bitIndex env type str
      match msg with
      | some msg => pure (some msg)
      | none =>
          if 32 ≤ idx then pure (some "Bitmaps only have 32 bits")
          else
            let bits ← loadAt ptr 4
            storeAt ptr 4 (if op = .set then bits ||| 2 ^ idx else bits &&& (2 ^ 32 - 1 - 2 ^ idx))
            addBits env type ptr op pars

def interpretAddBitmap (env : Env) (type : CfType) (number : Int) (pars : List CStr) (ptr : Nat)
    (op : CfOperation) : Cf (Msg × Int) :=
  let op := if op = .prepend ∨ op = .append then .set else op
  if op ≠ .set ∧ op ≠ .remove then do
    let msg ← cfPrintf env ("Cannot apply operation " ++ showBytes (cfOpNames op) ++ " on a bitmap")
    pure (msg, 0)
  else
    match type with
    | .int | .lookup _ => do
        cfJournalBlock env ptr 4
        let msg ← addBits env type ptr op (pars.take number.toNat)
        pure (msg, number)
    | type => do
        let msg ← cfPrintf env ("Type " ++ cfTypeNames type ++ " cannot be used with bitmaps")
        pure (msg, 0)

/-- The copies that a parser gets of its parameters. -/
def dupPars (env : Env) : List CStr → Cf Unit
  | [] => pure ()
  | str :: pars => do
      let _ ← cfStrdup env str
      dupPars env pars

def interpretSetItem (env : Env) : Nat → SetItem
  | 0, _, _, _, _, _ => throw .endless
  | fuel + 1, item, number, pars, ptr, allowDynamic =>
      match item.cls with
      | .static type =>
          if number = 0 then pure (some "Missing value", 0)
          else do
            let taken := min number item.number
            cfJournalBlock env ptr (toUint taken * cfTypeSize env type % 2 ^ 32)
            let msg ← cfParseAry env (toUint taken) pars ptr type
            pure (msg, taken)
      | .dynamic type =>
          if allowDynamic then do
            let taken := min number item.number.natAbs
            let msg ← interpretSetDynamic env type taken.toNat pars ptr
            pure (msg, taken)
          else pure (some "Dynamic array cannot be used here", 0)
      | .parser par =>
          if item.number < 0 ∧ ¬ allowDynamic then
            pure (some "Parsers with variable number of parameters cannot be used here", 0)
          else if 0 < item.number ∧ number < item.number then
            pure (some "Not enough parameters available for the parser", 0)
          else do
            let taken := min number item.number.natAbs
            dupPars env (pars.take taken.toNat)
            let msg ← callUser (env.parser par (pars.take taken.toNat) ptr)
            pure (msg, taken)
      | .section sec =>
          interpretSectionWith env (interpretSetItem env fuel) sec number pars ptr allowDynamic
      | .list sec =>
          if allowDynamic then
            interpretAddListWith env (interpretSetItem env fuel) item.name sec number pars ptr .set
          else pure (some "Lists cannot be used here", 0)
      | .bitmap type =>
          if allowDynamic then interpretAddBitmap env type number pars ptr .set
          else pure (some "Bitmaps cannot be used here", 0)

def interpretSection (env : Env) (sec : Nat) (number : Int) (pars : List CStr) (ptr : Nat)
    (allowDynamic : Bool) : Cf (Msg × Int) :=
  interpretSectionWith env (interpretSetItem env env.fuel) sec number pars ptr allowDynamic

def interpretAddList (env : Env) (name : CStr) (sec : Nat) (number : Int) (pars : List CStr)
    (ptr : Nat) (op : CfOperation) : Cf (Msg × Int) :=
  interpretAddListWith env (interpretSetItem env env.fuel) name sec number pars ptr op

/-- All bits of a bitmap, or those that have names. -/
def allBits : CfType → Nat
  | .lookup table => (2 ^ 32 - 1) / 2 ^ (32 - table.length)
  | _ => 2 ^ 32 - 1

def interpretSetAll (env : Env) (item : CfItem) (ptr : Nat) (op : CfOperation) : Cf Msg :=
  match item.cls with
  | .bitmap type => do
      cfJournalBlock env ptr 4
      storeAt ptr 4 (if op = .clear then 0 else allBits type)
      pure none
  | cls =>
      if op ≠ .clear then pure (some "The item is not a bitmap")
      else
        match cls with
        | .list _ => do
            cfJournalBlock env ptr 16
            listInit ptr
            pure none
        | .dynamic _ => do
            cfJournalBlock env ptr 8
            storeAt ptr 8 (garyForeverEmpty env)
            pure none
        | .static .string => do
            cfJournalBlock env ptr (toUint (item.number * 8))
            if item.number < 0 then throw .overrun
            else
              memset ptr (item.number * 8).toNat
              pure none
        | _ => pure (some "The item is not a list, dynamic array, bitmap, or string")

/-! ## Selectors -/

/-- `strcmp(..) == 0` on strings in memory. -/
def strEqFrom (m : Mem) : Nat → Nat → Nat → Cf Bool
  | 0, _, _ => throw .endless
  | fuel + 1, p, q =>
      if m p ≠ m q then pure false
      else if m p = 0 then pure true
      else strEqFrom m fuel (p + 1) (q + 1)

/-- Whether two nodes agree on an item: `!cmp_items(i1, i2, item)`. -/
def cmpItems (env : Env) (i1 i2 : Nat) (item : CfItem) : Cf Bool :=
  match item.cls with
  | .static .string => do
      let p ← loadAt (i1 + item.ptr) 8
      let q ← loadAt (i2 + item.ptr) 8
      if p = 0 ∨ q = 0 then throw (.heap .nullPointer)
      else
        let w ← get
        strEqFrom w.heap.mem env.fuel p q
  | .static type => do
      let w ← get
      let size := cfTypeSize env type
      pure (read w.heap.mem (i1 + item.ptr) size = read w.heap.mem (i2 + item.ptr) size)
  | _ => throw .assertion

/-- The items that a mask selects. -/
def selected (cfg : List CfItem) (mask : Nat) : List CfItem :=
  (cfg.zipIdx.filter fun ci => ci.2 < 32 ∧ mask.testBit ci.2).map (·.1)

def agreeOn (env : Env) (n query : Nat) : List CfItem → Cf Bool
  | [] => pure true
  | ci :: rest => do
      if ← cmpItems env n query ci then agreeOn env n query rest else pure false

/-- The loop of `find_list_node`, from the node `n` on. -/
def findNodeFrom (env : Env) (list query : Nat) (items : List CfItem) : Nat → Nat → Cf (Option Nat)
  | 0, _ => throw .endless
  | fuel + 1, n =>
      if n = list then pure none
      else do
        if ← agreeOn env n query items then pure (some n)
        else
          let next ← loadAt n 8
          findNodeFrom env list query items fuel next

def findListNode (env : Env) (list query sec mask : Nat) : Cf (Option Nat) := do
  let first ← loadAt list 8
  findNodeFrom env list query (selected (env.sections sec).cfg mask) env.fuel first

/-- An item found by its name: the section it was found in, its place there and the address of its
variable. -/
structure Found where
  sec : Nat
  index : Nat
  item : CfItem
  ptr : Nat

def setTop (f : ItemStack → ItemStack) : Cf Unit :=
  modifyCc fun cc => { cc with top := f cc.top }

/-- An attribute of the node itself, set in the first phase, becomes a selector. -/
def recordSelector (found : Option Found) (sec : Option Nat) : Cf Msg :=
  match found with
  | none => pure none
  | some found =>
      if some found.sec = sec then
        if 32 ≤ found.index then pure (some "Cannot select list nodes by this attribute")
        else
          match found.item.cls with
          | .static _ => do
              setTop fun st => { st with mask := st.mask ||| 2 ^ found.index }
              pure none
          | _ => pure (some "Selection can only be done based on basic attributes")
      else pure none

/-! ## Blocks -/

/-- `MAX_STACK_SIZE` -/
def maxStackSize : Nat := 16

/-- `cc->stack[++cc->stack_level] = st` -/
def pushStack (st : ItemStack) : Cf Unit := do
  let w ← get
  if maxStackSize ≤ w.cc.below.length + 1 then throw .stack
  else modifyCc fun cc => { cc with top := st, below := cc.top :: cc.below }

/-- `cc->stack_level--` -/
def popStack : Cf Unit := do
  let w ← get
  match w.cc.below with
  | [] => throw .stack
  | st :: below => modifyCc fun cc => { cc with top := st, below := below }

def openSection (sec ptr : Nat) (op : CfOperation) : Cf Msg := do
  setTop fun st => { st with sec := some sec }
  if op ≠ .set then pure (some "Only SET operation can be used with a section")
  else
    -- the operation on a list that does nothing
    setTop fun st => { st with basePtr := ptr, op := .edit, second := true }
    pure none

def openList (env : Env) (item : CfItem) (sec ptr : Nat) (op : CfOperation) : Cf Msg := do
  let node ← cfMalloc env (env.sections sec).size
  cfInitSection env item.name sec node true
  setTop fun st => { st with sec := some sec, basePtr := node, list := ptr, item := item.name }
  if op = .all then pure (some "Operation ALL cannot be applied on lists")
  else if op.code < CfOperation.remove.code then
    addToList env ptr node op
    setTop fun st => { st with second := true }
    pure none
  else
    setTop fun st => { st with first := true }
    pure none

def openingBrace (env : Env) (found : Option Found) (op : CfOperation) : Cf Msg := do
  let w ← get
  if maxStackSize - 1 ≤ w.cc.below.length then pure (some "Too many nested sections")
  else
    pushStack ⟨none, 0, op, false, false, 0, 0, []⟩
    match found with
    | none => pure none
    | some found =>
        match found.item.cls with
        | .section sec => openSection sec found.ptr op
        | .list sec => openList env found.item sec found.ptr op
        | _ => pure (some "Opening brace can only be used on sections and lists")

/-- The node that the second phase of a block works on: the message and its address. -/
def prepareNode (env : Env) (st : ItemStack) (sec node : Nat) : Cf (Msg × Nat) :=
  match st.op with
  | .edit => pure (none, node)
  | .after | .before => do
      cfInitSection env st.item sec st.basePtr true
      pure (none, st.basePtr)
  | .copy =>
      if (env.sections sec).flagCantCopy then do
        let msg ← cfPrintf env ("Item " ++ showBytes st.item ++ " cannot be copied")
        pure (msg, st.basePtr)
      else do
        memcpy st.basePtr node (env.sections sec).size
        if (env.sections sec).copy then
          let msg ← callUser (env.copy sec st.basePtr node)
          pure (msg, st.basePtr)
        else pure (none, st.basePtr)
  | _ => throw .assertZero

/-- The end of `closing_brace`. -/
def closeBlock (isOpen : Bool) (number : Int) : Cf Msg := do
  popStack
  if number ≠ 0 then pure (some "No parameters expected after the \x7d")
  else if isOpen then pure (some "No \x7b is expected")
  else pure none

/-- The first phase of a block ends, with a node found for its selectors. -/
def closeFirst (env : Env) (st : ItemStack) (sec node : Nat) (isOpen : Bool) (number : Int)
    (pars : List CStr) : Cf Msg := do
  setTop fun st => { st with list := node }
  if st.op = .remove then
    addToList env node st.basePtr .remove
    closeBlock isOpen number
  else
    let (msg, base) ← prepareNode env st sec node
    setTop fun st => { st with basePtr := base }
    match msg with
    | some msg => pure (some msg)
    | none =>
        if isOpen then
          setTop fun st => { st with first := false, second := true }
          addToList env node base st.op
          pure none
        else
          let (msg, taken) ← interpretSection env sec number pars base true
          match msg with
          | some msg => pure (some msg)
          | none =>
              addToList env node base st.op
              closeBlock isOpen (number - taken)

def closingBrace (env : Env) (isOpen : Bool) (number : Int) (pars : List CStr) : Cf Msg := do
  let w ← get
  let st := w.cc.top
  if st.op = .close ∧ ¬ st.first ∧ ¬ st.second then pure (some "Unmatched \x7d parenthesis")
  else
    match st.sec with
    | none =>
        -- an unknown section, of which only the nesting is traced
        if isOpen then pure none
        else
          popStack
          pure none
    | some sec =>
        if st.first then
          match ← findListNode env st.list st.basePtr sec st.mask with
          | none => pure (some "Cannot find a node matching the query")
          | some node => closeFirst env st sec node isOpen number pars
        else closeBlock isOpen number

/-! ## Lines -/

/-- `cf_find_subitem`, with the place of the item. -/
def cfFindSubitem (env : Env) (sec : Nat) (name : CStr) : Option (CfItem × Nat) :=
  (env.sections sec).cfg.zipIdx.find? fun ci => strcaseEq ci.1.name name

/-- The parts of a name, which are separated by dots. -/
def splitPath : CStr → List CStr
  | [] => [[]]
  | b :: bs =>
      if b = charByte '.' then [] :: splitPath bs
      else
        match splitPath bs with
        | [] => [[b]]
        | part :: parts => (b :: part) :: parts

/-- The loop of `find_item` over the parts of a name. -/
def findPath (env : Env) : Nat → Nat → List CStr → Cf (Msg × Option Found)
  | _, _, [] => pure (none, none)
  | sec, ptr, name :: parts => do
      whenSet (sec ≠ env.root) (cfAddDirtyTo sec ptr)
      match cfFindSubitem env sec name with
      | none =>
          if (env.sections sec).flagUnknown then pure (none, none)
          else
            let msg ← cfPrintf env ("Unknown item " ++ showBytes name)
            pure (msg, none)
      | some (ci, index) =>
          if parts.isEmpty then pure (none, some ⟨sec, index, ci, ptr + ci.ptr⟩)
          else
            match ci.cls with
            | .section sub => findPath env sub (ptr + ci.ptr) parts
            | _ =>
                let msg ← cfPrintf env ("Item " ++ showBytes name ++ " is not a section")
                pure (msg, none)

def findItem (env : Env) (currSec : Option Nat) (name : CStr) (ptr : Nat) :
    Cf (Msg × Option Found) :=
  match name with
  | [] => findFrom currSec []
  | b :: rest =>
      if b = charByte '^' then findPath env env.root 0 (splitPath rest)
      else findFrom currSec (b :: rest)
where
  findFrom (sec : Option Nat) (name : CStr) : Cf (Msg × Option Found) :=
    match sec with
    | none => pure (none, none)
    | some sec => findPath env sec ptr (splitPath name)

def interpretAdd (env : Env) (name : CStr) (item : CfItem) (number : Int) (pars : List CStr)
    (ptr : Nat) (op : CfOperation) : Cf (Msg × Int) :=
  match item.cls with
  | .dynamic type => interpretAddDynamic env item type number pars ptr op
  | .list sec => interpretAddList env item.name sec number pars ptr op
  | .bitmap type => interpretAddBitmap env type number pars ptr op
  | _ => do
      let msg ← cfPrintf env ("Operation " ++ showBytes (cfOpNames op) ++
        " not supported on attribute " ++ showBytes name)
      pure (msg, 0)

/-- The operation of a line without a brace: the message and the number of parameters used. -/
def interpretOperation (env : Env) (name : CStr) (op : CfOperation) (found : Found) (number : Int)
    (pars : List CStr) : Cf (Msg × Int) :=
  match op with
  | .clear | .all => do
      let msg ← interpretSetAll env found.item found.ptr op
      pure (msg, 0)
  | .set => interpretSetItem env env.fuel found.item number pars found.ptr true
  | .reset => do
      let msg ← interpretSetAll env found.item found.ptr .clear
      match msg with
      | some msg => pure (some msg, 0)
      | none => interpretAdd env name found.item number pars found.ptr .append
  | op => interpretAdd env name found.item number pars found.ptr op

/-- The part of `cf_interpret_line` after the item is found. -/
def interpretFound (env : Env) (name : CStr) (op : CfOperation) (isOpen : Bool) (number : Int)
    (pars : List CStr) (found : Option Found) : Cf Msg :=
  if isOpen then
    if number ≠ 0 then
      pure (some "Cannot open a block after a parameter has been passed on a line")
    else openingBrace env found op
  else
    match found with
    | none => pure none
    | some found => do
        let (msg, taken) ← interpretOperation env name op found number pars
        match msg with
        | some msg => pure (some msg)
        | none =>
            if taken < number then
              cfPrintf env ("Too many parameters: " ++ toString number ++ ">" ++ toString taken)
            else pure none

/-- In the first phase of a block, the item becomes a selector. -/
def trySelector (st : ItemStack) (found : Option Found) : Cf Msg :=
  if st.first then recordSelector found st.sec else pure none

def cfInterpretLine (env : Env) (name : CStr) (op : CfOperation) (isOpen : Bool)
    (pars : List CStr) : Cf Msg := do
  let number : Int := pars.length
  if op = .close then closingBrace env isOpen number pars
  else
    let w ← get
    let st := w.cc.top
    let (msg, found) ← findItem env st.sec name st.basePtr
    match msg with
    | some msg => pure (some msg)
    | none =>
        match ← trySelector st found with
        | some msg => pure (some msg)
        | none => interpretFound env name op isOpen number pars found

/-- The bottom of the stack. -/
def rootStack (env : Env) : ItemStack := ⟨some env.root, 0, .close, false, false, 0, 0, []⟩

/-- `cf_init_stack`. The counter of its calls is an unsigned integer. -/
def cfInitStack (env : Env) : Cf Unit := do
  let w ← get
  modifyCc fun cc => { cc with sectionsInitialized := (cc.sectionsInitialized + 1) % 2 ^ 32 }
  whenSet (w.cc.sectionsInitialized = 0) (cfInitSection env [] env.root 0 false)
  modifyCc fun cc => { cc with top := rootStack env, below := [] }

/-- `cf_done_stack` -/
def cfDoneStack : Cf Bool := do
  let w ← get
  pure (0 < w.cc.below.length)

end OpenAAA.Opt
