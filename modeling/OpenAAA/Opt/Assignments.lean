import OpenAAA.Opt.Texts

/-!
The assignments of a text. A line sets static items directly, through the items of a section, or
in the nodes of a list; which of them it comes to depends on its parameters and on what is refused
before. Each predicate follows one function of the interpreter: it holds of a world if every
assignment that the function comes to from there fits into one entry of the journal.
-/

namespace OpenAAA.Opt

open Memory

/-- The length of the block that is saved and the size of its entry are unsigned integers; neither
of them wraps. -/
def AssignmentFits (env : Env) (item : CfItem) (type : CfType) (number : Int) : Prop :=
  journalItemSize + min number item.number * cfTypeSize env type < 2 ^ 32

/-- What is asked of an item, with the parameters of `interpret_set_item` and the world before. -/
abbrev ItemCheck := CfItem → Int → List CStr → Nat → Bool → World → Prop

/-- The items that the loop of `interpret_section` comes to -/
def EachItem (setItem : SetItem) (C : ItemCheck) (ptr : Nat) (allowDynamic : Bool) :
    List CfItem → Int → List CStr → World → Prop
  | [], _, _, _ => True
  | ci :: rest, number, pars, w =>
      C ci number pars (ptr + ci.ptr) (allowDynamic && rest.isEmpty) w ∧
        ∀ taken w', setItem ci number pars (ptr + ci.ptr) (allowDynamic && rest.isEmpty) w =
            .ok ((none, taken), w') → number - taken ≠ 0 →
          EachItem setItem C ptr allowDynamic rest (number - taken) (pars.drop taken.toNat) w'

/-- The world when `interpret_section` starts its loop -/
def afterDirty (sec ptr : Nat) (w : World) : World :=
  { w with cc := { w.cc with dirty := cfAddDirty w.cc.dirty (toLex (sec, ptr)) } }

def SectionFits (env : Env) (setItem : SetItem) (C : ItemCheck) (sec : Nat) (number : Int)
    (pars : List CStr) (ptr : Nat) (allowDynamic : Bool) (w : World) : Prop :=
  EachItem setItem C ptr allowDynamic (env.sections sec).cfg number pars (afterDirty sec ptr w)

/-- A node that `interpret_add_list` makes and inserts. -/
def newNode (env : Env) (name : CStr) (sec ptr : Nat) (op : CfOperation) : Cf Nat := do
  let node ← cfMalloc env (env.sections sec).size
  cfInitSection env name sec node true
  addToList env ptr node op
  pure node

/-- The nodes that the loop of `interpret_add_list` comes to -/
def EachNode (env : Env) (setItem : SetItem) (C : ItemCheck) (name : CStr) (sec ptr : Nat)
    (op : CfOperation) : Nat → Int → List CStr → World → Prop
  | 0, _, _, _ => True
  | fuel + 1, number, pars, w =>
      0 < number → ∀ node w', newNode env name sec ptr op w = .ok (node, w') →
        SectionFits env setItem C sec number pars node (env.sections sec).flagDynamic w' ∧
          ∀ taken w'', interpretSectionWith env setItem sec number pars node
              (env.sections sec).flagDynamic w' = .ok ((none, taken), w'') →
            (env.sections sec).flagDynamic = false →
            EachNode env setItem C name sec ptr op fuel (number - taken) (pars.drop taken.toNat) w''

/-- The assignments of `interpret_set_item` -/
def SetFits (env : Env) : Nat → ItemCheck
  | 0, _, _, _, _, _, _ => True
  | fuel + 1, item, number, pars, ptr, allowDynamic, w =>
      match item.cls with
      | .static type => AssignmentFits env item type number
      | .section sec =>
          SectionFits env (interpretSetItem env fuel) (SetFits env fuel) sec number pars ptr
            allowDynamic w
      | .list sec =>
          allowDynamic = true → EachNode env (interpretSetItem env fuel) (SetFits env fuel)
            item.name sec ptr .set env.fuel number pars w
      | _ => True

/-- The assignments of `interpret_add`, which are those in new nodes of a list -/
def AddFits (env : Env) (item : CfItem) (number : Int) (pars : List CStr) (ptr : Nat)
    (op : CfOperation) (w : World) : Prop :=
  match item.cls with
  | .list sec =>
      op.code < CfOperation.remove.code → EachNode env (interpretSetItem env env.fuel)
        (SetFits env env.fuel) item.name sec ptr op env.fuel number pars w
  | _ => True

/-- An array of strings that is cleared -/
def ClearFits (env : Env) (item : CfItem) : Prop :=
  item.cls = .static .string → AssignmentFits env item .string item.number

def OperationFits (env : Env) (op : CfOperation) (found : Found) (number : Int)
    (pars : List CStr) (w : World) : Prop :=
  match op with
  | .clear => ClearFits env found.item
  | .all => True
  | .set => SetFits env env.fuel found.item number pars found.ptr true w
  | .reset =>
      ClearFits env found.item ∧ ∀ w', interpretSetAll env found.item found.ptr .clear w =
        .ok (none, w') → AddFits env found.item number pars found.ptr .append w'
  | op => AddFits env found.item number pars found.ptr op w

/-- The node that the attributes after a closing brace go to. -/
def selectedNode (env : Env) (st : ItemStack) (sec node : Nat) : Cf (Msg × Nat) := do
  setTop fun st => { st with list := node }
  let (msg, base) ← prepareNode env st sec node
  setTop fun st => { st with basePtr := base }
  pure (msg, base)

/-- A closing brace with parameters that ends the first phase of a block -/
def ClosingFits (env : Env) (number : Int) (pars : List CStr) (w : World) : Prop :=
  ∀ sec node w₁, w.cc.top.sec = some sec → w.cc.top.first = true →
    findListNode env w.cc.top.list w.cc.top.basePtr sec w.cc.top.mask w = .ok (some node, w₁) →
    w.cc.top.op ≠ .remove → ∀ base w₂, selectedNode env w.cc.top sec node w₁ =
      .ok ((none, base), w₂) →
    SectionFits env (interpretSetItem env env.fuel) (SetFits env env.fuel) sec number pars base true
      w₂

/-- Every assignment that the line comes to fits into the journal. -/
def LineFits (env : Env) (w : World) (l : Line) : Prop :=
  l.isOpen = false →
    if l.op = .close then ClosingFits env l.pars.length l.pars w
    else ∀ found w₁ w₂, findItem env w.cc.top.sec l.name w.cc.top.basePtr w =
        .ok ((none, some found), w₁) → trySelector w.cc.top (some found) w₁ = .ok (none, w₂) →
      OperationFits env l.op found l.pars.length l.pars w₂

/-- And every assignment of a text, with the files that it includes -/
def TextFits (env : Env) (text : List Byte) (w : World) : Prop :=
  ∀ w', cfInitStack env w = .ok ((), w') →
    EachLine env (LineFits env) env.fuel ⟨⟨text, []⟩, []⟩ w'

end OpenAAA.Opt
