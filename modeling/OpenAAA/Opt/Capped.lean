import OpenAAA.Opt.Assignments
import OpenAAA.Opt.Revert

/-!
Declarations with shorter arrays, in which every static array has no more elements than one entry of
the journal can hold. The interpreter of items does the same with them as with the arrays as they
are, from every world in which its assignments fit.
-/

namespace OpenAAA.Opt

open Memory

/-- The item, with no more elements than an entry of the journal can hold. -/
def Env.cap (env : Env) (ci : CfItem) : CfItem :=
  match ci.cls with
  | .static type =>
      if journalItemSize + ci.number * cfTypeSize env type < 2 ^ 32 then ci
      else { ci with number := (2 ^ 32 - 1 - journalItemSize) / cfTypeSize env type }
  | _ => ci

def Env.capped (env : Env) : Env :=
  { env with sections := fun s =>
      { env.sections s with cfg := (env.sections s).cfg.map env.cap } }

def Env.capFound (env : Env) (found : Found) : Found := { found with item := env.cap found.item }

variable {env : Env}

@[simp] theorem Env.cap_name (ci : CfItem) : (env.cap ci).name = ci.name := by
  unfold Env.cap
  split
  · split <;> rfl
  · rfl

@[simp] theorem Env.cap_ptr (ci : CfItem) : (env.cap ci).ptr = ci.ptr := by
  unfold Env.cap
  split
  · split <;> rfl
  · rfl

@[simp] theorem Env.cap_cls (ci : CfItem) : (env.cap ci).cls = ci.cls := by
  unfold Env.cap
  split
  · split <;> rfl
  · rfl

theorem Env.cap_of_ne {ci : CfItem} (h : ∀ type, ci.cls ≠ .static type) : env.cap ci = ci := by
  unfold Env.cap
  split
  · next type hcls => exact absurd hcls (h type)
  · rfl

theorem Env.cap_static {ci : CfItem} {type : CfType} (hcls : ci.cls = .static type) :
    env.cap ci = if journalItemSize + ci.number * cfTypeSize env type < 2 ^ 32 then ci
      else { ci with number := (2 ^ 32 - 1 - journalItemSize) / cfTypeSize env type } := by
  unfold Env.cap
  rw [hcls]

/-- An array that does not fit has elements. -/
theorem cfTypeSize_pos {ci : CfItem} {type : CfType}
    (h : ¬ journalItemSize + ci.number * cfTypeSize env type < 2 ^ 32) :
    (0 : Int) < cfTypeSize env type := by
  have hhdr : journalItemSize = 24 := rfl
  rw [hhdr] at h
  rcases Nat.eq_zero_or_pos (cfTypeSize env type) with hzero | hpos
  · rw [hzero] at h
    omega
  · exact_mod_cast hpos

theorem Env.capped_fitsJournal (env : Env) : env.capped.FitsJournal := by
  intro s ci hci type hcls
  obtain ⟨ci₀, -, rfl⟩ := List.mem_map.mp hci
  have hcls₀ : ci₀.cls = .static type := (Env.cap_cls ci₀).symm.trans hcls
  change journalItemSize + (env.cap ci₀).number * cfTypeSize env type < 2 ^ 32
  rw [Env.cap_static hcls₀]
  split
  · assumption
  · next hlong =>
      have hpos := cfTypeSize_pos hlong
      have hle := Int.ediv_mul_le (2 ^ 32 - 1 - journalItemSize) hpos.ne'
      dsimp only
      omega

/-- What an assignment takes is the same, if it fits. -/
theorem AssignmentFits.min_eq {item : CfItem} {type : CfType} {number : Int}
    (hcls : item.cls = .static type) (h : AssignmentFits env item type number) :
    min number (env.cap item).number = min number item.number := by
  rw [Env.cap_static hcls]
  split
  · rfl
  · next hlong =>
      have hpos := cfTypeSize_pos hlong
      have hhdr : journalItemSize = 24 := rfl
      unfold AssignmentFits at h
      rw [hhdr] at h hlong
      dsimp only
      generalize (cfTypeSize env type : Int) = size at h hlong hpos
      have hless : number < item.number := by
        by_contra hge
        rw [min_eq_right (not_lt.mp hge)] at h
        exact hlong h
      rw [min_eq_left hless.le] at h ⊢
      refine min_eq_left ((Int.le_ediv_iff_mul_le hpos).mpr ?_)
      change number * size ≤ 2 ^ 32 - 1 - 24
      omega

/-! ## Programs that do the same -/

section Same

variable {α β : Type} {w : World}

/-- Two programs with the same beginning -/
theorem bind_same {x y : Cf α} {f g : α → Cf β} (hx : x w = y w)
    (hf : ∀ a w', y w = .ok (a, w') → f a w' = g a w') : (x >>= f) w = (y >>= g) w := by
  change Except.bind (x w) _ = Except.bind (y w) _
  rw [hx]
  cases hy : y w with
  | error e => rfl
  | ok r => exact hf r.1 r.2 hy

end Same

/-! ## What does not depend on the items -/

@[simp] theorem cfTypeSize_capped (type : CfType) :
    cfTypeSize env.capped type = cfTypeSize env type := by
  cases type <;> rfl

@[simp] theorem cfPrintf_capped (text : String) : cfPrintf env.capped text = cfPrintf env text :=
  rfl

@[simp] theorem cfJournalBlock_capped (ptr len : Nat) :
    cfJournalBlock env.capped ptr len = cfJournalBlock env ptr len := rfl

@[simp] theorem Env.capped_parser : env.capped.parser = env.parser := rfl

@[simp] theorem Env.capped_flagDynamic (sec : Nat) :
    (env.capped.sections sec).flagDynamic = (env.sections sec).flagDynamic := rfl

/-! ## Sections and lists -/

@[simp] theorem Env.capped_cfg (env : Env) (sec : Nat) :
    (env.capped.sections sec).cfg = (env.sections sec).cfg.map env.cap := rfl

theorem initItem_capped (init : CStr → Nat → Nat → Cf Unit) (ptr : Nat) (ci : CfItem) :
    initItem env.capped init ptr (env.cap ci) = initItem env init ptr ci := by
  unfold initItem
  rw [Env.cap_cls, Env.cap_name, Env.cap_ptr]
  rfl

theorem initItems_capped (init : CStr → Nat → Nat → Cf Unit) (ptr : Nat) (items : List CfItem) :
    initItems env.capped init ptr (items.map env.cap) = initItems env init ptr items := by
  induction items with
  | nil => rfl
  | cons ci rest ih =>
      rw [List.map_cons, initItems, initItems, initItem_capped, ih]

theorem initFields_capped (fuel : Nat) : initFields env.capped fuel = initFields env fuel := by
  induction fuel with
  | zero => rfl
  | succ fuel ih =>
      funext name sec ptr
      rw [initFields, initFields, ih, Env.capped_cfg, initItems_capped]
      rfl

theorem cfInitSection_capped (name : CStr) (sec ptr : Nat) (doBzero : Bool) :
    cfInitSection env.capped name sec ptr doBzero = cfInitSection env name sec ptr doBzero := by
  unfold cfInitSection
  rw [initFields_capped]
  rfl

theorem cmpItems_capped (i1 i2 : Nat) (ci : CfItem) :
    cmpItems env.capped i1 i2 (env.cap ci) = cmpItems env i1 i2 ci := by
  unfold cmpItems
  rw [Env.cap_cls, Env.cap_ptr]
  rfl

theorem agreeOn_capped (n query : Nat) (items : List CfItem) :
    agreeOn env.capped n query (items.map env.cap) = agreeOn env n query items := by
  induction items with
  | nil => rfl
  | cons ci rest ih => rw [List.map_cons, agreeOn, agreeOn, cmpItems_capped, ih]

theorem selected_capped (cfg : List CfItem) (mask : Nat) :
    selected (cfg.map env.cap) mask = (selected cfg mask).map env.cap := by
  unfold selected
  rw [List.zipIdx_map, List.filter_map, List.map_map, List.map_map]
  rfl

theorem findNodeFrom_capped (list query : Nat) (items : List CfItem) (fuel n : Nat) :
    findNodeFrom env.capped list query (items.map env.cap) fuel n =
      findNodeFrom env list query items fuel n := by
  induction fuel generalizing n with
  | zero => rfl
  | succ fuel ih =>
      rw [findNodeFrom, findNodeFrom, agreeOn_capped]
      simp only [ih]

theorem findListNode_capped (list query sec mask : Nat) :
    findListNode env.capped list query sec mask = findListNode env list query sec mask := by
  unfold findListNode
  rw [Env.capped_cfg, selected_capped]
  exact congrArg _ (funext fun first => findNodeFrom_capped list query _ env.fuel first)

/-! ## Items -/

variable {setItem setItem' : SetItem} {C : ItemCheck}

/-- An interpreter of items that does the same where `C` holds. -/
def SameWhere (env : Env) (C : ItemCheck) (setItem' setItem : SetItem) : Prop :=
  ∀ ci number pars ptr allowDynamic w, C ci number pars ptr allowDynamic w →
    setItem' (env.cap ci) number pars ptr allowDynamic w =
      setItem ci number pars ptr allowDynamic w

theorem interpretItems_capped (hset : SameWhere env C setItem' setItem) (ptr : Nat)
    (allowDynamic : Bool) (items : List CfItem) {number : Int} {pars : List CStr} (processed : Int)
    {w : World} (h : EachItem setItem C ptr allowDynamic items number pars w) :
    interpretItems env.capped setItem' ptr allowDynamic (items.map env.cap) number pars processed w =
      interpretItems env setItem ptr allowDynamic items number pars processed w := by
  induction items generalizing number pars processed w with
  | nil => rfl
  | cons ci rest ih =>
      obtain ⟨hci, hrest⟩ := h
      have hempty : (rest.map env.cap).isEmpty = rest.isEmpty := by
        cases rest <;> rfl
      rw [List.map_cons, interpretItems, interpretItems, hempty, Env.cap_ptr, Env.cap_name]
      refine bind_same (hset _ _ _ _ _ _ hci) fun result w' hrun => ?_
      obtain ⟨msg, taken⟩ := result
      cases msg with
      | some msg => rfl
      | none =>
          dsimp only
          by_cases hdone : number - taken = 0
          · rw [if_pos hdone, if_pos hdone]
          · rw [if_neg hdone, if_neg hdone]
            exact ih _ (hrest taken w' hrun hdone)

theorem interpretSectionWith_capped (hset : SameWhere env C setItem' setItem) (sec : Nat)
    (number : Int) (pars : List CStr) (ptr : Nat) (allowDynamic : Bool) {w : World}
    (h : SectionFits env setItem C sec number pars ptr allowDynamic w) :
    interpretSectionWith env.capped setItem' sec number pars ptr allowDynamic w =
      interpretSectionWith env setItem sec number pars ptr allowDynamic w :=
  interpretItems_capped hset ptr allowDynamic _ 0 h

theorem newNode_capped (name : CStr) (sec ptr : Nat) (op : CfOperation) :
    newNode env.capped name sec ptr op = newNode env name sec ptr op := by
  unfold newNode
  simp only [cfInitSection_capped]
  rfl

/-- The loop of `interpret_add_list` behind the section of a node -/
def afterNode (env : Env) (setItem : SetItem) (name : CStr) (sec ptr : Nat) (op : CfOperation)
    (fuel index : Nat) (number : Int) (pars : List CStr) (processed : Int) (r : Msg × Int) :
    Cf (Msg × Int) :=
  match r.1 with
  | some msg =>
      if (env.sections sec).flagDynamic then pure (some msg, processed)
      else do
        let msg ← cfPrintf env ("Node " ++ toString (index + 1) ++ " of list " ++
          showBytes name ++ ": " ++ msg)
        pure (msg, processed)
  | none =>
      if (env.sections sec).flagDynamic then pure (none, processed + r.2)
      else addListNodes env setItem name sec ptr op fuel (index + 1) (number - r.2)
        (pars.drop r.2.toNat) (processed + r.2)

theorem addListNodes_eq (name : CStr) (sec ptr : Nat) (op : CfOperation) (fuel index : Nat)
    (number : Int) (pars : List CStr) (processed : Int) :
    addListNodes env setItem name sec ptr op (fuel + 1) index number pars processed =
      if number ≤ 0 then pure (none, processed)
      else newNode env name sec ptr op >>= fun node =>
        interpretSectionWith env setItem sec number pars node (env.sections sec).flagDynamic >>=
          afterNode env setItem name sec ptr op fuel index number pars processed := by
  rw [addListNodes]
  unfold newNode
  simp only [bind_assoc, pure_bind]
  rfl

theorem addListNodes_capped (hset : SameWhere env C setItem' setItem) (name : CStr) (sec ptr : Nat)
    (op : CfOperation) (fuel index : Nat) {number : Int} {pars : List CStr} (processed : Int)
    {w : World} (h : EachNode env setItem C name sec ptr op fuel number pars w) :
    addListNodes env.capped setItem' name sec ptr op fuel index number pars processed w =
      addListNodes env setItem name sec ptr op fuel index number pars processed w := by
  induction fuel generalizing index number pars processed w with
  | zero => rfl
  | succ fuel ih =>
      rw [addListNodes_eq, addListNodes_eq, newNode_capped, Env.capped_flagDynamic]
      by_cases hdone : number ≤ 0
      · rw [if_pos hdone, if_pos hdone]
      · rw [if_neg hdone, if_neg hdone]
        refine bind_same rfl fun node w' hnode => ?_
        obtain ⟨hsection, hrest⟩ := h (not_le.mp hdone) node w' hnode
        refine bind_same (interpretSectionWith_capped hset sec number pars node _ hsection)
          fun result w'' hrun => ?_
        obtain ⟨msg, taken⟩ := result
        unfold afterNode
        rw [Env.capped_flagDynamic]
        cases msg with
        | some msg => rfl
        | none =>
            dsimp only
            by_cases hdynamic : (env.sections sec).flagDynamic = true
            · rw [if_pos hdynamic, if_pos hdynamic]
            · rw [if_neg hdynamic, if_neg hdynamic]
              exact ih _ _ (hrest taken w'' hrun (Bool.eq_false_iff.mpr hdynamic))

theorem interpretAddListWith_capped (hset : SameWhere env C setItem' setItem) (name : CStr)
    (sec : Nat) (number : Int) (pars : List CStr) (ptr : Nat) (op : CfOperation) {w : World}
    (h : op.code < CfOperation.remove.code →
      EachNode env setItem C name sec ptr op env.fuel number pars w) :
    interpretAddListWith env.capped setItem' name sec number pars ptr op w =
      interpretAddListWith env setItem name sec number pars ptr op w := by
  unfold interpretAddListWith
  by_cases hblock : CfOperation.remove.code ≤ op.code
  · rw [if_pos hblock, if_pos hblock]
    rfl
  · rw [if_neg hblock, if_neg hblock]
    by_cases hzero : number = 0
    · rw [if_pos hzero, if_pos hzero]
    · rw [if_neg hzero, if_neg hzero]
      exact addListNodes_capped hset name sec ptr op env.fuel 0 0 (h (not_le.mp hblock))

theorem parseElement_capped (type : CfType) (str : CStr) (ptr : Nat) :
    parseElement env.capped type str ptr = parseElement env type str ptr := by
  cases type <;> rfl

theorem parseAryFrom_capped (type : CfType) (ptr number k i : Nat) (pars : List CStr) :
    parseAryFrom env.capped type ptr number k i pars =
      parseAryFrom env type ptr number k i pars := by
  induction k generalizing i pars with
  | zero => rfl
  | succ k ih =>
      cases pars with
      | nil => rfl
      | cons str pars =>
          rw [parseAryFrom, parseAryFrom, parseElement_capped]
          refine congrArg _ (funext fun msg => ?_)
          cases msg with
          | none => exact ih (i + 1) pars
          | some msg => rfl

theorem cfParseAry_capped (number : Nat) (pars : List CStr) (ptr : Nat) (type : CfType) :
    cfParseAry env.capped number pars ptr type = cfParseAry env number pars ptr type :=
  parseAryFrom_capped type ptr number number 0 pars

theorem interpretSetDynamic_capped (type : CfType) (number : Nat) (pars : List CStr) (ptr : Nat) :
    interpretSetDynamic env.capped type number pars ptr =
      interpretSetDynamic env type number pars ptr := by
  unfold interpretSetDynamic
  simp only [cfParseAry_capped]
  rfl

theorem fillDynamic_capped (type : CfType) (taken : Int) (pars : List CStr)
    (oldP oldNr newP : Nat) (op : CfOperation) :
    fillDynamic env.capped type taken pars oldP oldNr newP op =
      fillDynamic env type taken pars oldP oldNr newP op := by
  unfold fillDynamic
  simp only [cfParseAry_capped]
  rfl

theorem interpretAddDynamic_capped (item : CfItem) (type : CfType) (number : Int)
    (pars : List CStr) (ptr : Nat) (op : CfOperation) :
    interpretAddDynamic env.capped item type number pars ptr op =
      interpretAddDynamic env item type number pars ptr op := by
  unfold interpretAddDynamic
  simp only [fillDynamic_capped]
  rfl

theorem addBits_capped (type : CfType) (ptr : Nat) (op : CfOperation) (pars : List CStr) :
    addBits env.capped type ptr op pars = addBits env type ptr op pars := by
  induction pars with
  | nil => rfl
  | cons str pars ih =>
      have hbit : bitIndex env.capped type str = bitIndex env type str := by
        cases type <;> rfl
      rw [addBits, addBits, hbit, ih]

theorem interpretAddBitmap_capped (type : CfType) (number : Int) (pars : List CStr) (ptr : Nat)
    (op : CfOperation) :
    interpretAddBitmap env.capped type number pars ptr op =
      interpretAddBitmap env type number pars ptr op := by
  unfold interpretAddBitmap
  simp only [addBits_capped]
  rfl

theorem dupPars_capped (pars : List CStr) : dupPars env.capped pars = dupPars env pars := by
  induction pars with
  | nil => rfl
  | cons str pars ih => exact congrArg (cfStrdup env str >>= ·) (funext fun _ => ih)

theorem interpretSetItem_capped (fuel : Nat) :
    SameWhere env (SetFits env fuel) (interpretSetItem env.capped fuel)
      (interpretSetItem env fuel) := by
  induction fuel with
  | zero => exact fun _ _ _ _ _ _ _ => rfl
  | succ fuel ih =>
      intro ci number pars ptr allowDynamic w h
      unfold SetFits at h
      rw [interpretSetItem, interpretSetItem, Env.cap_cls]
      cases hcls : ci.cls with
      | static type =>
          rw [hcls] at h
          dsimp only at h ⊢
          simp only [h.min_eq hcls, cfParseAry_capped, cfJournalBlock_capped, cfTypeSize_capped]
      | «section» sec =>
          rw [hcls] at h
          exact interpretSectionWith_capped ih sec number pars ptr allowDynamic h
      | list sec =>
          rw [hcls] at h
          dsimp only at h ⊢
          cases allowDynamic with
          | false => rw [if_neg Bool.false_ne_true, if_neg Bool.false_ne_true]
          | true =>
              rw [if_pos rfl, if_pos rfl, Env.cap_name]
              exact interpretAddListWith_capped ih ci.name sec number pars ptr .set fun _ => h rfl
      | dynamic type =>
          rw [Env.cap_of_ne (by rw [hcls]; exact fun _ h => by cases h)]
          simp only [interpretSetDynamic_capped]
      | parser par =>
          rw [Env.cap_of_ne (by rw [hcls]; exact fun _ h => by cases h)]
          simp only [dupPars_capped, Env.capped_parser]
      | bitmap type => simp only [interpretAddBitmap_capped]

/-! ## Operations -/

theorem AssignmentFits.cap_eq {item : CfItem} {type : CfType} (hcls : item.cls = .static type)
    (h : AssignmentFits env item type item.number) : env.cap item = item := by
  rw [Env.cap_static hcls, if_pos]
  rwa [AssignmentFits, min_self] at h

/-- The number of elements counts where an array of strings is cleared. -/
theorem interpretSetAll_capped (item : CfItem) (ptr : Nat) (op : CfOperation)
    (h : op = .clear → ClearFits env item) :
    interpretSetAll env.capped (env.cap item) ptr op = interpretSetAll env item ptr op := by
  by_cases hclear : op = .clear ∧ item.cls = .static .string
  · obtain ⟨hop, hstring⟩ := hclear
    rw [(h hop hstring).cap_eq hstring]
    rfl
  · unfold interpretSetAll
    rw [Env.cap_cls]
    cases hcls : item.cls with
    | static type =>
        cases type with
        | string =>
            have hop : op ≠ .clear := fun hop => hclear ⟨hop, hcls⟩
            dsimp only
            rw [if_pos hop, if_pos hop]
        | _ => rfl
    | _ => rfl

theorem interpretAdd_capped (name : CStr) (item : CfItem) (number : Int) (pars : List CStr)
    (ptr : Nat) (op : CfOperation) {w : World} (h : AddFits env item number pars ptr op w) :
    interpretAdd env.capped name (env.cap item) number pars ptr op w =
      interpretAdd env name item number pars ptr op w := by
  unfold AddFits at h
  unfold interpretAdd
  rw [Env.cap_cls, Env.cap_name]
  cases hcls : item.cls with
  | dynamic type =>
      rw [Env.cap_of_ne (by rw [hcls]; exact fun _ h => by cases h)]
      dsimp only
      rw [interpretAddDynamic_capped]
  | list sec =>
      rw [hcls] at h
      exact interpretAddListWith_capped (interpretSetItem_capped env.fuel) item.name sec number pars
        ptr op h
  | bitmap type =>
      dsimp only
      rw [interpretAddBitmap_capped]
  | static type => rfl
  | «section» sec => rfl
  | parser par => rfl

theorem interpretOperation_capped (name : CStr) (op : CfOperation) (found : Found) (number : Int)
    (pars : List CStr) {w : World} (h : OperationFits env op found number pars w) :
    interpretOperation env.capped name op (env.capFound found) number pars w =
      interpretOperation env name op found number pars w := by
  have hadd : ∀ op, AddFits env found.item number pars found.ptr op w →
      interpretAdd env.capped name (env.cap found.item) number pars found.ptr op w =
        interpretAdd env name found.item number pars found.ptr op w :=
    fun op => interpretAdd_capped name found.item number pars found.ptr op
  cases op with
  | set => exact interpretSetItem_capped env.fuel _ _ _ _ _ _ h
  | clear => exact bind_same (congrFun (interpretSetAll_capped _ _ _ fun _ => h) w) fun _ _ _ => rfl
  | all =>
      refine bind_same (congrFun (interpretSetAll_capped _ _ _ fun hop => ?_) w) fun _ _ _ => rfl
      cases hop
  | reset =>
      obtain ⟨hclear, hafter⟩ := h
      refine bind_same (congrFun (interpretSetAll_capped _ _ _ fun _ => hclear) w) fun msg w' hrun => ?_
      cases msg with
      | some msg => rfl
      | none =>
          exact interpretAdd_capped name found.item number pars found.ptr .append (hafter w' hrun)
  | _ => exact hadd _ h

end OpenAAA.Opt
