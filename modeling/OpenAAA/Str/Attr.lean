import OpenAAA.Mem.List
import OpenAAA.Mem.Pool

/-!
`generic/string/attr.c`: attribute lists. An attribute is a node of a circular list
with a key, a value and flags; key and value are copies in the memory pool of the
list. A string is the block of bytes behind a pointer, and reading it beyond the
end of its block is a fault; `mp_strdup` counts the bytes to copy in 32 bits. The
pool hands out a block that nobody holds, so the nodes are numbered in the order
of their allocation. A list is known by the address of its head.
-/

namespace OpenAAA.Attrs

open Memory Alloc Rings Intrusive

/-- The characters of a C string. -/
structure CString where
  chars : List Byte
  no_nul : 0 ∉ chars
deriving DecidableEq

/-- The block of a C string. -/
def CString.bytes (s : CString) : List Byte := s.chars ++ [0]

/-- `!strcmp(s, t)` -/
def strEq : List Byte → List Byte → Except Fault Bool
  | a :: as, b :: bs => if a ≠ b then .ok false else if a = 0 then .ok true else strEq as bs
  | _, _ => .error .unmapped

def strlen : List Byte → Except Fault Nat
  | [] => .error .unmapped
  | c :: cs =>
      if c = 0 then .ok 0
      else match strlen cs with
        | .error fault => .error fault
        | .ok n => .ok (n + 1)

/-- `mp_strdup` of a string that is not `NULL`: the block of the copy. -/
def mpStrdup (s : List Byte) : Except Fault (List Byte) :=
  match strlen s with
  | .error fault => .error fault
  | .ok n =>
      let l := (n + 1) % 2 ^ 32
      if l ≤ Pool.mpSizeMax then .ok (s.take l) else .error .die

/-- `ATTR_CHANGED` -/
def attrChanged : Nat := 0x2

/-- `struct attr` without its node. A key that is not set is the empty block. -/
structure Attr where
  key : List Byte
  val : Option (List Byte)
  flags : Nat
deriving DecidableEq

/-- The value is replaced and flags are added. -/
def Attr.store (attr : Attr) (mark : Nat) (val : Option (List Byte)) : Attr :=
  { attr with val := val, flags := attr.flags ||| mark }

/-- The links of all nodes, the attributes, and the number of the next node. -/
structure Store where
  links : Links
  attr : Nat → Attr
  fresh : Nat

def Store.setAttr (s : Store) (a : Nat) (attr : Attr) : Store :=
  { s with attr := Function.update s.attr a attr }

theorem Store.setAttr_self (s : Store) (a : Nat) (attr : Attr) : (s.setAttr a attr).attr a = attr :=
  Function.update_self _ _ _

theorem Store.setAttr_of_ne (s : Store) {a n : Nat} (h : n ≠ a) (attr : Attr) :
    (s.setAttr a attr).attr n = s.attr n :=
  Function.update_of_ne h _ _

/-- A cleared attribute with a key, at the tail of a list. -/
def Store.addAttr (s : Store) (list : Nat) (key : List Byte) : Store where
  links := listAddTail s.links list s.fresh
  attr := Function.update s.attr s.fresh ⟨key, none, 0⟩
  fresh := s.fresh + 1

/-- `list_for_each` of `attr_lookup` and `attr_find`. No list has more nodes than there
are. -/
def findFrom (s : Store) (list : Nat) (key : List Byte) : Nat → Nat → Except Fault (Option Nat)
  | 0, _ => .error .endless
  | fuel + 1, a =>
      if a = list then .ok none
      else match strEq (s.attr a).key key with
        | .error fault => .error fault
        | .ok true => .ok (some a)
        | .ok false => findFrom s list key fuel (s.links.next a)

/-- `attr_find` -/
def attrFind (s : Store) (list : Nat) (key : List Byte) : Except Fault (Option Nat) :=
  findFrom s list key (s.fresh + 1) (s.links.next list)

/-- `attr_lookup` -/
def attrLookup (s : Store) (list : Nat) (key : List Byte) (create : Bool) :
    Except Fault (Option Nat × Store) :=
  match attrFind s list key with
  | .error fault => .error fault
  | .ok (some a) => .ok (some a, s)
  | .ok none =>
      if !create then .ok (none, s)
      else match mpStrdup key with
        | .error fault => .error fault
        | .ok copy => .ok (some s.fresh, s.addAttr list copy)

/-- `val ? mp_strdup(list->mp, val) : NULL` -/
def dupVal : Option (List Byte) → Except Fault (Option (List Byte))
  | none => .ok none
  | some val =>
      match mpStrdup val with
      | .error fault => .error fault
      | .ok copy => .ok (some copy)

/-- What `attr_set` and `attr_raw_set` share: the attribute is looked up or created, gets
the value, and some flags are added. -/
def attrStore (mark : Nat) (s : Store) (list : Nat) (key : List Byte) (val : Option (List Byte)) :
    Except Fault Store :=
  match attrLookup s list key true with
  | .error fault => .error fault
  | .ok (none, _) => .error .nullPointer
  | .ok (some a, s) =>
      match dupVal val with
      | .error fault => .error fault
      | .ok val => .ok (s.setAttr a ((s.attr a).store mark val))

/-- `attr_set` -/
def attrSet := attrStore attrChanged

/-- `attr_raw_set` -/
def attrRawSet := attrStore 0

/-- `attr_get` -/
def attrGet (s : Store) (list : Nat) (key : List Byte) : Except Fault (Option (List Byte)) :=
  match attrLookup s list key false with
  | .error fault => .error fault
  | .ok (none, _) => .ok none
  | .ok (some a, s) => .ok (s.attr a).val

/-- `list_for_each` of `attr_list_merge`. -/
def mergeFrom (src dst : Nat) : Nat → Nat → Store → Except Fault Store
  | 0, _, _ => .error .endless
  | fuel + 1, a, s =>
      if a = src then .ok s
      else match attrSet s dst (s.attr a).key (s.attr a).val with
        | .error fault => .error fault
        | .ok s => mergeFrom src dst fuel (s.links.next a) s

/-- `attr_list_merge` -/
def attrListMerge (s : Store) (src dst : Nat) : Except Fault Store :=
  mergeFrom src dst (s.fresh + 1) (s.links.next src) s

/-! ## Strings and their copies -/

/-- The string can be copied: `mp_strdup` has room for it and its terminator. -/
def CString.Fits (s : CString) : Prop := s.chars.length + 1 ≤ Pool.mpSizeMax

instance (s : CString) : Decidable s.Fits := inferInstanceAs (Decidable (_ ≤ _))

theorem CString.bytes_injective {s t : CString} (h : s.bytes = t.bytes) : s = t := by
  obtain ⟨s, hs⟩ := s
  obtain ⟨t, ht⟩ := t
  have hchars : s = t := List.append_cancel_right h
  subst hchars
  rfl

theorem strEq_chars {s t : List Byte} (hs : 0 ∉ s) (ht : 0 ∉ t) :
    strEq (s ++ [0]) (t ++ [0]) = .ok (decide (s = t)) := by
  induction s generalizing t with
  | nil =>
      cases t with
      | nil => rfl
      | cons b bs =>
          have hb : (0 : Byte) ≠ b := fun h => ht (by simp [h])
          rw [List.nil_append, List.cons_append, strEq, if_pos hb]
          simp
  | cons a as ih =>
      have ha : a ≠ 0 := fun h => hs (by simp [h])
      cases t with
      | nil =>
          rw [List.nil_append, List.cons_append, strEq, if_pos ha]
          simp
      | cons b bs =>
          have htail := ih (fun h => hs (List.mem_cons_of_mem _ h))
            (fun h => ht (List.mem_cons_of_mem _ h))
          rw [List.cons_append, List.cons_append, strEq]
          by_cases hab : a = b
          · subst hab
            rw [if_neg (fun h => h rfl), if_neg ha, htail]
            simp
          · rw [if_pos hab]
            simp [hab]

theorem strEq_bytes (s t : CString) : strEq s.bytes t.bytes = .ok (decide (s = t)) := by
  rw [CString.bytes, CString.bytes, strEq_chars s.no_nul t.no_nul]
  congr 2
  exact propext ⟨fun h => CString.bytes_injective (by simp [CString.bytes, h]), fun h => by rw [h]⟩

theorem strlen_chars {s : List Byte} (hs : 0 ∉ s) : strlen (s ++ [0]) = .ok s.length := by
  induction s with
  | nil => simp [strlen]
  | cons c cs ih =>
      have hc : c ≠ 0 := fun h => hs (by simp [h])
      rw [List.cons_append, strlen, if_neg hc, ih (fun h => hs (List.mem_cons_of_mem _ h))]
      rfl

theorem mpSizeMax_lt : Pool.mpSizeMax < 2 ^ 32 := by decide

theorem mpStrdup_fits {s : CString} (h : s.Fits) : mpStrdup s.bytes = .ok s.bytes := by
  have hmax := mpSizeMax_lt
  have hl : (s.chars.length + 1) % 2 ^ 32 = s.chars.length + 1 :=
    Nat.mod_eq_of_lt (Nat.lt_of_le_of_lt h hmax)
  have hcopy : s.bytes.take (s.chars.length + 1) = s.bytes :=
    List.take_of_length_le (by simp [CString.bytes])
  have hfits : s.chars.length + 1 ≤ Pool.mpSizeMax := h
  simp only [mpStrdup, CString.bytes, strlen_chars s.no_nul, hl]
  rw [if_pos hfits]
  exact congrArg Except.ok hcopy

/-- A copy of a string that does not fit has no terminator, or there is none. -/
theorem mpStrdup_cut {s : CString} (h : ¬ s.Fits) {copy : List Byte}
    (hcopy : mpStrdup s.bytes = .ok copy) : 0 ∉ copy := by
  have hcut : (s.chars.length + 1) % 2 ^ 32 ≤ s.chars.length := by
    simp only [mpStrdup, CString.bytes, strlen_chars s.no_nul] at hcopy
    split at hcopy
    · next hle =>
        have hlt : ¬ s.chars.length + 1 ≤ Pool.mpSizeMax := h
        by_contra hgt
        have heq : (s.chars.length + 1) % 2 ^ 32 = s.chars.length + 1 :=
          Nat.le_antisymm (Nat.mod_le _ _) (by omega)
        omega
    · exact absurd hcopy nofun
  simp only [mpStrdup, CString.bytes, strlen_chars s.no_nul] at hcopy
  split at hcopy
  · have heq : (s.chars ++ [0]).take ((s.chars.length + 1) % 2 ^ 32) = copy := Except.ok.inj hcopy
    rw [← heq, List.take_append_of_le_length hcut]
    exact fun hin => s.no_nul (List.mem_of_mem_take hin)
  · exact absurd hcopy nofun

end OpenAAA.Attrs
