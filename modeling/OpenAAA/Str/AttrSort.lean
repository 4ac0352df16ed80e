import OpenAAA.Lib.Selection
import OpenAAA.Mem.ListRuns
import OpenAAA.Str.Attr

/-!
`attr_list_sort` of `generic/string/attr.c`. The nodes in front of the cursor are sorted.
The first of the least attributes from the cursor on is found; if it is not the one at the
cursor it is taken out and put in in front of the cursor, which then stays, so that in
either case one node less is left. The loops are given a number of turns.
-/

namespace OpenAAA.Attrs

open Memory Alloc Rings Intrusive Selection

/-- `strcmp(s, t) < 0` -/
def strLt : List Byte → List Byte → Except Fault Bool
  | a :: as, b :: bs =>
      if a ≠ b then .ok (decide (a.toNat < b.toNat)) else if a = 0 then .ok false else strLt as bs
  | _, _ => .error .unmapped

/-- The inner loop of `attr_list_sort`. -/
def leastFrom (s : Store) (list : Nat) : Nat → Nat → Nat → Except Fault Nat
  | 0, _, _ => .error .endless
  | fuel + 1, z, y =>
      match listNext s.links list y with
      | none => .ok z
      | some y =>
          match strLt (s.attr y).key (s.attr z).key with
          | .error fault => .error fault
          | .ok true => leastFrom s list fuel y y
          | .ok false => leastFrom s list fuel z y

/-- The outer loop of `attr_list_sort`. -/
def sortFrom (list turns : Nat) : Nat → Option Nat → Store → Except Fault Store
  | 0, _, _ => .error .endless
  | _ + 1, none, s => .ok s
  | fuel + 1, some x, s =>
      match leastFrom s list turns x x with
      | .error fault => .error fault
      | .ok z =>
          if x = z then sortFrom list turns fuel (listNext s.links list x) s
          else
            let links := listRemove s.links z
            let links := listInsertBefore links z x
            sortFrom list turns fuel (some x) { s with links := links }

/-- `attr_list_sort` -/
def attrListSort (turns : Nat) (s : Store) (list : Nat) : Except Fault Store :=
  sortFrom list turns turns (listHead s.links list) s

/-! ## The order of the keys -/

/-- The characters of a block up to its terminator, as numbers. -/
def order (block : List Byte) : List Nat := (block.takeWhile (· ≠ 0)).map BitVec.toNat

theorem order_bytes (s : CString) : order s.bytes = s.chars.map BitVec.toNat := by
  have hall : ∀ c ∈ s.chars, decide (c ≠ 0) = true := by
    intro c hc
    exact decide_eq_true fun heq => s.no_nul (heq ▸ hc)
  rw [order, CString.bytes, List.takeWhile_append_of_pos hall]
  simp

theorem strLt_chars {s t : List Byte} (hs : 0 ∉ s) (ht : 0 ∉ t) :
    strLt (s ++ [0]) (t ++ [0]) = .ok (decide (s.map BitVec.toNat < t.map BitVec.toNat)) := by
  induction s generalizing t with
  | nil =>
      cases t with
      | nil => rfl
      | cons b bs =>
          have hb : (0 : Byte) ≠ b := fun h => ht (by simp [h])
          have hpos : 0 < b.toNat := Nat.pos_of_ne_zero fun h =>
            hb (BitVec.eq_of_toNat_eq (by rw [h]; rfl))
          rw [List.nil_append, List.cons_append, strLt, if_pos hb]
          simp [hpos]
  | cons a as ih =>
      have ha : a ≠ 0 := fun h => hs (by simp [h])
      cases t with
      | nil =>
          rw [List.nil_append, List.cons_append, strLt, if_pos ha]
          simp
      | cons b bs =>
          have htail := ih (fun h => hs (List.mem_cons_of_mem _ h))
            (fun h => ht (List.mem_cons_of_mem _ h))
          rw [List.cons_append, List.cons_append, strLt]
          by_cases hab : a = b
          · subst hab
            rw [if_neg (fun h => h rfl), if_neg ha, htail]
            simp
          · have hne : a.toNat ≠ b.toNat := fun h => hab (BitVec.eq_of_toNat_eq h)
            rw [if_pos hab]
            simp [List.cons_lt_cons_iff, hne]

theorem strLt_bytes (s t : CString) :
    strLt s.bytes t.bytes = .ok (decide (order s.bytes < order t.bytes)) := by
  rw [order_bytes, order_bytes, CString.bytes, CString.bytes, strLt_chars s.no_nul t.no_nul]

theorem order_injective {s t : CString} (h : order s.bytes = order t.bytes) : s = t := by
  rw [order_bytes, order_bytes] at h
  have hchars : s.chars = t.chars :=
    List.map_injective_iff.mpr (fun _ _ heq => BitVec.eq_of_toNat_eq heq) h
  apply CString.bytes_injective
  rw [CString.bytes, CString.bytes, hchars]

/-! ## The loops -/

/-- The key by which an attribute is sorted. -/
def sortKey (s : Store) (n : Nat) : List Nat := order (s.attr n).key

/-- The keys of the attributes are strings. -/
def Keyed (s : Store) (nodes : List Nat) : Prop :=
  ∀ n ∈ nodes, ∃ key : CString, (s.attr n).key = key.bytes

section Loops

variable {s : Store} {list : Nat} {nodes us vs xs : List Nat} {A : Seqs}

theorem Keyed.strLt (h : Keyed s nodes) {a b : Nat} (ha : a ∈ nodes) (hb : b ∈ nodes) :
    strLt (s.attr a).key (s.attr b).key = .ok (decide (sortKey s a < sortKey s b)) := by
  obtain ⟨key, hkey⟩ := h a ha
  obtain ⟨key', hkey'⟩ := h b hb
  rw [sortKey, sortKey, hkey, hkey', strLt_bytes]

/-- Strings are equal when they are equal in the order. -/
theorem Keyed.filter_key (h : Keyed s nodes) (key : CString) :
    nodes.filter (fun n => (s.attr n).key = key.bytes) =
      nodes.filter (fun n => sortKey s n = order key.bytes) := by
  apply List.filter_congr
  intro n hn
  obtain ⟨key', hkey'⟩ := h n hn
  rw [sortKey, hkey']
  congr 1
  refine propext ⟨fun heq => by rw [heq], fun heq => ?_⟩
  rw [order_injective heq]

/-- No key is a block that is no string. -/
theorem Keyed.filter_block (h : Keyed s nodes) {block : List Byte}
    (hblock : ∀ key : CString, block ≠ key.bytes) :
    nodes.filter (fun n => (s.attr n).key = block) = [] := by
  rw [List.filter_eq_nil_iff]
  intro n hn heq
  obtain ⟨key, hkey⟩ := h n hn
  exact hblock key ((of_decide_eq_true heq).symm.trans hkey)

/-- The inner loop finds the first of the least attributes. -/
theorem leastFrom_eq {y z fuel : Nat} {ys : List Nat} (hring : IsRing s.links list (us ++ y :: ys))
    (hkeyed : Keyed s (us ++ y :: ys)) (hz : z ∈ us ++ y :: ys) (hfuel : ys.length < fuel) :
    leastFrom s list fuel z y = .ok (firstMin (sortKey s) z ys) := by
  induction ys generalizing us y z fuel with
  | nil =>
      obtain ⟨fuel, rfl⟩ := Nat.exists_eq_succ_of_ne_zero (Nat.ne_of_gt hfuel)
      rw [leastFrom, listNext_of_isRing hring]
      rfl
  | cons y' ys ih =>
      obtain ⟨fuel, rfl⟩ := Nat.exists_eq_succ_of_ne_zero (Nat.ne_of_gt (Nat.zero_lt_of_lt hfuel))
      have hy' : y' ∈ us ++ y :: y' :: ys := by simp
      have hcmp := hkeyed.strLt hy' hz
      have hstep := listNext_of_isRing hring
      have hshort : ys.length < fuel := by simpa using hfuel
      rw [List.append_cons] at hring hkeyed hz hy'
      rw [leastFrom, hstep, List.head?_cons]
      simp only [hcmp]
      by_cases hlt : sortKey s y' < sortKey s z
      · rw [decide_eq_true hlt, firstMin, if_pos hlt]
        exact ih hring hkeyed hy' hshort
      · rw [decide_eq_false hlt, firstMin, if_neg hlt]
        exact ih hring hkeyed hz hshort

/-- The least attribute is taken out and put in in front of the cursor. -/
theorem represents_moved {x z : Nat} {ps qs : List Nat} (hR : Represents s.links A)
    (hlist : A list = some (us ++ x :: (ps ++ z :: qs))) :
    Represents (listInsertBefore (listRemove s.links z) z x)
      (A.set list (us ++ z :: x :: (ps ++ qs))) := by
  have hsplit : A list = some ((us ++ x :: ps) ++ z :: qs) := by simpa using hlist
  have hnodup := (hR.ring list _ hlist).nodup
  have hne : x ≠ z := by
    rintro rfl
    simp [List.nodup_append] at hnodup
  obtain ⟨hout, hfree⟩ := listRemove_represents hR (n := z) ⟨list, _, hsplit, by simp⟩
  have hheld : (A.erase z).Held x :=
    (hR.held_erase hsplit (by simp)).mpr ⟨⟨list, _, hlist, by simp⟩, hne⟩
  have hin := listInsertBefore_represents hout (detached_of_not_held hfree) hheld hne
  have herase := hR.erase_eq hsplit
  have hshort : A.erase z list = some (us ++ x :: (ps ++ qs)) := by
    rw [herase]
    simp [Seqs.set]
  have hring := hout.ring list _ hshort
  rw [forget_of_not_held hfree, hout.insertBefore_eq_set hshort (by simp)] at hin
  have hcons : list :: Seqs.insertedBefore x [z] list (us ++ x :: (ps ++ qs)) =
      (list :: us) ++ ([z] ++ x :: (ps ++ qs)) :=
    Seqs.cons_insertedBefore hring.nodup rfl (by simp)
  have hnodes : Seqs.insertedBefore x [z] list (us ++ x :: (ps ++ qs)) =
      us ++ z :: x :: (ps ++ qs) := by
    simpa using hcons
  rw [hnodes, herase] at hin
  have hset : (A.set list ((us ++ x :: ps) ++ qs)).set list (us ++ z :: x :: (ps ++ qs)) =
      A.set list (us ++ z :: x :: (ps ++ qs)) := Function.update_idem _ _ _
  rwa [hset] at hin

/-- The outer loop selects from what is left behind the cursor. -/
theorem sortFrom_sorts {turns fuel : Nat} (hR : Represents s.links A)
    (hlist : A list = some (us ++ vs)) (hkeyed : Keyed s (us ++ vs))
    (hselected : Selected (sortKey s) xs us vs) (hturns : vs.length ≤ turns)
    (hfuel : vs.length < fuel) :
    ∃ s' ws, sortFrom list turns fuel vs.head? s = .ok s' ∧ Represents s'.links (A.set list ws) ∧
      s'.attr = s.attr ∧ s'.fresh = s.fresh ∧ StableSort (sortKey s) xs ws := by
  -- Every turn leaves one node less behind the cursor.
  induction fuel generalizing s A us vs with
  | zero => omega
  | succ fuel ih =>
      cases vs with
      | nil =>
          rw [List.append_nil] at hlist
          refine ⟨s, us, rfl, ?_, rfl, rfl, hselected.done⟩
          rw [Seqs.set_of_eq hlist]
          exact hR
      | cons x vs =>
          have hring := hR.ring list _ hlist
          have hleast := leastFrom_eq hring hkeyed (show x ∈ us ++ x :: vs by simp)
            (show vs.length < turns by simpa using hturns)
          obtain ⟨ps, qs, hsplit, hps, hqs⟩ := firstMin_split (sortKey s) x vs
          rw [List.length_cons] at hturns hfuel
          rw [List.head?_cons, sortFrom]
          simp only [hleast]
          cases ps with
          | nil =>
              obtain ⟨hx, rfl⟩ : x = firstMin (sortKey s) x vs ∧ vs = qs := by simpa using hsplit
              rw [if_pos hx, listNext_of_isRing hring]
              rw [← hx] at hqs
              have hselect := hselected.select [] (by simp) hqs
              rw [List.append_cons] at hlist hkeyed
              exact ih hR hlist hkeyed hselect (by omega) (by omega)
          | cons p ps =>
              obtain ⟨rfl, hrest⟩ : x = p ∧ vs = ps ++ firstMin (sortKey s) x vs :: qs := by
                simpa using hsplit
              have hne : x ≠ firstMin (sortKey s) x vs := by
                intro heq
                have hlt := hps x List.mem_cons_self
                rw [← heq] at hlt
                exact absurd hlt (lt_irrefl _)
              rw [if_neg hne]
              generalize hz : firstMin (sortKey s) x vs = z at *
              subst hrest
              have hselect := hselected.select (x :: ps) hps hqs
              have hmoved := represents_moved hR hlist
              have hkeyed' : Keyed s (us ++ [z] ++ x :: (ps ++ qs)) := by
                intro n hn
                apply hkeyed n
                simp only [List.mem_append, List.mem_cons] at hn ⊢
                tauto
              rw [List.length_append, List.length_cons] at hturns hfuel
              obtain ⟨s', ws, hrun, hR', hattr, hfresh, hsorted⟩ :=
                @ih { s with links := listInsertBefore (listRemove s.links z) z x } _ _ _ hmoved
                  (by simp [Seqs.set]) hkeyed' hselect (by simp; omega) (by simp; omega)
              refine ⟨s', ws, hrun, ?_, hattr, hfresh, hsorted⟩
              have hset : (A.set list (us ++ z :: x :: (ps ++ qs))).set list ws = A.set list ws :=
                Function.update_idem _ _ _
              rwa [hset] at hR'

/-- On a sorted list nothing moves. -/
theorem sortFrom_sorted {turns fuel : Nat} (hring : IsRing s.links list (us ++ vs))
    (hkeyed : Keyed s (us ++ vs)) (hsorted : vs.Pairwise fun a b => sortKey s a ≤ sortKey s b)
    (hturns : vs.length ≤ turns) (hfuel : vs.length < fuel) :
    sortFrom list turns fuel vs.head? s = .ok s := by
  induction vs generalizing us fuel with
  | nil =>
      obtain ⟨fuel, rfl⟩ := Nat.exists_eq_succ_of_ne_zero (Nat.ne_of_gt hfuel)
      rfl
  | cons x vs ih =>
      obtain ⟨fuel, rfl⟩ := Nat.exists_eq_succ_of_ne_zero (Nat.ne_of_gt (Nat.zero_lt_of_lt hfuel))
      rw [List.length_cons] at hturns hfuel
      obtain ⟨hfirst, hrest⟩ := List.pairwise_cons.mp hsorted
      have hleast := leastFrom_eq hring hkeyed (show x ∈ us ++ x :: vs by simp)
        (show vs.length < turns by omega)
      rw [firstMin_of_le (sortKey s) hfirst] at hleast
      rw [List.head?_cons, sortFrom]
      simp only [hleast]
      rw [if_pos True.intro, listNext_of_isRing hring]
      rw [List.append_cons] at hring hkeyed
      exact ih hring hkeyed hrest (by omega) (by omega)

end Loops

/-- `attr_list_sort` returns, and all lists are as before but for the sorted one: it has the same
attributes, unchanged, in the order that `strcmp` gives their keys and those of one key in the
order they had. Sorting again changes nothing. -/
theorem attrListSort_sorts {A : Seqs} {s : Store} {list turns : Nat} {nodes : List Nat}
    (hR : Represents s.links A) (hlist : A list = some nodes) (hkeyed : Keyed s nodes)
    (hturns : nodes.length < turns) :
    ∃ s' nodes', attrListSort turns s list = .ok s' ∧
      Represents s'.links (A.set list nodes') ∧ IsRing s'.links list nodes' ∧
      s'.attr = s.attr ∧ s'.fresh = s.fresh ∧ nodes'.Perm nodes ∧
      nodes'.Pairwise (fun a b => strLt (s.attr b).key (s.attr a).key = .ok false) ∧
      (∀ key, nodes'.filter (fun n => (s.attr n).key = key) =
        nodes.filter (fun n => (s.attr n).key = key)) ∧
      attrListSort turns s' list = .ok s' := by
  obtain ⟨s', nodes', hrun, hR', hattr, hfresh, hsort⟩ :=
    @sortFrom_sorts s list [] nodes nodes A turns turns hR hlist hkeyed (Selected.start nodes)
      (by omega) hturns
  have hring := hR'.ring list nodes' (by simp [Seqs.set])
  have hkeyed' : Keyed s nodes' := fun n hn => hkeyed n (hsort.perm.mem_iff.mp hn)
  refine ⟨s', nodes', ?_, hR', hring, hattr, hfresh, hsort.perm, ?_, ?_, ?_⟩
  · rw [attrListSort, listHead_of_isRing (hR.ring list nodes hlist)]
    exact hrun
  · refine hsort.sorted.imp_of_mem ?_
    intro a b ha hb hle
    rw [hkeyed'.strLt hb ha, decide_eq_false (not_lt_of_ge hle)]
  · intro block
    by_cases hstring : ∃ key : CString, block = key.bytes
    · obtain ⟨key, rfl⟩ := hstring
      rw [hkeyed'.filter_key key, hkeyed.filter_key key]
      convert hsort.stable (order key.bytes)
    · rw [hkeyed'.filter_block (not_exists.mp hstring), hkeyed.filter_block (not_exists.mp hstring)]
  · have hkeyed'' : Keyed s' nodes' := by
      intro n hn
      rw [hattr]
      exact hkeyed' n hn
    have hsorted : nodes'.Pairwise fun a b => sortKey s' a ≤ sortKey s' b := by
      simpa only [sortKey, hattr] using hsort.sorted
    have hlen := hsort.perm.length_eq
    rw [attrListSort, listHead_of_isRing hring]
    exact @sortFrom_sorted s' list [] nodes' turns turns hring hkeyed'' hsorted (by omega) (by omega)

/-- A list with the head 0 and attributes with the keys "b" and "a". -/
def twoAttrs : Store where
  links := ⟨fun n => if n = 0 then 1 else if n = 1 then 2 else 0,
    fun n => if n = 0 then 2 else if n = 2 then 1 else 0⟩
  attr := fun n => ⟨if n = 1 then [98, 0] else [97, 0], none, 0⟩
  fresh := 3

def twoNodes : Seqs := Seqs.set (fun _ => none) 0 [1, 2]

theorem represents_twoAttrs : Represents twoAttrs.links twoNodes := by
  have honly : ∀ h ns, twoNodes h = some ns → h = 0 ∧ ns = [1, 2] := by
    intro h ns hA
    by_cases hh : h = 0
    · subst hh
      exact ⟨rfl, (Option.some.inj hA).symm⟩
    · simp [twoNodes, Seqs.set, hh] at hA
  constructor
  · intro h ns hA
    obtain ⟨rfl, rfl⟩ := honly h ns hA
    exact ⟨by decide, rfl, rfl, rfl, rfl, rfl, rfl⟩
  · intro h k ns ms x hA hA' _ _
    rw [(honly h ns hA).1, (honly k ms hA').1]

theorem keyed_twoAttrs : Keyed twoAttrs [1, 2] := by
  intro n hn
  simp only [List.mem_cons, List.not_mem_nil, or_false] at hn
  rcases hn with rfl | rfl
  · exact ⟨⟨[98], by decide⟩, rfl⟩
  · exact ⟨⟨[97], by decide⟩, rfl⟩

/-- Two attributes are sorted. -/
theorem attrListSort_sorts_two : twoNodes 0 = some [1, 2] ∧
    ∃ s' nodes', attrListSort 3 twoAttrs 0 = .ok s' ∧ IsRing s'.links 0 nodes' ∧
      nodes'.Perm [1, 2] := by
  obtain ⟨s', nodes', hsort, -, hring, -, -, hperm, -⟩ :=
    attrListSort_sorts represents_twoAttrs (show twoNodes 0 = some [1, 2] from rfl) keyed_twoAttrs
      (show [1, 2].length < 3 by decide)
  exact ⟨rfl, s', nodes', hsort, hring, hperm⟩

end OpenAAA.Attrs
