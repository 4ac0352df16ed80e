import OpenAAA.Lib.Runs
import OpenAAA.Str.Attr

/-!
Attribute lists as ordered maps. A user of the lists sees for every one of them a
list of entries: key, value and whether the entry is marked. Every call of the
library is one of two steps on the entries of one list: a key is touched, or the
entry of a key is stored to.
-/

namespace OpenAAA.Attrs

open Memory Alloc Rings Intrusive Runs

/-- One attribute, in the terms of its users. -/
structure Entry where
  key : CString
  val : Option CString
  changed : Bool
deriving DecidableEq

def markFlag (changed : Bool) : Nat := if changed then attrChanged else 0

def Entry.attr (e : Entry) : Attr := ⟨e.key.bytes, e.val.map CString.bytes, markFlag e.changed⟩

def Entry.Fits (e : Entry) : Prop := e.key.Fits ∧ ∀ v ∈ e.val, v.Fits

/-- A key is added at the end when it is not there. -/
def touch (k : CString) (es : List Entry) : List Entry :=
  if k ∈ es.map (·.key) then es else es ++ [⟨k, none, false⟩]

/-- The entry of a key gets a value, and possibly the mark. -/
def storeAt (mark : Bool) (k : CString) (v : Option CString) (es : List Entry) : List Entry :=
  es.map (fun e => if e.key = k then { e with val := v, changed := e.changed || mark } else e)

theorem storeAt_cons (mark : Bool) (k : CString) (v : Option CString) (e : Entry) (es : List Entry) :
    storeAt mark k v (e :: es) =
      (if e.key = k then { e with val := v, changed := e.changed || mark } else e) ::
        storeAt mark k v es := rfl

/-- The heads, the nodes of every list and its entries. Lists share no node. -/
structure Holds (heads : List Nat) (s : Store) (nodes : Nat → List Nat)
    (entries : Nat → List Entry) : Prop where
  ring : ∀ h ∈ heads, IsRing s.links h (nodes h)
  attrs : ∀ h ∈ heads, (nodes h).map s.attr = (entries h).map Entry.attr
  bound : ∀ h ∈ heads, ∀ n ∈ h :: nodes h, n < s.fresh
  apart : ∀ h ∈ heads, ∀ h' ∈ heads, h ≠ h' → ∀ n ∈ h :: nodes h, n ∉ h' :: nodes h'
  keys_nodup : ∀ h ∈ heads, ((entries h).map (·.key)).Nodup
  fits : ∀ h ∈ heads, ∀ e ∈ entries h, e.Fits

section Lookup

variable {heads : List Nat} {s : Store} {nodes : Nat → List Nat} {entries : Nat → List Entry}
  {h : Nat}

/-- The walk from behind a node of a list finds the first node with the key. -/
theorem findFrom_path {list a fuel : Nat} {ns : List Nat} (k : CString)
    (hpath : Path s.links a ns list) (hlist : list ∉ ns)
    (hkeys : ∀ n ∈ ns, ∃ c : CString, (s.attr n).key = c.bytes) (hfuel : ns.length < fuel) :
    findFrom s list k.bytes fuel (s.links.next a) =
      .ok (ns.find? (fun n => (s.attr n).key = k.bytes)) := by
  induction ns generalizing a fuel with
  | nil =>
      obtain ⟨fuel, rfl⟩ : ∃ f, fuel = f + 1 := ⟨fuel - 1, by simp at hfuel; omega⟩
      rw [hpath.1, findFrom, if_pos rfl]
      rfl
  | cons n ns ih =>
      obtain ⟨hnext, _, htail⟩ := hpath
      obtain ⟨fuel, rfl⟩ : ∃ f, fuel = f + 1 := ⟨fuel - 1, by simp at hfuel; omega⟩
      have hne : n ≠ list := fun heq => hlist (by simp [heq])
      obtain ⟨c, hc⟩ := hkeys n List.mem_cons_self
      rw [hnext, findFrom, if_neg hne, hc, strEq_bytes]
      by_cases hck : c = k
      · simp [hck, hc]
      · have hbytes : c.bytes ≠ k.bytes := fun heq => hck (CString.bytes_injective heq)
        have hrest := ih htail (fun hin => hlist (List.mem_cons_of_mem _ hin))
          (fun m hm => hkeys m (List.mem_cons_of_mem _ hm)) (Nat.lt_of_succ_lt_succ hfuel)
        simp [hck, hc, hbytes, hrest]

theorem Holds.key_bytes (hs : Holds heads s nodes entries) (hh : h ∈ heads) :
    ∀ n ∈ nodes h, ∃ e ∈ entries h, s.attr n = e.attr := by
  intro n hn
  have hmem : s.attr n ∈ (entries h).map Entry.attr := by
    rw [← hs.attrs h hh]
    exact List.mem_map_of_mem hn
  obtain ⟨e, he, heq⟩ := List.mem_map.mp hmem
  exact ⟨e, he, heq.symm⟩

/-- There are no more nodes than were handed out. -/
theorem length_lt_of_fresh {fresh : Nat} {ns : List Nat} (hnodup : ns.Nodup)
    (hbound : ∀ n ∈ ns, n < fresh) : ns.length < fresh + 1 := by
  have hsub : ns ⊆ List.range fresh := fun n hn => List.mem_range.mpr (hbound n hn)
  have hle := (List.subperm_of_subset hnodup hsub).length_le
  rw [List.length_range] at hle
  omega

theorem Holds.length_lt (hs : Holds heads s nodes entries) (hh : h ∈ heads) :
    (nodes h).length < s.fresh + 1 := by
  have hnodup : (nodes h).Nodup := (List.nodup_cons.mp (hs.ring h hh).nodup).2
  exact length_lt_of_fresh hnodup fun n hn => hs.bound h hh n (List.mem_cons_of_mem _ hn)

theorem Holds.attrFind_eq (hs : Holds heads s nodes entries) (hh : h ∈ heads) (k : CString) :
    attrFind s h k.bytes = .ok ((nodes h).find? (fun n => (s.attr n).key = k.bytes)) := by
  have hring := hs.ring h hh
  refine findFrom_path k hring.path (List.nodup_cons.mp hring.nodup).1 ?_ (hs.length_lt hh)
  intro n hn
  obtain ⟨e, _, heq⟩ := hs.key_bytes hh n hn
  exact ⟨e.key, by rw [heq]; rfl⟩

theorem Holds.map_keys (hs : Holds heads s nodes entries) (hh : h ∈ heads) :
    (nodes h).map (fun n => (s.attr n).key) = (entries h).map (fun e => e.key.bytes) := by
  have hmap := congrArg (List.map Attr.key) (hs.attrs h hh)
  rw [List.map_map, List.map_map] at hmap
  exact hmap

/-- A node with the key is found exactly when the list has the key. -/
theorem Holds.find_isSome (hs : Holds heads s nodes entries) (hh : h ∈ heads) (k : CString) :
    (∃ n ∈ nodes h, (s.attr n).key = k.bytes) ↔ k ∈ (entries h).map (·.key) := by
  constructor
  · rintro ⟨n, hn, heq⟩
    obtain ⟨e, he, hattr⟩ := hs.key_bytes hh n hn
    have hek : e.key = k := CString.bytes_injective (by rw [← heq, hattr]; rfl)
    exact List.mem_map.mpr ⟨e, he, hek⟩
  · intro hk
    obtain ⟨e, he, rfl⟩ := List.mem_map.mp hk
    have hmem : e.key.bytes ∈ (nodes h).map (fun n => (s.attr n).key) := by
      rw [hs.map_keys hh]
      exact List.mem_map.mpr ⟨e, he, rfl⟩
    obtain ⟨n, hn, heq⟩ := List.mem_map.mp hmem
    exact ⟨n, hn, heq⟩

/-- No two nodes of a list have one key. -/
theorem Holds.only_node (hs : Holds heads s nodes entries) (hh : h ∈ heads) {a : Nat} {k : CString}
    (ha : a ∈ nodes h) (hkey : (s.attr a).key = k.bytes) :
    ∀ n ∈ nodes h, (s.attr n).key = k.bytes ↔ n = a := by
  have hnodup : ((nodes h).map (fun n => (s.attr n).key)).Nodup := by
    have hmap : (entries h).map (fun e => e.key.bytes) =
        ((entries h).map (·.key)).map CString.bytes := by rw [List.map_map]; rfl
    rw [hs.map_keys hh, hmap]
    exact (hs.keys_nodup h hh).map (fun _ _ => CString.bytes_injective)
  intro n hn
  constructor
  · exact fun heq => List.inj_on_of_nodup_map hnodup hn ha (heq.trans hkey.symm)
  · exact fun heq => heq ▸ hkey

theorem Holds.find_node (hs : Holds heads s nodes entries) (hh : h ∈ heads) {a : Nat} {k : CString}
    (ha : a ∈ nodes h) (hkey : (s.attr a).key = k.bytes) : attrFind s h k.bytes = .ok (some a) := by
  rw [hs.attrFind_eq hh k]
  cases hfind : (nodes h).find? (fun n => (s.attr n).key = k.bytes) with
  | none =>
      have hno := List.find?_eq_none.mp hfind a ha
      simp [hkey] at hno
  | some n =>
      have hn : (s.attr n).key = k.bytes := by simpa using List.find?_some hfind
      rw [(hs.only_node hh ha hkey n (List.mem_of_find?_eq_some hfind)).mp hn]

/-- One list changes: it keeps its nodes or gets new ones, and the others are as before. -/
theorem Holds.replace (hs : Holds heads s nodes entries) (hh : h ∈ heads) {s' : Store}
    {ns : List Nat} {es : List Entry} (hring : IsRing s'.links h ns)
    (hattrs : ns.map s'.attr = es.map Entry.attr) (hle : s.fresh ≤ s'.fresh)
    (hnodes : ∀ n ∈ ns, n ∈ nodes h ∨ s.fresh ≤ n ∧ n < s'.fresh)
    (hothers : ∀ h' ∈ heads, h' ≠ h →
      IsRing s'.links h' (nodes h') ∧ ∀ n ∈ nodes h', s'.attr n = s.attr n)
    (hnodup : (es.map (·.key)).Nodup) (hfits : ∀ e ∈ es, e.Fits) :
    Holds heads s' (Function.update nodes h ns) (Function.update entries h es) := by
  have hmem : ∀ n ∈ h :: ns, n ∈ h :: nodes h ∨ s.fresh ≤ n ∧ n < s'.fresh := by
    intro n hn
    rcases List.mem_cons.mp hn with rfl | hn
    · exact Or.inl List.mem_cons_self
    · exact (hnodes n hn).imp_left (List.mem_cons_of_mem _)
  have hbound : ∀ h' ∈ heads, ∀ n ∈ h' :: nodes h', n < s.fresh := hs.bound
  -- a node of the changed list is in no other list
  have hoff : ∀ h' ∈ heads, h' ≠ h → ∀ n ∈ h :: ns, n ∉ h' :: nodes h' := by
    intro h' hh' hne n hn hin
    rcases hmem n hn with hold | hnew
    · exact hs.apart h hh h' hh' (Ne.symm hne) n hold hin
    · have := hbound h' hh' n hin
      omega
  constructor
  · intro h' hh'
    by_cases heq : h' = h
    · subst heq
      simpa using hring
    · simpa [heq] using (hothers h' hh' heq).1
  · intro h' hh'
    by_cases heq : h' = h
    · subst heq
      simpa using hattrs
    · have hsame : (nodes h').map s'.attr = (nodes h').map s.attr :=
        List.map_congr_left (hothers h' hh' heq).2
      simpa [heq, hsame] using hs.attrs h' hh'
  · intro h' hh' n hn
    by_cases heq : h' = h
    · subst heq
      rw [Function.update_self] at hn
      rcases hmem n hn with hold | hnew
      · exact Nat.lt_of_lt_of_le (hbound h' hh' n hold) hle
      · exact hnew.2
    · rw [Function.update_of_ne heq] at hn
      exact Nat.lt_of_lt_of_le (hbound h' hh' n hn) hle
  · intro h₁ hh₁ h₂ hh₂ hne n hn
    by_cases heq₁ : h₁ = h
    · subst heq₁
      rw [Function.update_self] at hn
      rw [Function.update_of_ne (Ne.symm hne)]
      exact hoff h₂ hh₂ (Ne.symm hne) n hn
    · rw [Function.update_of_ne heq₁] at hn
      by_cases heq₂ : h₂ = h
      · subst heq₂
        rw [Function.update_self]
        exact fun hin => hoff h₁ hh₁ heq₁ n hin hn
      · rw [Function.update_of_ne heq₂]
        exact hs.apart h₁ hh₁ h₂ hh₂ hne n hn
  · intro h' hh'
    by_cases heq : h' = h
    · subst heq
      simpa using hnodup
    · simpa [heq] using hs.keys_nodup h' hh'
  · intro h' hh'
    by_cases heq : h' = h
    · subst heq
      simpa using hfits
    · simpa [heq] using hs.fits h' hh'

theorem Holds.create (hs : Holds heads s nodes entries) (hh : h ∈ heads) {k : CString}
    (hk : k.Fits) (hnew : k ∉ (entries h).map (·.key)) :
    Holds heads (s.addAttr h k.bytes) (Function.update nodes h (nodes h ++ [s.fresh]))
      (Function.update entries h (entries h ++ [⟨k, none, false⟩])) := by
  have hfresh : ∀ h' ∈ heads, s.fresh ∉ h' :: nodes h' := fun h' hh' hin =>
    Nat.lt_irrefl _ (hs.bound h' hh' _ hin)
  have hold : ∀ h' ∈ heads, ∀ n ∈ nodes h',
      (s.addAttr h k.bytes).attr n = s.attr n := by
    intro h' hh' n hn
    have hne : n ≠ s.fresh := fun heq => hfresh h' hh' (heq ▸ List.mem_cons_of_mem _ hn)
    exact Function.update_of_ne hne _ _
  refine hs.replace hh (listAddTail_isRing (hs.ring h hh) (hfresh h hh)) ?_ (Nat.le_succ _) ?_ ?_ ?_ ?_
  · rw [List.map_append, List.map_append, List.map_congr_left (hold h hh), hs.attrs h hh]
    simp [Entry.attr, Store.addAttr, markFlag]
  · intro n hn
    rcases List.mem_append.mp hn with hn | hn
    · exact Or.inl hn
    · rcases List.mem_singleton.mp hn with rfl
      exact Or.inr ⟨le_rfl, Nat.lt_succ_self _⟩
  · intro h' hh' hne
    refine ⟨?_, hold h' hh'⟩
    exact listAddTail_frame (hs.ring h hh) (hs.ring h' hh') (hs.apart h hh h' hh' (Ne.symm hne))
      (hfresh h' hh')
  · rw [List.map_append, List.nodup_append_comm]
    exact List.nodup_cons.mpr ⟨hnew, hs.keys_nodup h hh⟩
  · intro e he
    rcases List.mem_append.mp he with he | he
    · exact hs.fits h hh e he
    · rcases List.mem_singleton.mp he with rfl
      exact ⟨hk, nofun⟩

/-- `attr_lookup` with `create` touches the key. -/
theorem Holds.lookup (hs : Holds heads s nodes entries) (hh : h ∈ heads) {k : CString}
    (hk : k.Fits) :
    ∃ a s' ns, attrLookup s h k.bytes true = .ok (some a, s') ∧ a ∈ ns ∧
      (s'.attr a).key = k.bytes ∧
      Holds heads s' (Function.update nodes h ns)
        (Function.update entries h (touch k (entries h))) := by
  cases hfind : (nodes h).find? (fun n => (s.attr n).key = k.bytes) with
  | some a =>
      have hkey : (s.attr a).key = k.bytes := by simpa using List.find?_some hfind
      have hmem := List.mem_of_find?_eq_some hfind
      have hin := (hs.find_isSome hh k).mp ⟨a, hmem, hkey⟩
      refine ⟨a, s, nodes h, ?_, hmem, hkey, ?_⟩
      · simp [attrLookup, hs.attrFind_eq hh k, hfind]
      · rw [touch, if_pos hin, Function.update_eq_self, Function.update_eq_self]
        exact hs
  | none =>
      have hnone : k ∉ (entries h).map (·.key) := by
        intro hin
        obtain ⟨n, hn, hkey⟩ := (hs.find_isSome hh k).mpr hin
        have hno := List.find?_eq_none.mp hfind n hn
        simp [hkey] at hno
      refine ⟨s.fresh, s.addAttr h k.bytes, nodes h ++ [s.fresh], ?_, by simp, ?_, ?_⟩
      · simp only [attrLookup, hs.attrFind_eq hh k, hfind, mpStrdup_fits hk]
        rfl
      · simp [Store.addAttr]
      · rw [touch, if_neg hnone]
        exact hs.create hh hk hnone

theorem markFlag_or (changed mark : Bool) :
    markFlag changed ||| markFlag mark = markFlag (changed || mark) := by
  cases changed <;> cases mark <;> rfl

/-- Nodes and entries side by side: where one node has the key, the store to that node is the
store to that entry. -/
theorem map_setAttr {a : Nat} {k : CString} {ns : List Nat} {es : List Entry}
    (hattrs : ns.map s.attr = es.map Entry.attr)
    (honly : ∀ n ∈ ns, (s.attr n).key = k.bytes ↔ n = a) (v : Option CString) (mark : Bool) :
    ns.map (s.setAttr a ((s.attr a).store (markFlag mark) (v.map CString.bytes))).attr =
      (storeAt mark k v es).map Entry.attr := by
  induction ns generalizing es with
  | nil =>
      cases es with
      | nil => rfl
      | cons e es => simp at hattrs
  | cons n ns ih =>
      cases es with
      | nil => simp at hattrs
      | cons e es =>
          rw [List.map_cons, List.map_cons, List.cons.injEq] at hattrs
          obtain ⟨hhead, htail⟩ := hattrs
          have hrest := ih htail (fun m hm => honly m (List.mem_cons_of_mem _ hm))
          have hiff : e.key = k ↔ n = a := by
            rw [← honly n List.mem_cons_self, hhead]
            exact ⟨fun heq => by rw [← heq]; rfl, fun heq => CString.bytes_injective heq⟩
          rw [List.map_cons, hrest, storeAt_cons, List.map_cons]
          congr 1
          by_cases hna : n = a
          · subst hna
            rw [if_pos (hiff.mpr rfl), Store.setAttr_self, hhead]
            simp only [Attr.store, Entry.attr, markFlag_or]
          · rw [if_neg (fun heq => hna (hiff.mp heq)), Store.setAttr_of_ne s hna]
            exact hhead

/-- The attribute of a key is stored to. -/
theorem Holds.stored (hs : Holds heads s nodes entries) (hh : h ∈ heads) {a : Nat} {k : CString}
    (ha : a ∈ nodes h) (hkey : (s.attr a).key = k.bytes) {v : Option CString}
    (hv : ∀ x ∈ v, x.Fits) (mark : Bool) :
    Holds heads (s.setAttr a ((s.attr a).store (markFlag mark) (v.map CString.bytes))) nodes
      (Function.update entries h (storeAt mark k v (entries h))) := by
  have hkeys : (storeAt mark k v (entries h)).map (·.key) = (entries h).map (·.key) := by
    rw [storeAt, List.map_map]
    apply List.map_congr_left
    intro e _
    simp only [Function.comp_apply]
    split <;> rfl
  rw [← Function.update_eq_self h nodes]
  refine hs.replace hh (hs.ring h hh) ?_ le_rfl (fun n hn => Or.inl hn) ?_ ?_ ?_
  · exact map_setAttr (hs.attrs h hh) (hs.only_node hh ha hkey) v mark
  · intro h' hh' hne
    refine ⟨hs.ring h' hh', fun n hn => ?_⟩
    have hna : n ≠ a := fun heq => hs.apart h hh h' hh' (Ne.symm hne) a (List.mem_cons_of_mem _ ha)
      (heq ▸ List.mem_cons_of_mem _ hn)
    exact Function.update_of_ne hna _ _
  · rw [hkeys]
    exact hs.keys_nodup h hh
  · intro e he
    obtain ⟨e', he', rfl⟩ := List.mem_map.mp he
    have hfits := hs.fits h hh e' he'
    split
    · exact ⟨hfits.1, hv⟩
    · exact hfits

theorem dupVal_fits {v : Option CString} (hv : ∀ x ∈ v, x.Fits) :
    dupVal (v.map CString.bytes) = .ok (v.map CString.bytes) := by
  cases v with
  | none => rfl
  | some x => simp [dupVal, mpStrdup_fits (hv x rfl)]

/-- The two storing calls. -/
theorem Holds.attrStore (hs : Holds heads s nodes entries) (hh : h ∈ heads) {k : CString}
    (hk : k.Fits) {v : Option CString} (hv : ∀ x ∈ v, x.Fits) (mark : Bool) :
    ∃ s' ns, attrStore (markFlag mark) s h k.bytes (v.map CString.bytes) = .ok s' ∧
      Holds heads s' (Function.update nodes h ns)
        (Function.update entries h (storeAt mark k v (touch k (entries h)))) := by
  obtain ⟨a, s₁, ns, hlookup, ha, hkey, hs₁⟩ := hs.lookup hh hk
  refine ⟨s₁.setAttr a ((s₁.attr a).store (markFlag mark) (v.map CString.bytes)), ns, ?_, ?_⟩
  · simp only [Attrs.attrStore, hlookup, dupVal_fits hv]
  · have ha' : a ∈ Function.update nodes h ns h := by simpa using ha
    have hstored := hs₁.stored hh ha' hkey hv mark
    rwa [Function.update_self, Function.update_idem] at hstored

/-- What `attr_list_merge` does to the entries of the second list. -/
def mergeEntries (es ts : List Entry) : List Entry :=
  es.foldl (fun ts e => storeAt true e.key e.val (touch e.key ts)) ts

/-- The loop of `attr_list_merge`, from any node of the first list on. -/
theorem Holds.mergeFrom (front ns : List Nat) (efront es : List Entry) {src dst fuel : Nat}
    (hs : Holds heads s nodes entries) (hsrc : src ∈ heads) (hdst : dst ∈ heads) (hne : src ≠ dst)
    (hnodes : nodes src = front ++ ns) (hentries : entries src = efront ++ es)
    (hlen : front.length = efront.length) (hfuel : ns.length < fuel) :
    ∃ s' ms, mergeFrom src dst fuel (ns.headD src) s = .ok s' ∧
      Holds heads s' (Function.update nodes dst ms)
        (Function.update entries dst (mergeEntries es (entries dst))) := by
  obtain ⟨fuel, rfl⟩ : ∃ f, fuel = f + 1 := ⟨fuel - 1, by omega⟩
  induction ns generalizing s nodes entries front efront es fuel with
  | nil =>
      have hes : es = [] := by
        have hlength := congrArg List.length (hs.attrs src hsrc)
        rw [hnodes, hentries] at hlength
        simp at hlength
        exact List.eq_nil_of_length_eq_zero (by omega)
      subst hes
      refine ⟨s, nodes dst, by simp [Attrs.mergeFrom], ?_⟩
      simpa [mergeEntries] using hs
  | cons n ns ih =>
      have hring := hs.ring src hsrc
      have hattrs := hs.attrs src hsrc
      rw [hnodes] at hring
      rw [hnodes, hentries, List.map_append, List.map_append] at hattrs
      obtain ⟨_, htail⟩ := List.append_inj hattrs (by simpa using hlen)
      cases es with
      | nil => simp at htail
      | cons e es =>
          rw [List.map_cons, List.map_cons, List.cons.injEq] at htail
          have hattr : s.attr n = e.attr := htail.1
          have hn : n ≠ src := by
            intro heq
            have hnodup := hring.nodup
            simp [heq] at hnodup
          have hfits := hs.fits src hsrc e (by simp [hentries])
          obtain ⟨s₁, ms₁, hset, hs₁⟩ := hs.attrStore hdst hfits.1 hfits.2 true
          have hnodes₁ : Function.update nodes dst ms₁ src = front ++ n :: ns := by
            rw [Function.update_of_ne hne, hnodes]
          have hring₁ := hs₁.ring src hsrc
          rw [hnodes₁] at hring₁
          obtain ⟨fuel, rfl⟩ : ∃ f, fuel = f + 1 := ⟨fuel - 1, by simp at hfuel; omega⟩
          obtain ⟨s', ms, hmerge, hs'⟩ := ih (front ++ [n]) (efront ++ [e]) es hs₁
            (by rw [hnodes₁]; simp) (by rw [Function.update_of_ne hne, hentries]; simp)
            (by simp [hlen]) fuel (by simpa using hfuel)
          refine ⟨s', ms, ?_, ?_⟩
          · have hset' : attrSet s dst (s.attr n).key (s.attr n).val = .ok s₁ := by
              rw [hattr]
              exact hset
            rw [List.headD_cons, Attrs.mergeFrom, if_neg hn, hset']
            dsimp only
            rw [hring₁.next_of_append]
            exact hmerge
          · rw [Function.update_idem, Function.update_idem, Function.update_self] at hs'
            exact hs'

theorem Holds.attrListMerge {src dst : Nat} (hs : Holds heads s nodes entries)
    (hsrc : src ∈ heads) (hdst : dst ∈ heads) (hne : src ≠ dst) :
    ∃ s' ms, attrListMerge s src dst = .ok s' ∧
      Holds heads s' (Function.update nodes dst ms)
        (Function.update entries dst (mergeEntries (entries src) (entries dst))) := by
  rw [Attrs.attrListMerge, (hs.ring src hsrc).path.next_start]
  exact hs.mergeFrom [] _ [] _ hsrc hdst hne rfl rfl rfl (hs.length_lt hsrc)

end Lookup

/-! ## The history of a list -/

/-- What a call did to one key of a list: it looked it up with `create`, or it stored a value,
with `attr_set` or not. -/
inductive Record where
  | touched (k : CString)
  | stored (k : CString) (v : Option CString) (mark : Bool)
deriving DecidableEq

def Record.key : Record → CString
  | .touched k => k
  | .stored k _ _ => k

/-- The value, if the record is a store to the key. -/
def Record.storeTo (k : CString) : Record → Option (Option CString)
  | .touched _ => none
  | .stored k' v _ => if k' = k then some v else none

def Record.marks (k : CString) : Record → Bool
  | .touched _ => false
  | .stored k' _ mark => k' = k && mark

def insertKey (ks : List CString) (k : CString) : List CString := if k ∈ ks then ks else ks ++ [k]

/-- The keys, each at the place of its first insertion. -/
def firstInsertions (log : List Record) : List CString :=
  (log.map Record.key).foldl insertKey []

/-- The value most recently stored under a key, `none` (`NULL`) if there is none. -/
def lastStored (log : List Record) (k : CString) : Option CString :=
  ((log.filterMap (Record.storeTo k)).getLast?).join

/-- Whether `attr_set` or `attr_list_merge` stored to a key. -/
def wasSet (log : List Record) (k : CString) : Bool := log.any (Record.marks k)

def entriesOf (log : List Record) : List Entry :=
  (firstInsertions log).map (fun k => ⟨k, lastStored log k, wasSet log k⟩)

theorem firstInsertions_concat (log : List Record) (r : Record) :
    firstInsertions (log ++ [r]) = insertKey (firstInsertions log) r.key := by
  simp [firstInsertions]

theorem mem_firstInsertions {log : List Record} {k : CString} :
    k ∈ firstInsertions log ↔ ∃ r ∈ log, r.key = k := by
  induction log using List.reverseRecOn with
  | nil => simp [firstInsertions]
  | append_singleton log r ih =>
      rw [firstInsertions_concat, insertKey]
      split
      · next hin =>
          rw [ih]
          constructor
          · rintro ⟨x, hx, heq⟩
            exact ⟨x, List.mem_append_left _ hx, heq⟩
          · rintro ⟨x, hx, heq⟩
            rcases List.mem_append.mp hx with hx | hx
            · exact ⟨x, hx, heq⟩
            · rcases List.mem_singleton.mp hx with rfl
              exact ih.mp (heq ▸ hin)
      · simp only [List.mem_append, List.mem_singleton, ih]
        constructor
        · rintro (⟨x, hx, heq⟩ | rfl)
          · exact ⟨x, Or.inl hx, heq⟩
          · exact ⟨r, Or.inr rfl, rfl⟩
        · rintro ⟨x, hx | rfl, heq⟩
          · exact Or.inl ⟨x, hx, heq⟩
          · exact Or.inr heq.symm

theorem firstInsertions_nodup (log : List Record) : (firstInsertions log).Nodup := by
  induction log using List.reverseRecOn with
  | nil => simp [firstInsertions]
  | append_singleton log r ih =>
      rw [firstInsertions_concat, insertKey]
      split
      · exact ih
      · next hnew =>
          rw [List.nodup_append_comm]
          exact List.nodup_cons.mpr ⟨hnew, ih⟩

/-- A key that was never inserted has no value and no mark. -/
theorem absent_of_not_inserted {log : List Record} {k : CString} (h : k ∉ firstInsertions log) :
    lastStored log k = none ∧ wasSet log k = false := by
  have hkey : ∀ r ∈ log, r.key ≠ k := fun r hr heq => h (mem_firstInsertions.mpr ⟨r, hr, heq⟩)
  constructor
  · have hnone : log.filterMap (Record.storeTo k) = [] := by
      rw [List.filterMap_eq_nil_iff]
      intro r hr
      cases r with
      | touched k' => rfl
      | stored k' v mark =>
          have hne : k' ≠ k := hkey _ hr
          simp [Record.storeTo, hne]
    simp [lastStored, hnone]
  · rw [wasSet, List.any_eq_false]
    intro r hr
    cases r with
    | touched k' => simp [Record.marks]
    | stored k' v mark =>
        have hne : k' ≠ k := hkey _ hr
        simp [Record.marks, hne]

theorem entriesOf_keys (log : List Record) : (entriesOf log).map (·.key) = firstInsertions log := by
  simp [entriesOf, Function.comp_def]

theorem entriesOf_touched (log : List Record) (k : CString) :
    entriesOf (log ++ [.touched k]) = touch k (entriesOf log) := by
  have hsame : ∀ k', lastStored (log ++ [.touched k]) k' = lastStored log k' ∧
      wasSet (log ++ [.touched k]) k' = wasSet log k' := by
    intro k'
    simp [lastStored, wasSet, Record.storeTo, Record.marks]
  rw [touch, entriesOf_keys]
  simp only [entriesOf, firstInsertions_concat, Record.key, hsame]
  by_cases hin : k ∈ firstInsertions log
  · rw [insertKey, if_pos hin, if_pos hin]
  · obtain ⟨hval, hset⟩ := absent_of_not_inserted hin
    rw [insertKey, if_neg hin, if_neg hin, List.map_append]
    simp [hval, hset]

theorem entriesOf_stored (log : List Record) (k : CString) (v : Option CString) (mark : Bool) :
    entriesOf (log ++ [.stored k v mark]) = storeAt mark k v (touch k (entriesOf log)) := by
  have hkeys : firstInsertions (log ++ [.stored k v mark]) =
      firstInsertions (log ++ [.touched k]) := by
    simp only [firstInsertions_concat, Record.key]
  have htouched : ∀ k', lastStored (log ++ [.touched k]) k' = lastStored log k' ∧
      wasSet (log ++ [.touched k]) k' = wasSet log k' := by
    intro k'
    simp [lastStored, wasSet, Record.storeTo, Record.marks]
  rw [← entriesOf_touched, storeAt, entriesOf, entriesOf, List.map_map, hkeys]
  apply List.map_congr_left
  intro k' _
  simp only [Function.comp_apply, htouched]
  by_cases heq : k' = k
  · subst heq
    simp [lastStored, wasSet, Record.storeTo, Record.marks]
  · have hne : k ≠ k' := fun h => heq h.symm
    simp [lastStored, wasSet, Record.storeTo, Record.marks, heq, hne]

theorem entriesOf_merge (log : List Record) (es : List Entry) :
    entriesOf (log ++ es.map (fun e => .stored e.key e.val true)) = mergeEntries es (entriesOf log) := by
  induction es generalizing log with
  | nil => simp [mergeEntries]
  | cons e es ih =>
      rw [List.map_cons, List.append_cons, ih, entriesOf_stored]
      rfl

/-! ## Histories of calls -/

inductive AttrCall where
  | set (list : Nat) (k : CString) (v : Option CString)
  | rawSet (list : Nat) (k : CString) (v : Option CString)
  | lookup (list : Nat) (k : CString)
  | merge (src dst : Nat)

def AttrCall.apply (s : Store) : AttrCall → Except Fault Store
  | .set list k v => attrSet s list k.bytes (v.map CString.bytes)
  | .rawSet list k v => attrRawSet s list k.bytes (v.map CString.bytes)
  | .lookup list k =>
      match attrLookup s list k.bytes true with
      | .error fault => .error fault
      | .ok (_, s) => .ok s
  | .merge src dst => attrListMerge s src dst

/-- What the calls have done to every list. A merge stores, under every key of the first
list, the value that this list has. -/
def AttrCall.record (log : Nat → List Record) : AttrCall → Nat → List Record
  | .set list k v => Function.update log list (log list ++ [.stored k v true])
  | .rawSet list k v => Function.update log list (log list ++ [.stored k v false])
  | .lookup list k => Function.update log list (log list ++ [.touched k])
  | .merge src dst =>
      Function.update log dst
        (log dst ++ (entriesOf (log src)).map (fun e => .stored e.key e.val true))

/-- The store, or the fault that ended it, and what the calls have done. -/
structure History where
  store : Except Fault Store
  log : Nat → List Record

def History.step (h : History) (call : AttrCall) : History where
  store :=
    match h.store with
    | .error fault => .error fault
    | .ok s => call.apply s
  log := call.record h.log

/-- The lists that a call is made on; a merge needs two. -/
def AttrCall.On (heads : List Nat) : AttrCall → Prop
  | .set list _ _ | .rawSet list _ _ | .lookup list _ => list ∈ heads
  | .merge src dst => src ∈ heads ∧ dst ∈ heads ∧ src ≠ dst

/-- The strings of a call can be copied. -/
def AttrCall.Fits : AttrCall → Prop
  | .set _ k v | .rawSet _ k v => k.Fits ∧ ∀ x ∈ v, x.Fits
  | .lookup _ k => k.Fits
  | .merge _ _ => True

/-- A list shows its history: distinct keys in the order of their first insertion, the value
most recently stored, and `ATTR_CHANGED` exactly where `attr_set` or a merge stored. -/
structure ListShows (s : Store) (list : Nat) (log : List Record) : Prop where
  keys : ∃ ns, IsRing s.links list ns ∧ (ns.map (fun n => (s.attr n).key)).Nodup ∧
    ns.map (fun n => (s.attr n).key) = (firstInsertions log).map CString.bytes
  get : ∀ k : CString, attrGet s list k.bytes = .ok ((lastStored log k).map CString.bytes)
  changed : ∀ ns, IsRing s.links list ns → ∀ n ∈ ns, ∀ k : CString, (s.attr n).key = k.bytes →
    ((s.attr n).flags &&& attrChanged ≠ 0 ↔ wasSet log k = true)

/-- No call has failed, and every list shows its history. -/
def History.Shows (heads : List Nat) (h : History) : Prop :=
  ∃ s, h.store = .ok s ∧ ∀ list ∈ heads, ListShows s list (h.log list)

/-- The attribute of a key. -/
def attrOf (s : Store) (list : Nat) (key : List Byte) : Except Fault (Option Attr) :=
  match attrFind s list key with
  | .error fault => .error fault
  | .ok a => .ok (a.map s.attr)

/-- After `attr_list_merge`, the second list has the values of the first under its keys and is
as before under all others, and the first list is as before. -/
structure Merged (s s' : Store) (src dst : Nat) : Prop where
  values : ∀ (k : CString) (attr : Attr), attrOf s src k.bytes = .ok (some attr) →
    attrGet s' dst k.bytes = .ok attr.val
  others : ∀ k : CString, attrOf s src k.bytes = .ok none →
    attrOf s' dst k.bytes = attrOf s dst k.bytes
  source : ∀ ns, IsRing s.links src ns → IsRing s'.links src ns ∧ ∀ n ∈ ns, s'.attr n = s.attr n

def MergeSound (h : History) : AttrCall → Prop
  | .merge src dst => ∀ s s', h.store = .ok s → attrListMerge s src dst = .ok s' → Merged s s' src dst
  | _ => True

section Observed

variable {heads : List Nat} {s : Store} {nodes : Nat → List Nat} {entries : Nat → List Entry}
  {h : Nat}

theorem Holds.attrOf_eq (hs : Holds heads s nodes entries) (hh : h ∈ heads) (k : CString) :
    attrOf s h k.bytes = .ok (((entries h).find? (fun e => e.key = k)).map Entry.attr) := by
  have hnodes : ((nodes h).find? (fun n => (s.attr n).key = k.bytes)).map s.attr =
      ((nodes h).map s.attr).find? (fun attr => attr.key = k.bytes) := by
    rw [List.find?_map]
    rfl
  have hentries : ((entries h).map Entry.attr).find? (fun attr => attr.key = k.bytes) =
      ((entries h).find? (fun e => e.key = k)).map Entry.attr := by
    rw [List.find?_map]
    congr 2
    funext e
    simp only [Function.comp_apply, decide_eq_decide]
    exact ⟨fun heq => CString.bytes_injective heq, fun heq => by rw [← heq]; rfl⟩
  rw [attrOf, hs.attrFind_eq hh k]
  dsimp only
  rw [hnodes, hs.attrs h hh, hentries]

theorem attrGet_eq (s : Store) (list : Nat) (key : List Byte) :
    attrGet s list key =
      match attrOf s list key with
      | .error fault => .error fault
      | .ok attr => .ok (attr.bind Attr.val) := by
  simp only [attrGet, attrLookup, attrOf]
  cases attrFind s list key with
  | error fault => rfl
  | ok a => cases a <;> rfl

theorem Holds.attrGet_eq (hs : Holds heads s nodes entries) (hh : h ∈ heads) (k : CString) :
    attrGet s h k.bytes =
      .ok ((((entries h).find? (fun e => e.key = k)).bind Entry.val).map CString.bytes) := by
  rw [Attrs.attrGet_eq, hs.attrOf_eq hh k]
  dsimp only
  cases (entries h).find? (fun e => e.key = k) with
  | none => rfl
  | some e => rfl

/-- The entry of a key, if the key was ever inserted. -/
theorem find_entriesOf (log : List Record) (k : CString) :
    (entriesOf log).find? (fun e => e.key = k) =
      if k ∈ firstInsertions log then some ⟨k, lastStored log k, wasSet log k⟩ else none := by
  rw [entriesOf, List.find?_map]
  cases hfind : (firstInsertions log).find? ((fun e => decide (e.key = k)) ∘
      fun k => (⟨k, lastStored log k, wasSet log k⟩ : Entry)) with
  | some x =>
      have hx : x = k := by simpa using List.find?_some hfind
      have hin := List.mem_of_find?_eq_some hfind
      subst hx
      rw [if_pos hin]
      rfl
  | none =>
      have hnot : k ∉ firstInsertions log := by
        intro hin
        have hno := List.find?_eq_none.mp hfind k hin
        simp at hno
      rw [if_neg hnot]
      rfl

theorem flags_markFlag (changed : Bool) : markFlag changed &&& attrChanged ≠ 0 ↔ changed = true := by
  cases changed <;> decide

/-- Lists that hold the entries of their histories show them. -/
theorem Holds.shows {log : Nat → List Record} (hs : Holds heads s nodes (fun h => entriesOf (log h)))
    (hh : h ∈ heads) : ListShows s h (log h) := by
  have hkeys : (nodes h).map (fun n => (s.attr n).key) =
      (firstInsertions (log h)).map CString.bytes := by
    rw [hs.map_keys hh, ← entriesOf_keys, List.map_map]
    rfl
  constructor
  · refine ⟨nodes h, hs.ring h hh, ?_, hkeys⟩
    rw [hkeys]
    exact (firstInsertions_nodup _).map (fun _ _ => CString.bytes_injective)
  · intro k
    rw [hs.attrGet_eq hh k, find_entriesOf]
    by_cases hin : k ∈ firstInsertions (log h)
    · rw [if_pos hin]
      rfl
    · rw [if_neg hin, (absent_of_not_inserted hin).1]
      rfl
  · intro ns hring n hn k hkey
    rw [hring.unique (hs.ring h hh)] at hn
    obtain ⟨e, he, hattr⟩ := hs.key_bytes hh n hn
    obtain ⟨k', _, rfl⟩ := List.mem_map.mp he
    have hk : k' = k := by
      rw [hattr] at hkey
      exact CString.bytes_injective hkey
    subst hk
    rw [hattr]
    exact flags_markFlag _

/-! A merge, entry by entry. -/

theorem find_storeAt_of_ne (mark : Bool) {k k' : CString} (hne : k' ≠ k) (v : Option CString)
    (es : List Entry) :
    (storeAt mark k v es).find? (fun e => e.key = k') = es.find? (fun e => e.key = k') := by
  induction es with
  | nil => rfl
  | cons e es ih =>
      rw [storeAt_cons, List.find?_cons, List.find?_cons, ih]
      by_cases hk : e.key = k
      · have hek : e.key ≠ k' := fun heq => hne (heq.symm.trans hk)
        simp [hk, Ne.symm hne]
      · simp [hk]

theorem find_touch_of_ne {k k' : CString} (hne : k' ≠ k) (es : List Entry) :
    (touch k es).find? (fun e => e.key = k') = es.find? (fun e => e.key = k') := by
  rw [touch]
  split
  · rfl
  · simp [List.find?_append, Ne.symm hne]

theorem find_stored (mark : Bool) (k : CString) (v : Option CString) (es : List Entry) :
    ∃ e, (storeAt mark k v (touch k es)).find? (fun e => e.key = k) = some e ∧ e.val = v := by
  have hin : k ∈ (touch k es).map (·.key) := by
    rw [touch]
    split
    · assumption
    · simp
  generalize touch k es = ts at hin
  induction ts with
  | nil => simp at hin
  | cons e ts ih =>
      rw [storeAt_cons, List.find?_cons]
      by_cases hk : e.key = k
      · exact ⟨{ e with val := v, changed := e.changed || mark }, by simp [hk], rfl⟩
      · have htail : k ∈ ts.map (·.key) := by simpa [Ne.symm hk] using hin
        obtain ⟨e', he', hv⟩ := ih htail
        exact ⟨e', by simpa [hk] using he', hv⟩

theorem find_mergeEntries_of_not_mem {k : CString} {es : List Entry} (hk : k ∉ es.map (·.key))
    (ts : List Entry) :
    (mergeEntries es ts).find? (fun e => e.key = k) = ts.find? (fun e => e.key = k) := by
  induction es generalizing ts with
  | nil => rfl
  | cons e es ih =>
      rw [List.map_cons, List.mem_cons, not_or] at hk
      have hrest := ih hk.2 (storeAt true e.key e.val (touch e.key ts))
      rw [find_storeAt_of_ne true hk.1, find_touch_of_ne hk.1] at hrest
      exact hrest

theorem find_mergeEntries_of_mem {e : Entry} {es : List Entry} (he : e ∈ es)
    (hnodup : (es.map (·.key)).Nodup) (ts : List Entry) :
    ∃ e', (mergeEntries es ts).find? (fun x => x.key = e.key) = some e' ∧ e'.val = e.val := by
  induction es generalizing ts with
  | nil => simp at he
  | cons x es ih =>
      rw [List.map_cons, List.nodup_cons] at hnodup
      rcases List.mem_cons.mp he with rfl | he
      · have hrest := find_mergeEntries_of_not_mem hnodup.1 (storeAt true e.key e.val (touch e.key ts))
        obtain ⟨e', hfind, hv⟩ := find_stored true e.key e.val ts
        exact ⟨e', hrest.trans hfind, hv⟩
      · exact ih he hnodup.2 _

theorem Holds.merged {src dst : Nat} (hs : Holds heads s nodes entries) (hsrc : src ∈ heads)
    (hdst : dst ∈ heads) (hne : src ≠ dst) {s' : Store} {ms : List Nat}
    (hs' : Holds heads s' (Function.update nodes dst ms)
      (Function.update entries dst (mergeEntries (entries src) (entries dst)))) :
    Merged s s' src dst := by
  have hdst_find : ∀ k, attrOf s' dst (CString.bytes k) =
      .ok (((mergeEntries (entries src) (entries dst)).find? (fun e => e.key = k)).map Entry.attr) := by
    intro k
    rw [hs'.attrOf_eq hdst k, Function.update_self]
  constructor
  · intro k attr hattr
    rw [hs.attrOf_eq hsrc k] at hattr
    cases hfind : (entries src).find? (fun e => e.key = k) with
    | none =>
        rw [hfind] at hattr
        exact absurd hattr nofun
    | some e =>
        have hk : e.key = k := by simpa using List.find?_some hfind
        have he := List.mem_of_find?_eq_some hfind
        subst hk
        rw [hfind] at hattr
        have hval : attr.val = e.val.map CString.bytes := by
          rw [← Option.some.inj (Except.ok.inj hattr)]
          rfl
        obtain ⟨e', hfind', hv⟩ :=
          find_mergeEntries_of_mem he (hs.keys_nodup src hsrc) (entries dst)
        rw [Attrs.attrGet_eq, hdst_find, hfind', hval, ← hv]
        rfl
  · intro k hnone
    have hnot : k ∉ (entries src).map (·.key) := by
      intro hin
      obtain ⟨e, he, hk⟩ := List.mem_map.mp hin
      rw [hs.attrOf_eq hsrc k] at hnone
      have hfind : (entries src).find? (fun e => e.key = k) = none := by
        simpa using hnone
      have hno := List.find?_eq_none.mp hfind e he
      simp [hk] at hno
    rw [hdst_find, find_mergeEntries_of_not_mem hnot, hs.attrOf_eq hdst k]
  · intro ns hring
    have hns := hring.unique (hs.ring src hsrc)
    have hring' := hs'.ring src hsrc
    have hattrs' := hs'.attrs src hsrc
    rw [Function.update_of_ne hne] at hring' hattrs'
    rw [Function.update_of_ne hne, ← hs.attrs src hsrc] at hattrs'
    subst hns
    exact ⟨hring', List.map_inj_left.mp hattrs'⟩

/-! A string that does not fit is copied without its terminator, or not at all. -/

theorem ListShows.key_terminated {log : List Record} (hshows : ListShows s h log) {ns : List Nat}
    (hring : IsRing s.links h ns) {n : Nat} (hn : n ∈ ns) : 0 ∈ (s.attr n).key := by
  obtain ⟨ms, hring', _, hkeys⟩ := hshows.keys
  rw [hring.unique hring'] at hn
  have hmem : (s.attr n).key ∈ (firstInsertions log).map CString.bytes := by
    rw [← hkeys]
    exact List.mem_map_of_mem hn
  obtain ⟨k, _, heq⟩ := List.mem_map.mp hmem
  rw [← heq]
  simp [CString.bytes]

theorem findFrom_congr {s' : Store} (hlinks : s'.links = s.links)
    (hkeys : ∀ n, (s'.attr n).key = (s.attr n).key) (list : Nat) (key : List Byte) (fuel a : Nat) :
    findFrom s' list key fuel a = findFrom s list key fuel a := by
  induction fuel generalizing a with
  | zero => rfl
  | succ fuel ih => simp only [findFrom, hlinks, hkeys, ih]

/-- The lookup of a key that does not fit: it is not in the list, and its copy is cut. -/
theorem Holds.lookup_unfit (hs : Holds heads s nodes entries) (hh : h ∈ heads) {k : CString}
    (hk : ¬ k.Fits) {r : Option Nat × Store} (hlookup : attrLookup s h k.bytes true = .ok r) :
    ∃ copy, 0 ∉ copy ∧ r = (some s.fresh, s.addAttr h copy) ∧
      IsRing (s.addAttr h copy).links h (nodes h ++ [s.fresh]) := by
  have hnone : attrFind s h k.bytes = .ok none := by
    rw [hs.attrFind_eq hh k]
    congr 1
    rw [List.find?_eq_none]
    intro n hn hkey
    obtain ⟨e, he, hattr⟩ := hs.key_bytes hh n hn
    have hek : e.key = k := by
      rw [decide_eq_true_iff, hattr] at hkey
      exact CString.bytes_injective hkey
    exact hk (hek ▸ (hs.fits h hh e he).1)
  simp only [attrLookup, hnone] at hlookup
  cases hdup : mpStrdup k.bytes with
  | error fault =>
      rw [hdup] at hlookup
      exact absurd hlookup nofun
  | ok copy =>
      rw [hdup] at hlookup
      refine ⟨copy, mpStrdup_cut hk hdup, (Except.ok.inj hlookup).symm, ?_⟩
      exact listAddTail_isRing (hs.ring h hh) (fun hin => Nat.lt_irrefl _ (hs.bound h hh _ hin))

/-- A storing call with a string that does not fit. -/
theorem Holds.store_unfit (hs : Holds heads s nodes entries) (hh : h ∈ heads) {k : CString}
    {v : Option CString} (hfits : ¬ (k.Fits ∧ ∀ x ∈ v, x.Fits)) (mark : Bool) {s' : Store}
    (hstore : Attrs.attrStore (markFlag mark) s h k.bytes (v.map CString.bytes) = .ok s')
    (log : List Record) : ¬ ListShows s' h (log ++ [.stored k v mark]) := by
  intro hshows
  by_cases hk : k.Fits
  · obtain ⟨x, rfl, hx⟩ : ∃ x, v = some x ∧ ¬ x.Fits := by
      cases v with
      | none => exact absurd ⟨hk, fun x hx => absurd hx (Option.not_mem_none x)⟩ hfits
      | some x => exact ⟨x, rfl, fun hx => hfits ⟨hk, fun y hy => Option.some.inj hy ▸ hx⟩⟩
    obtain ⟨a, s₁, ns, hlookup, ha, hkey, hs₁⟩ := hs.lookup hh hk
    simp only [Attrs.attrStore, hlookup, Option.map_some, dupVal] at hstore
    cases hdup : mpStrdup x.bytes with
    | error fault =>
        rw [hdup] at hstore
        cases hstore
    | ok copy =>
        rw [hdup] at hstore
        have hs' : s₁.setAttr a ((s₁.attr a).store (markFlag mark) (some copy)) = s' :=
          Except.ok.inj hstore
        have ha' : a ∈ Function.update nodes h ns h := by simpa using ha
        have hkeys : ∀ n, (s'.attr n).key = (s₁.attr n).key := by
          intro n
          rw [← hs']
          by_cases hn : n = a
          · rw [hn, Store.setAttr_self]
            rfl
          · rw [Store.setAttr_of_ne s₁ hn]
        have hfind : attrFind s' h k.bytes = .ok (some a) := by
          have hlinks : s'.links = s₁.links := by
            rw [← hs']
            rfl
          have hfresh : s'.fresh = s₁.fresh := by
            rw [← hs']
            rfl
          rw [← hs₁.find_node hh ha' hkey, attrFind, attrFind, hlinks, hfresh]
          exact findFrom_congr hlinks hkeys _ _ _ _
        have hval : attrGet s' h k.bytes = .ok (some copy) := by
          simp only [attrGet, attrLookup, hfind]
          rw [← hs', Store.setAttr_self]
          rfl
        have hlast : lastStored (log ++ [.stored k (some x) mark]) k = some x := by
          simp [lastStored, Record.storeTo]
        have hshown := hshows.get k
        rw [hval, hlast] at hshown
        have hcopy : copy = x.bytes := by simpa using hshown
        exact mpStrdup_cut hx hdup (by simp [hcopy, CString.bytes])
  · cases hlookup : attrLookup s h k.bytes true with
    | error fault =>
        simp only [Attrs.attrStore, hlookup] at hstore
        cases hstore
    | ok r =>
        obtain ⟨copy, hcut, rfl, hring⟩ := hs.lookup_unfit hh hk hlookup
        simp only [Attrs.attrStore, hlookup] at hstore
        cases hdup : dupVal (v.map CString.bytes) with
        | error fault =>
            rw [hdup] at hstore
            cases hstore
        | ok val =>
            rw [hdup] at hstore
            have hs' := (Except.ok.inj hstore).symm
            have hring' : IsRing s'.links h (nodes h ++ [s.fresh]) := by
              rw [hs']
              exact hring
            have hnul := hshows.key_terminated hring' (n := s.fresh) (by simp)
            rw [hs', Store.setAttr_self] at hnul
            exact hcut (by simpa [Attr.store, Store.addAttr] using hnul)

end Observed

/-! ## Every history -/

/-- The lists have been initialised and are empty. -/
def EmptyLists (heads : List Nat) (s : Store) : Prop :=
  ∀ h ∈ heads, IsRing s.links h [] ∧ h < s.fresh

/-- The invariant of a history. -/
def History.Kept (heads : List Nat) (h : History) : Prop :=
  ∃ s nodes, h.store = .ok s ∧ Holds heads s nodes (fun list => entriesOf (h.log list))

section Histories

variable {heads : List Nat} {h : History} {call : AttrCall}

theorem History.Kept.shows (hk : h.Kept heads) : h.Shows heads := by
  obtain ⟨s, nodes, hstore, hs⟩ := hk
  exact ⟨s, hstore, fun list hlist => hs.shows hlist⟩

/-- The entries after one more record of a list. -/
theorem entriesOf_update (log : Nat → List Record) (list : Nat) (records : List Record)
    {es : List Entry} (hes : entriesOf records = es) :
    (fun l => entriesOf (Function.update log list records l)) =
      Function.update (fun l => entriesOf (log l)) list es := by
  funext l
  by_cases hl : l = list
  · subst hl
    simp [hes]
  · simp [hl]

theorem History.step_store {s : Store} (hstore : h.store = .ok s) (call : AttrCall) :
    (h.step call).store = call.apply s := by
  simp only [History.step, hstore]

theorem History.step_log (h : History) (call : AttrCall) : (h.step call).log = call.record h.log :=
  rfl

theorem History.Kept.step (hk : h.Kept heads) (hon : call.On heads) (hfits : call.Fits) :
    (h.step call).Kept heads := by
  obtain ⟨s, nodes, hstore, hs⟩ := hk
  cases call with
  | set list k v =>
      obtain ⟨s', ns, hset, hs'⟩ := hs.attrStore hon hfits.1 hfits.2 true
      refine ⟨s', Function.update nodes list ns, (History.step_store hstore _).trans hset, ?_⟩
      rw [History.step_log, AttrCall.record, entriesOf_update h.log list _ (entriesOf_stored _ _ _ _)]
      exact hs'
  | rawSet list k v =>
      obtain ⟨s', ns, hset, hs'⟩ := hs.attrStore hon hfits.1 hfits.2 false
      refine ⟨s', Function.update nodes list ns, (History.step_store hstore _).trans hset, ?_⟩
      rw [History.step_log, AttrCall.record, entriesOf_update h.log list _ (entriesOf_stored _ _ _ _)]
      exact hs'
  | lookup list k =>
      obtain ⟨a, s', ns, hlookup, _, _, hs'⟩ := hs.lookup hon hfits
      refine ⟨s', Function.update nodes list ns, ?_, ?_⟩
      · rw [History.step_store hstore, AttrCall.apply, hlookup]
      · rw [History.step_log, AttrCall.record, entriesOf_update h.log list _ (entriesOf_touched _ _)]
        exact hs'
  | merge src dst =>
      obtain ⟨hsrc, hdst, hne⟩ := hon
      obtain ⟨s', ms, hmerge, hs'⟩ := hs.attrListMerge hsrc hdst hne
      refine ⟨s', Function.update nodes dst ms, (History.step_store hstore _).trans hmerge, ?_⟩
      rw [History.step_log, AttrCall.record, entriesOf_update h.log dst _ (entriesOf_merge _ _)]
      exact hs'

theorem History.Kept.mergeSound (hk : h.Kept heads) (hon : call.On heads) : MergeSound h call := by
  obtain ⟨s, nodes, hstore, hs⟩ := hk
  cases call with
  | set list k v => trivial
  | rawSet list k v => trivial
  | lookup list k => trivial
  | merge src dst =>
      obtain ⟨hsrc, hdst, hne⟩ := hon
      intro s₀ s' hs₀ hmerge
      have heq : s = s₀ := Except.ok.inj (hstore.symm.trans hs₀)
      subst heq
      obtain ⟨s'', ms, hmerge', hs'⟩ := hs.attrListMerge hsrc hdst hne
      have heq : s'' = s' := Except.ok.inj (hmerge'.symm.trans hmerge)
      subst heq
      exact hs.merged hsrc hdst hne hs'

theorem History.Kept.breaks (hk : h.Kept heads) (hon : call.On heads) (hfits : ¬ call.Fits) :
    ¬ (h.step call).Shows heads := by
  obtain ⟨s, nodes, hstore, hs⟩ := hk
  rintro ⟨s', hstep, hshows⟩
  rw [History.step_store hstore] at hstep
  rw [History.step_log] at hshows
  cases call with
  | set list k v =>
      have hlist := hshows list hon
      rw [AttrCall.record, Function.update_self] at hlist
      exact hs.store_unfit hon hfits true hstep _ hlist
  | rawSet list k v =>
      have hlist := hshows list hon
      rw [AttrCall.record, Function.update_self] at hlist
      exact hs.store_unfit hon hfits false hstep _ hlist
  | lookup list k =>
      cases hlookup : attrLookup s list k.bytes true with
      | error fault => simp [AttrCall.apply, hlookup] at hstep
      | ok r =>
          obtain ⟨copy, hcut, rfl, hring⟩ := hs.lookup_unfit hon hfits hlookup
          have hs' : s.addAttr list copy = s' := by
            simpa [AttrCall.apply, hlookup] using hstep
          subst hs'
          have hnul := (hshows list hon).key_terminated hring (n := s.fresh) (by simp)
          exact hcut (by simpa [Store.addAttr] using hnul)
  | merge src dst => exact hfits trivial

theorem kept_of_empty {s : Store} (hempty : EmptyLists heads s) :
    History.Kept heads ⟨.ok s, fun _ => []⟩ := by
  refine ⟨s, fun _ => [], rfl, ?_⟩
  constructor
  · exact fun l hl => (hempty l hl).1
  · intro l _
    rfl
  · intro l hl n hn
    rcases List.mem_singleton.mp hn with rfl
    exact (hempty n hl).2
  · intro l _ l' _ hne n hn hin
    exact hne ((List.mem_singleton.mp hn).symm.trans (List.mem_singleton.mp hin))
  · intro l _
    simp [entriesOf, firstInsertions]
  · intro l _ e he
    simp [entriesOf, firstInsertions] at he

end Histories

/-- In every history of calls on disjoint lists, no call fails, every list shows its history in
every state and every merge gives the second list the values of the first, if and only if all
keys and values have fewer than `MP_SIZE_MAX` characters. -/
theorem attr_lists_show_history_iff (heads : List Nat) (s : Store) (hempty : EmptyLists heads s)
    (calls : List AttrCall) (hon : ∀ call ∈ calls, call.On heads) :
    (Throughout History.step (History.Shows heads) ⟨.ok s, fun _ => []⟩ calls ∧
        EachStep History.step MergeSound ⟨.ok s, fun _ => []⟩ calls) ↔
      ∀ call ∈ calls, call.Fits := by
  have hstart := kept_of_empty hempty
  have hlegal : EachStep History.step (fun _ call => call.On heads) ⟨.ok s, fun _ => []⟩ calls :=
    eachStep_const.mpr hon
  have hshows : Throughout History.step (History.Shows heads) ⟨.ok s, fun _ => []⟩ calls ↔
      ∀ call ∈ calls, call.Fits := by
    have hconst : EachStep History.step (fun _ call => call.Fits) ⟨.ok s, fun _ => []⟩ calls ↔
        ∀ call ∈ calls, call.Fits := eachStep_const
    rw [← hconst]
    exact throughout_iff_eachStep (I := History.Kept heads) (fun h hk => hk.shows)
      (fun h call hk hcall hfits => hk.step hcall hfits)
      (fun h call hk hcall hfits => hk.breaks hcall hfits) hstart hlegal
  constructor
  · exact fun hall => hshows.mp hall.1
  · intro hfits
    refine ⟨hshows.mpr hfits, ?_⟩
    exact eachStep_of_invariant (I := History.Kept heads)
      (fun h call hk hcall hcallFits => hk.step hcall hcallFits)
      (fun h call hk hcall => hk.mergeSound hcall) hstart hlegal (eachStep_const.mpr hfits)

/-- Two empty lists. -/
def twoLists : Store where
  links := listInit (listInit ⟨fun _ => 0, fun _ => 0⟩ 0) 1
  attr := fun _ => ⟨[], none, 0⟩
  fresh := 2

theorem twoLists_empty : EmptyLists [0, 1] twoLists := by
  intro h hh
  rcases List.mem_pair.mp hh with rfl | rfl
  · exact ⟨⟨by decide, by decide, by decide⟩, by decide⟩
  · exact ⟨⟨by decide, by decide, by decide⟩, by decide⟩

def nameKey : CString := ⟨[110, 97, 109, 101], by decide⟩

theorem attr_lists_show_merge :
    EmptyLists [0, 1] twoLists ∧
      Throughout History.step (History.Shows [0, 1]) ⟨.ok twoLists, fun _ => []⟩
        [.set 0 nameKey (some nameKey), .rawSet 1 nameKey none, .merge 0 1] := by
  refine ⟨twoLists_empty, ((attr_lists_show_history_iff [0, 1] twoLists twoLists_empty _ ?_).mpr ?_).1⟩
  · simp [AttrCall.On]
  · have hfits : nameKey.Fits := by decide
    simp [AttrCall.Fits, hfits]

/-- A string of one character, many times. -/
def manyChars (n : Nat) : CString :=
  ⟨List.replicate n 97, fun h => absurd (List.eq_of_mem_replicate h) (by decide)⟩

theorem manyChars_unfit {n : Nat} (h : Pool.mpSizeMax ≤ n) : ¬ (manyChars n).Fits := by
  rw [CString.Fits, manyChars, List.length_replicate]
  omega

theorem not_shows_unfit_value {v : CString} (hv : ¬ v.Fits) :
    ¬ Throughout History.step (History.Shows [0, 1]) ⟨.ok twoLists, fun _ => []⟩
      [.set 0 nameKey (some v)] := by
  intro hall
  have hon : AttrCall.On [0, 1] (.set 0 nameKey (some v)) := List.mem_cons_self
  exact (kept_of_empty twoLists_empty).breaks hon (fun hfits => hv (hfits.2 _ rfl)) hall.last

/-- A value of `2 ^ 32 - 1` characters: with its terminator it has `2 ^ 32` bytes, and `mp_strdup`
copies none of them. -/
theorem attr_list_loses_huge_value :
    EmptyLists [0, 1] twoLists ∧
      ¬ Throughout History.step (History.Shows [0, 1]) ⟨.ok twoLists, fun _ => []⟩
        [.set 0 nameKey (some (manyChars (2 ^ 32 - 1)))] :=
  ⟨twoLists_empty, not_shows_unfit_value (manyChars_unfit (by decide))⟩

end OpenAAA.Attrs
