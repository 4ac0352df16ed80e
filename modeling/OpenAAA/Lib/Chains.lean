import OpenAAA.Lib.Sequences

/-!
Collections of chains that end with a null pointer, as finite sequences. The forward
links of a chain lead from its head through its nodes to null, and the back link of a
node leads to the node or head before it. Nothing leads back to the last node from
behind it, so `link` sets a back link only where there is a node.
-/

namespace OpenAAA.Chains

open Rings Rings.Seqs

variable {l l' : Links} {a b h k n p x y : Nat} {c ns ms us vs : List Nat} {A : Seqs}

/-- The head of a chain and its nodes. -/
structure Strung (l : Links) (c : List Nat) : Prop where
  chain : c.IsChain (Linked l)
  last : ∀ a ∈ c.getLast?, l.next a = 0

/-- `a` leads to `b`, and `b`, if it is a node, back to `a`. -/
def link (l : Links) (a b : Nat) : Links :=
  ⟨Function.update l.next a b, if b = 0 then l.prev else Function.update l.prev b a⟩

theorem link_zero (l : Links) (a : Nat) : link l a 0 = ⟨Function.update l.next a 0, l.prev⟩ := rfl

theorem link_of_ne (l : Links) (a : Nat) (hb : b ≠ 0) : link l a b = l.join a b := by
  rw [link, if_neg hb]
  rfl

theorem link_next_of_ne (hx : x ≠ a) : (link l a b).next x = l.next x :=
  Function.update_of_ne hx _ _

theorem link_prev_of_ne (hx : x ≠ b) : (link l a b).prev x = l.prev x := by
  by_cases hb : b = 0
  · rw [link, if_pos hb]
  · rw [link, if_neg hb]
    exact Function.update_of_ne hx _ _

theorem isChain_congr (hc : c.IsChain (Linked l)) (hnext : ∀ n ∈ c.dropLast, l'.next n = l.next n)
    (hprev : ∀ n ∈ c.tail, l'.prev n = l.prev n) : c.IsChain (Linked l') := by
  induction hc with
  | nil => exact List.IsChain.nil
  | singleton n => exact List.IsChain.singleton n
  | @cons_cons x y ns hxy _ ih =>
      rw [List.dropLast_cons_cons] at hnext
      refine List.IsChain.cons_cons ⟨?_, ?_⟩ (ih ?_ ?_)
      · rw [hnext x (by simp)]
        exact hxy.1
      · rw [hprev y (by simp)]
        exact hxy.2
      · exact fun n hn => hnext n (List.mem_cons_of_mem _ hn)
      · exact fun n hn => hprev n (List.mem_of_mem_tail hn)

theorem isChain_link (hc : c.IsChain (Linked l)) (ha : a ∉ c.dropLast) (hb : b ∉ c.tail) :
    c.IsChain (Linked (link l a b)) :=
  isChain_congr hc (fun _ hn => link_next_of_ne fun heq => ha (heq ▸ hn))
    (fun _ hn => link_prev_of_ne fun heq => hb (heq ▸ hn))

/-- A chain depends on the forward links of its head and nodes, and on the back links of its
nodes. -/
theorem Strung.congr (hc : Strung l c) (hnext : ∀ n ∈ c, l'.next n = l.next n)
    (hprev : ∀ n ∈ c.tail, l'.prev n = l.prev n) : Strung l' c :=
  ⟨isChain_congr hc.chain (fun n hn => hnext n (List.mem_of_mem_dropLast hn)) hprev,
    fun a ha => (hnext a (List.mem_of_getLast? ha)).trans (hc.last a ha)⟩

/-- Links outside a chain leave it. -/
theorem Strung.link (hc : Strung l c) (ha : a ∉ c) (hb : b ∉ c.tail) : Strung (link l a b) c :=
  hc.congr (fun _ hn => link_next_of_ne fun heq => ha (heq ▸ hn))
    (fun _ hn => link_prev_of_ne fun heq => hb (heq ▸ hn))

theorem Strung.join (hc : Strung l c) (ha : a ∉ c) (hb : b ∉ c.tail) : Strung (l.join a b) c :=
  hc.congr (fun _ hn => join_next_of_ne fun heq => ha (heq ▸ hn))
    (fun _ hn => join_prev_of_ne fun heq => hb (heq ▸ hn))

/-- The two parts of a chain, which are linked to each other. -/
theorem strung_append : Strung l (us ++ p :: y :: vs) ↔
    (us ++ [p]).IsChain (Linked l) ∧ Linked l p y ∧ Strung l (y :: vs) := by
  have hsplit : us ++ p :: y :: vs = (us ++ [p]) ++ (y :: vs) := by simp
  rw [hsplit]
  constructor
  · rintro ⟨hchain, hlast⟩
    obtain ⟨hfront, hback, hlink⟩ := List.isChain_append.mp hchain
    rw [List.getLast?_append_of_ne_nil _ (by simp)] at hlast
    exact ⟨hfront, hlink p (by simp) y (by simp), hback, hlast⟩
  · rintro ⟨hfront, hlink, hback, hlast⟩
    refine ⟨List.isChain_append.mpr ⟨hfront, hback, ?_⟩, ?_⟩
    · intro a ha b hb
      obtain rfl : p = a := by simpa using ha
      obtain rfl : y = b := by simpa using hb
      exact hlink
    · rwa [List.getLast?_append_of_ne_nil _ (by simp)]

theorem strung_concat : Strung l (us ++ [p]) ↔ (us ++ [p]).IsChain (Linked l) ∧ l.next p = 0 := by
  constructor
  · exact fun hc => ⟨hc.chain, hc.last p (by simp)⟩
  · rintro ⟨hchain, hlast⟩
    refine ⟨hchain, fun a ha => ?_⟩
    obtain rfl : p = a := by simpa using ha
    exact hlast

/-- What a node leads to. -/
theorem Strung.next_eq (hc : Strung l (us ++ p :: vs)) : l.next p = vs.headD 0 := by
  cases vs with
  | nil => exact (strung_concat.mp hc).2
  | cons y vs => exact (strung_append.mp hc).2.1.1

theorem nodup_parts (hnodup : (us ++ p :: vs).Nodup) : p ∉ us ∧ p ∉ vs ∧ (∀ n ∈ vs, n ∉ us) := by
  obtain ⟨_, hback, hapart⟩ := List.nodup_append.mp hnodup
  exact ⟨fun hin => hapart p hin p (by simp) rfl, (List.nodup_cons.mp hback).1,
    fun n hn hin => hapart n hin n (by simp [hn]) rfl⟩

theorem nodup_insert (hnodup : (us ++ p :: vs).Nodup) (hx : x ∉ us ++ p :: vs) :
    (us ++ p :: x :: vs).Nodup := by
  rw [List.append_cons] at hnodup hx ⊢
  rw [List.nodup_middle]
  exact List.nodup_cons.mpr ⟨hx, hnodup⟩

theorem headD_mem_or (vs : List Nat) : vs.headD 0 = 0 ∨ vs.headD 0 ∈ vs := by
  cases vs with
  | nil => exact Or.inl rfl
  | cons y vs => exact Or.inr (by simp)

/-- `p` leads to the part of a chain behind it. -/
theorem strung_link_headD (hfront : (us ++ [p]).IsChain (Linked l)) (hback : vs ≠ [] → Strung l vs)
    (hnodup : (us ++ p :: vs).Nodup) (hnull : 0 ∉ us ++ p :: vs) :
    Strung (link l p (vs.headD 0)) (us ++ p :: vs) := by
  obtain ⟨hus, hvs, hapart⟩ := nodup_parts hnodup
  have hfirst : vs.headD 0 ∉ us ++ [p] := by
    rcases headD_mem_or vs with hzero | hin
    · rw [hzero]
      exact fun h => hnull (by simp at h ⊢; tauto)
    · intro h
      rcases List.mem_append.mp h with h | h
      · exact hapart _ hin h
      · rw [List.mem_singleton] at h
        exact hvs (h ▸ hin)
  have hkept : (us ++ [p]).IsChain (Linked (link l p (vs.headD 0))) := by
    refine isChain_link hfront ?_ fun h => hfirst (List.mem_of_mem_tail h)
    rw [List.dropLast_concat]
    exact hus
  cases vs with
  | nil =>
      rw [strung_concat]
      exact ⟨hkept, Function.update_self _ _ _⟩
  | cons y vs =>
      have hy : y ≠ 0 := fun heq => hnull (by simp [heq])
      rw [strung_append]
      refine ⟨hkept, ?_, ?_⟩
      · rw [List.headD_cons, link_of_ne l p hy]
        exact linked_join l p y
      · refine (hback (by simp)).link hvs ?_
        have hnodup' := (List.nodup_cons.mp (List.nodup_append.mp hnodup).2.1).2
        exact (List.nodup_cons.mp hnodup').1

/-- The part of a chain behind a node. -/
theorem Strung.behind (hc : Strung l (us ++ p :: vs)) (hvs : vs ≠ []) : Strung l vs := by
  obtain ⟨y, vs, rfl⟩ := List.exists_cons_of_ne_nil hvs
  exact (strung_append.mp hc).2.2

/-- The part of a chain up to a node. -/
theorem Strung.upTo (hc : Strung l (us ++ p :: vs)) : (us ++ [p]).IsChain (Linked l) := by
  have hchain := hc.chain
  rw [List.append_cons] at hchain
  exact (List.isChain_append.mp hchain).1

/-- A node is put in behind another. -/
theorem Strung.insert (hc : Strung l (us ++ p :: vs)) (hnodup : (us ++ p :: vs).Nodup)
    (hnull : 0 ∉ us ++ p :: vs) (hx : x ∉ us ++ p :: vs) (hzero : x ≠ 0) :
    Strung ((Chains.link l x (l.next p)).join p x) (us ++ p :: x :: vs) := by
  rw [hc.next_eq, ← link_of_ne _ _ hzero]
  simp only [List.mem_append, List.mem_cons, not_or] at hx hnull
  obtain ⟨hus, hvs, hapart⟩ := nodup_parts hnodup
  have hnodup' : (x :: vs).Nodup :=
    List.nodup_cons.mpr ⟨hx.2.2, (List.nodup_cons.mp (List.nodup_append.mp hnodup).2.1).2⟩
  have hback : Strung (Chains.link l x (vs.headD 0)) (x :: vs) := by
    refine @strung_link_headD l x [] vs (List.IsChain.singleton x) hc.behind hnodup' ?_
    simp only [List.nil_append, List.mem_cons, not_or]
    exact ⟨Ne.symm hzero, hnull.2.2⟩
  have hfront : (us ++ [p]).IsChain (Linked (Chains.link l x (vs.headD 0))) := by
    refine isChain_link hc.upTo ?_ ?_
    · rw [List.dropLast_concat]
      exact hx.1
    · intro hin
      have hmem := List.mem_of_mem_tail hin
      rw [List.mem_append, List.mem_singleton] at hmem
      rcases headD_mem_or vs with hend | hfirst
      · rw [hend] at hmem
        exact hmem.elim hnull.1 hnull.2.1
      · rcases hmem with hmem | hmem
        · exact hapart _ hfirst hmem
        · exact hvs (hmem ▸ hfirst)
  refine @strung_link_headD _ p us (x :: vs) hfront (fun _ => hback) ?_ ?_
  · exact nodup_insert hnodup (by simpa using hx)
  · simp only [List.mem_append, List.mem_cons, not_or]
    exact ⟨hnull.1, hnull.2.1, Ne.symm hzero, hnull.2.2⟩

/-- A node is taken out. -/
theorem Strung.remove (hc : Strung l (us ++ p :: n :: vs)) (hnodup : (us ++ p :: n :: vs).Nodup)
    (hnull : 0 ∉ us ++ p :: n :: vs) : Strung (Chains.link l p (l.next n)) (us ++ p :: vs) := by
  have hsplit : us ++ p :: n :: vs = (us ++ [p]) ++ n :: vs := by simp
  have hsub : (us ++ p :: vs).Sublist (us ++ p :: n :: vs) := by
    simp
  have hnext : l.next n = vs.headD 0 := by
    rw [hsplit] at hc
    exact hc.next_eq
  rw [hnext]
  refine strung_link_headD hc.upTo ?_ (hnodup.sublist hsub) fun h => hnull (hsub.subset h)
  rw [hsplit] at hc
  exact hc.behind

/-- The links hold the chains, which share no node. -/
structure Threads (l : Links) (A : Seqs) : Prop where
  strung : ∀ h ns, A h = some ns → Strung l (h :: ns)
  nodup : ∀ h ns, A h = some ns → (h :: ns).Nodup
  nonnull : ∀ h ns, A h = some ns → 0 ∉ h :: ns
  unshared : A.Unshared

theorem set_cases (hset : A.set k ns h = some ms) : h = k ∧ ms = ns ∨ h ≠ k ∧ A h = some ms := by
  by_cases hk : h = k
  · subst hk
    have heq : ns = ms := by simpa [Seqs.set] using hset
    exact Or.inl ⟨rfl, heq.symm⟩
  · exact Or.inr ⟨hk, by simpa [Seqs.set, hk] using hset⟩

/-- One chain may be changed alone where the links keep the others and its nodes are in none. -/
theorem Threads.set (hT : Threads l A) (hstrung : Strung l' (k :: ns)) (hnodup : (k :: ns).Nodup)
    (hnull : 0 ∉ k :: ns) (hkeep : ∀ h ms, A h = some ms → h ≠ k → Strung l' (h :: ms))
    (hown : ∀ x ∈ k :: ns, ∀ h ms, A h = some ms → x ∈ h :: ms → h = k) :
    Threads l' (A.set k ns) := by
  refine ⟨?_, ?_, ?_, hT.unshared.set hown⟩
  · intro h ms hset
    rcases set_cases hset with ⟨rfl, rfl⟩ | ⟨hne, hA⟩
    · exact hstrung
    · exact hkeep h ms hA hne
  · intro h ms hset
    rcases set_cases hset with ⟨rfl, rfl⟩ | ⟨hne, hA⟩
    · exact hnodup
    · exact hT.nodup h ms hA
  · intro h ms hset
    rcases set_cases hset with ⟨rfl, rfl⟩ | ⟨hne, hA⟩
    · exact hnull
    · exact hT.nonnull h ms hA

/-- Links of nodes in no chain do not matter. -/
theorem Threads.congr (hT : Threads l A)
    (hsame : ∀ x, A.Held x → l'.next x = l.next x ∧ l'.prev x = l.prev x) : Threads l' A :=
  ⟨fun h ns hA => (hT.strung h ns hA).congr (fun n hn => (hsame n ⟨h, ns, hA, hn⟩).1)
    (fun n hn => (hsame n ⟨h, ns, hA, List.mem_of_mem_tail hn⟩).2), hT.nodup, hT.nonnull, hT.unshared⟩

/-- A chain that is not the one of `p` does not have the node that `p` leads to. -/
theorem Threads.next_not_mem (hT : Threads l A) (hk : A k = some ns) (hp : p ∈ k :: ns)
    (hA : A h = some ms) (hne : h ≠ k) : l.next p ∉ h :: ms := by
  obtain ⟨us, vs, hsplit⟩ := List.append_of_mem hp
  have hstrung := hT.strung k ns hk
  rw [hsplit] at hstrung
  rw [hstrung.next_eq]
  intro hin
  rcases headD_mem_or vs with hend | hfirst
  · rw [hend] at hin
    exact hT.nonnull h ms hA hin
  · have hmem : vs.headD 0 ∈ k :: ns := by
      rw [hsplit]
      simp only [List.mem_append, List.mem_cons]
      exact Or.inr (Or.inr hfirst)
    exact hne (hT.unshared h k ms ns _ hA hk hin hmem)

theorem Threads.not_mem (hT : Threads l A) (hk : A k = some ns) (hp : p ∈ k :: ns)
    (hA : A h = some ms) (hne : h ≠ k) : p ∉ h :: ms :=
  fun hin => hne (hT.unshared h k ms ns p hA hk hin hp)

/-- A node of no chain is put in behind a node or head. -/
theorem Threads.insertAfter (hT : Threads l A) (hp : A.Held p) (hx : ¬ A.Held x) (hzero : x ≠ 0) :
    Threads ((link l x (l.next p)).join p x) (A.insertAfter p [x]) := by
  obtain ⟨k, ns, hk, hpk⟩ := hp
  obtain ⟨us, vs, hsplit⟩ := List.append_of_mem hpk
  have hfresh {h : Nat} {ms : List Nat} (hA : A h = some ms) : x ∉ h :: ms :=
    fun hin => hx ⟨h, ms, hA, hin⟩
  have hnodup := hT.nodup k ns hk
  have hcons : k :: insertedAfter p [x] k ns = us ++ p :: x :: vs :=
    cons_insertedAfter hnodup hsplit
  have hstrung := hT.strung k ns hk
  have hnull := hT.nonnull k ns hk
  have hnew := hfresh hk
  rw [hT.unshared.insertAfter_eq hk hpk]
  refine hT.set ?_ ?_ ?_ ?_ ?_
  · rw [hcons]
    rw [hsplit] at hstrung hnodup hnull hnew
    exact hstrung.insert hnodup hnull hnew hzero
  · rw [hcons]
    rw [hsplit] at hnodup hnew
    exact nodup_insert hnodup hnew
  · rw [mem_insertedAfter]
    rintro (h | ⟨_, h⟩)
    · exact hnull h
    · exact hzero (List.mem_singleton.mp h).symm
  · intro h ms hA hne
    refine ((hT.strung h ms hA).link (hfresh hA) ?_).join (hT.not_mem hk hpk hA hne) ?_
    · exact fun hin => hT.next_not_mem hk hpk hA hne (List.mem_of_mem_tail hin)
    · exact fun hin => hfresh hA (List.mem_of_mem_tail hin)
  · intro y hy h ms hA hin
    rw [mem_insertedAfter] at hy
    rcases hy with hy | ⟨_, hy⟩
    · exact hT.unshared h k ms ns y hA hk hin hy
    · rw [List.mem_singleton] at hy
      exact absurd (hy ▸ hin) (hfresh hA)

/-- The node or head before a node. -/
theorem Threads.exists_prev (hT : Threads l A) (hk : A k = some ns) (hn : n ∈ ns) :
    ∃ front us vs, ns = front ++ n :: vs ∧ k :: front = us ++ [l.prev n] := by
  obtain ⟨front, vs, rfl⟩ := List.append_of_mem hn
  obtain ⟨us, q, hfront⟩ := List.eq_nil_or_concat (k :: front) |>.resolve_left (by simp)
  rw [List.concat_eq_append] at hfront
  have hstrung := hT.strung k _ hk
  rw [← List.cons_append, hfront, ← List.append_cons] at hstrung
  have hprev := (strung_append.mp hstrung).2.1.2
  rw [hprev]
  exact ⟨front, us, vs, rfl, hfront⟩

/-- In front of a node is behind what is before it. -/
theorem Threads.insertBefore_eq (hT : Threads l A) (hk : A k = some ns) (hn : n ∈ ns) :
    A.insertBefore n ms = A.insertAfter (l.prev n) ms := by
  obtain ⟨front, us, vs, rfl, hfront⟩ := hT.exists_prev hk hn
  have hsplit : k :: (front ++ n :: vs) = (us ++ [l.prev n]) ++ n :: vs := by
    rw [← hfront, List.cons_append]
  have hsplit' : k :: (front ++ n :: vs) = us ++ l.prev n :: n :: vs := by
    rw [hsplit, ← List.append_cons]
  have hprev : l.prev n ∈ k :: (front ++ n :: vs) := by
    rw [hsplit']
    simp
  have hnodup := hT.nodup k _ hk
  rw [hT.unshared.insertBefore_eq hk (List.mem_cons_of_mem _ hn), hT.unshared.insertAfter_eq hk hprev]
  apply congrArg (A.set k)
  apply List.cons_injective (a := k)
  rw [cons_insertedBefore hnodup hsplit (by simp), cons_insertedAfter hnodup hsplit']
  simp

/-- A node is taken out of its chain. -/
theorem Threads.erase (hT : Threads l A) (hk : A k = some ns) (hn : n ∈ ns) :
    Threads (link l (l.prev n) (l.next n)) (A.erase n) ∧ ¬ (A.erase n).Held n := by
  obtain ⟨front, us, vs, rfl, hfront⟩ := hT.exists_prev hk hn
  have hsplit : k :: (front ++ n :: vs) = us ++ l.prev n :: n :: vs := by
    rw [← List.cons_append, hfront, ← List.append_cons]
  have hleft : k :: (front ++ vs) = us ++ l.prev n :: vs := by
    rw [← List.cons_append, hfront, ← List.append_cons]
  have hnodup := hT.nodup k _ hk
  have hnull := hT.nonnull k _ hk
  have hstrung := hT.strung k _ hk
  have hprev : l.prev n ∈ k :: (front ++ n :: vs) := by
    rw [hsplit]
    simp
  have hmem : n ∈ k :: (front ++ n :: vs) := List.mem_cons_of_mem _ hn
  have hsub : (k :: (front ++ vs)).Sublist (k :: (front ++ n :: vs)) := by simp
  have hout : n ∉ k :: (front ++ vs) := by
    have hmiddle := hnodup
    rw [← List.cons_append, List.nodup_middle] at hmiddle
    exact (List.nodup_cons.mp hmiddle).1
  rw [hT.unshared.erase_eq hk (List.nodup_cons.mp hnodup).2]
  constructor
  · refine hT.set ?_ (hnodup.sublist hsub) (fun h => hnull (hsub.subset h)) ?_ ?_
    · rw [hleft]
      rw [hsplit] at hstrung hnodup hnull
      exact hstrung.remove hnodup hnull
    · intro h ms hA hne
      refine (hT.strung h ms hA).link (hT.not_mem hk hprev hA hne) ?_
      exact fun hin => hT.next_not_mem hk hmem hA hne (List.mem_of_mem_tail hin)
    · intro y hy h ms hA hin
      exact hT.unshared h k ms _ y hA hk hin (hsub.subset hy)
  · rintro ⟨h, ms, hset, hin⟩
    rcases set_cases hset with ⟨rfl, rfl⟩ | ⟨hh, hA⟩
    · exact hout hin
    · exact hT.not_mem hk hmem hA hh hin

/-- A head without nodes. -/
theorem strung_link_zero (l : Links) (hx : x ≠ 0) : Strung (link l x 0) [x] :=
  @strung_link_headD l x [] [] (List.IsChain.singleton x) (fun hne => absurd rfl hne) (by simp)
    (by simpa using hx.symm)

/-- The nodes of a chain get another head, which had none. -/
theorem Threads.move (hT : Threads l A) (hk : A k = some ns) (hh : A h = some []) (hne : h ≠ k) :
    Threads (link (link l h (l.next k)) k 0) ((A.set k []).set h ns) := by
  have hnodup := hT.nodup k ns hk
  have hnull := hT.nonnull k ns hk
  have hstrung := hT.strung k ns hk
  have hnext : l.next k = ns.headD 0 := @Strung.next_eq l k [] ns hstrung
  have hh0 : h ≠ 0 := fun heq => hT.nonnull h [] hh (by simp [heq])
  have hk0 : k ≠ 0 := fun heq => hnull (by simp [heq])
  have hout : h ∉ k :: ns := fun hin => hne (hT.unshared h k [] ns h hh hk (by simp) hin)
  have hnew : (h :: ns).Nodup :=
    List.nodup_cons.mpr ⟨fun hin => hout (List.mem_cons_of_mem _ hin), (List.nodup_cons.mp hnodup).2⟩
  have hnewNull : 0 ∉ h :: ns := by
    rw [List.mem_cons, not_or]
    exact ⟨hh0.symm, fun hin => hnull (List.mem_cons_of_mem _ hin)⟩
  -- First the old head loses its nodes, then the new one gets them.
  have hempty : Threads (link l k 0) (A.set k []) := by
    refine hT.set (strung_link_zero l hk0) (by simp) (by simpa using hk0.symm) ?_ ?_
    · intro m ms hA hm
      refine (hT.strung m ms hA).link (hT.not_mem hk (by simp) hA hm) ?_
      exact fun hin => hT.nonnull m ms hA (List.mem_of_mem_tail hin)
    · intro y hy m ms hA hin
      obtain rfl : y = k := by simpa using hy
      exact hT.unshared m y ms ns y hA hk hin (by simp)
  have hcomm : link (link l h (l.next k)) k 0 = link (link l k 0) h (ns.headD 0) := by
    rw [hnext, link_zero, link_zero]
    simp only [link, Links.mk.injEq, and_true]
    exact Function.update_comm hne _ _ _
  rw [hcomm]
  refine hempty.set ?_ hnew hnewNull ?_ ?_
  · refine @strung_link_headD (link l k 0) h [] ns (List.IsChain.singleton h) ?_ hnew hnewNull
    intro hns
    refine (@Strung.behind l k [] ns hstrung hns).link (List.nodup_cons.mp hnodup).1 ?_
    exact fun hin => hnewNull (List.mem_cons_of_mem _ (List.mem_of_mem_tail hin))
  · intro m ms hset hm
    refine (hempty.strung m ms hset).link ?_ ?_
    · rcases set_cases hset with ⟨rfl, rfl⟩ | ⟨hmk, hA⟩
      · simpa using hne
      · exact fun hin => hm (hT.unshared m h ms [] h hA hh hin (by simp))
    · rcases set_cases hset with ⟨rfl, rfl⟩ | ⟨hmk, hA⟩
      · simp
      · rw [← hnext]
        exact fun hin => hT.next_not_mem hk (by simp) hA hmk (List.mem_of_mem_tail hin)
  · intro y hy m ms hset hin
    rcases set_cases hset with ⟨rfl, rfl⟩ | ⟨hmk, hA⟩
    · obtain rfl : y = m := by simpa using hin
      rcases List.mem_cons.mp hy with rfl | hy
      · rfl
      · exact absurd hy (List.nodup_cons.mp hnodup).1
    · rcases List.mem_cons.mp hy with rfl | hy
      · exact hT.unshared m y ms [] y hA hh hin (by simp)
      · exact absurd (hT.unshared m k ms ns y hA hk hin (List.mem_cons_of_mem _ hy)) hmk

/-- What is in no chain becomes the head of one without nodes. -/
theorem Threads.init (hT : Threads l A) (hx : A.Detached x) (hzero : x ≠ 0) :
    Threads (link l x 0) (A.set x []) := by
  refine hT.set (strung_link_zero l hzero) (by simp) (by simpa using hzero.symm) ?_ ?_
  · intro h ms hA hne
    refine (hT.strung h ms hA).link (fun hin => hne (hx h ms hA hin).1) ?_
    exact fun hin => hT.nonnull h ms hA (List.mem_of_mem_tail hin)
  · intro y hy h ms hA hin
    obtain rfl : y = x := by simpa using hy
    exact (hx h ms hA hin).1

end OpenAAA.Chains
