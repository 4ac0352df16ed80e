import OpenAAA.Str.Object
import OpenAAA.Lib.Traced
import Mathlib.Data.List.TakeWhile

/-!
`object_read` of any buffer. What it should make of the bytes is said on the lines of the
buffer: the lines before the first one without a colon are stored, and the result tells
where the reader stopped. The reader agrees with that as long as the strings can be copied
and the result is an `int`. Its accesses, recorded in a second copy of the loop, stay in
the buffer for all inputs.
-/

namespace OpenAAA.Attrs

open Memory Alloc Rings Intrusive Traces

/-! ## The lines of a buffer -/

/-- A line without its newline, and whether it has one. -/
structure Line where
  text : List Byte
  ended : Bool
deriving DecidableEq

def Line.length (l : Line) : Nat := l.text.length + if l.ended then 1 else 0

def Line.hasColon (l : Line) : Bool := 58 ∈ l.text

/-- The bytes up to the first null byte. -/
def CString.ofBytes (bs : List Byte) : CString :=
  ⟨bs.takeWhile (· ≠ 0), fun h => by simpa using List.mem_takeWhile_imp h⟩

def Line.key (l : Line) : CString := .ofBytes (l.text.takeWhile (· ≠ 58))

def Line.value (l : Line) : CString :=
  .ofBytes (((l.text.dropWhile (· ≠ 58)).drop 1).dropWhile (fun b => b = 32))

def cutLines : List Byte → List Line
  | [] => []
  | b :: bs =>
      if b = 10 then ⟨[], true⟩ :: cutLines bs
      else match cutLines bs with
        | [] => [⟨[b], false⟩]
        | l :: ls => ⟨b :: l.text, l.ended⟩ :: ls

/-- The lines before the first one without a colon. -/
def colonLines (bs : List Byte) : List Line := (cutLines bs).takeWhile Line.hasColon

/-- What is stored: the key and the value of every line with a newline before the first line
without a colon. -/
def stored (bs : List Byte) : List (CString × CString) :=
  ((colonLines bs).filter Line.ended).map (fun l => (l.key, l.value))

/-- Where the reader stops: nowhere in a line without a newline, at the newline of the first line
without a colon, else at the end. -/
def stopsAt (bs : List Byte) : Option Nat :=
  if (colonLines bs).all Line.ended then
    match (cutLines bs).dropWhile Line.hasColon with
    | [] => some bs.length
    | l :: _ => if l.ended then some (((colonLines bs).map Line.length).sum + l.text.length) else none
  else none

/-- A list of attributes after some pairs were set in it. -/
def setAll (es : List Entry) (pairs : List (CString × CString)) : List Entry :=
  pairs.foldl (fun es p => storeAt true p.1 (some p.2) (touch p.1 es)) es

theorem cutLines_append {w : List Byte} (hw : 10 ∉ w) (bs : List Byte) :
    cutLines (w ++ 10 :: bs) = ⟨w, true⟩ :: cutLines bs := by
  induction w with
  | nil => simp [cutLines]
  | cons b w ih =>
      have hb : b ≠ 10 := fun heq => hw (by simp [heq])
      have hrest := ih (fun hin => hw (List.mem_cons_of_mem _ hin))
      rw [List.cons_append, cutLines, if_neg hb, hrest]

theorem cutLines_last {w : List Byte} (hw : 10 ∉ w) (hne : w ≠ []) : cutLines w = [⟨w, false⟩] := by
  induction w with
  | nil => exact absurd rfl hne
  | cons b w ih =>
      have hb : b ≠ 10 := fun heq => hw (by simp [heq])
      rw [cutLines, if_neg hb]
      cases w with
      | nil => rfl
      | cons c w => rw [ih (fun hin => hw (List.mem_cons_of_mem _ hin)) (by simp)]

/-- How a buffer starts. -/
inductive Start : List Byte → Prop
  | empty : Start []
  | line (w bs : List Byte) (hw : 10 ∉ w) (hcolon : 58 ∉ w) : Start (w ++ 10 :: bs)
  | last (w : List Byte) (hne : w ≠ []) (hw : 10 ∉ w) (hcolon : 58 ∉ w) : Start w
  | colonLine (key val bs : List Byte) (hcolon : 58 ∉ key) (hkey : 10 ∉ key) (hval : 10 ∉ val) :
      Start (key ++ 58 :: (val ++ 10 :: bs))
  | colonLast (key val : List Byte) (hcolon : 58 ∉ key) (hkey : 10 ∉ key) (hval : 10 ∉ val) :
      Start (key ++ 58 :: val)

theorem start_cases (bs : List Byte) : Start bs := by
  by_cases hnewline : 10 ∈ bs
  · obtain ⟨w, rest, rfl, hw⟩ := List.eq_append_cons_of_mem hnewline
    by_cases hcolon : 58 ∈ w
    · obtain ⟨key, val, rfl, hkey⟩ := List.eq_append_cons_of_mem hcolon
      rw [List.append_assoc, List.cons_append]
      simp only [List.mem_append, List.mem_cons, not_or] at hw
      exact .colonLine key val rest hkey hw.1 hw.2.2
    · exact .line w rest hw hcolon
  · by_cases hcolon : 58 ∈ bs
    · obtain ⟨key, val, rfl, hkey⟩ := List.eq_append_cons_of_mem hcolon
      simp only [List.mem_append, List.mem_cons, not_or] at hnewline
      exact .colonLast key val hkey hnewline.1 hnewline.2.2
    · by_cases hne : bs = []
      · subst hne
        exact .empty
      · exact .last bs hne hnewline hcolon

theorem CString.ofBytes_chars {bs : List Byte} (h : 0 ∉ bs) : (CString.ofBytes bs).chars = bs :=
  List.takeWhile_eq_self_iff.mpr (fun b hb => by
    rw [decide_eq_true_iff]
    exact fun heq => h (heq ▸ hb))

/-- The key of a line, and what is behind its colon. -/
theorem takeWhile_colon {key : List Byte} (val : List Byte) (hcolon : 58 ∉ key) :
    (key ++ 58 :: val).takeWhile (· ≠ 58) = key ∧
      (key ++ 58 :: val).dropWhile (· ≠ 58) = 58 :: val := by
  have hkey : ∀ b ∈ key, decide (b ≠ 58) = true := by
    intro b hb
    rw [decide_eq_true_iff]
    exact fun heq => hcolon (heq ▸ hb)
  constructor
  · rw [List.takeWhile_append_of_pos hkey]
    simp
  · rw [List.dropWhile_append_of_pos hkey]
    simp

section Specification

variable {w key val bs : List Byte}

theorem cutLines_colonLine (hkey : 10 ∉ key) (hval : 10 ∉ val) (bs : List Byte) :
    cutLines (key ++ 58 :: (val ++ 10 :: bs)) = ⟨key ++ 58 :: val, true⟩ :: cutLines bs := by
  have hline : 10 ∉ key ++ 58 :: val := by
    simp only [List.mem_append, List.mem_cons, not_or]
    exact ⟨hkey, by decide, hval⟩
  have hassoc : key ++ 58 :: (val ++ 10 :: bs) = (key ++ 58 :: val) ++ 10 :: bs := by simp
  rw [hassoc, cutLines_append hline]

theorem hasColon_iff (l : Line) : l.hasColon = true ↔ 58 ∈ l.text := decide_eq_true_iff

theorem hasColon_key (key val : List Byte) (ended : Bool) :
    Line.hasColon ⟨key ++ 58 :: val, ended⟩ = true := (hasColon_iff _).mpr (by simp)

theorem hasColon_not (hcolon : 58 ∉ w) (ended : Bool) : ¬ Line.hasColon ⟨w, ended⟩ = true :=
  fun h => hcolon ((hasColon_iff _).mp h)

theorem cutLines_colonLast (hkey : 10 ∉ key) (hval : 10 ∉ val) :
    cutLines (key ++ 58 :: val) = [⟨key ++ 58 :: val, false⟩] := by
  apply cutLines_last
  · simp only [List.mem_append, List.mem_cons, not_or]
    exact ⟨hkey, by decide, hval⟩
  · simp

theorem colonLines_line (hw : 10 ∉ w) (hcolon : 58 ∉ w) (bs : List Byte) :
    colonLines (w ++ 10 :: bs) = [] := by
  rw [colonLines, cutLines_append hw, List.takeWhile_cons_of_neg (hasColon_not hcolon _)]

theorem colonLines_last (hne : w ≠ []) (hw : 10 ∉ w) (hcolon : 58 ∉ w) : colonLines w = [] := by
  rw [colonLines, cutLines_last hw hne, List.takeWhile_cons_of_neg (hasColon_not hcolon _)]

theorem colonLines_colonLine (hkey : 10 ∉ key) (hval : 10 ∉ val) (bs : List Byte) :
    colonLines (key ++ 58 :: (val ++ 10 :: bs)) = ⟨key ++ 58 :: val, true⟩ :: colonLines bs := by
  rw [colonLines, cutLines_colonLine hkey hval, List.takeWhile_cons_of_pos (hasColon_key _ _ _)]
  rfl

theorem colonLines_colonLast (hkey : 10 ∉ key) (hval : 10 ∉ val) :
    colonLines (key ++ 58 :: val) = [⟨key ++ 58 :: val, false⟩] := by
  rw [colonLines, cutLines_colonLast hkey hval, List.takeWhile_cons_of_pos (hasColon_key _ _ _)]
  rfl

theorem stopsAt_line (hw : 10 ∉ w) (hcolon : 58 ∉ w) (bs : List Byte) :
    stopsAt (w ++ 10 :: bs) = some w.length := by
  rw [stopsAt, colonLines_line hw hcolon, cutLines_append hw,
    List.dropWhile_cons_of_neg (hasColon_not hcolon _)]
  simp

theorem stopsAt_last (hne : w ≠ []) (hw : 10 ∉ w) (hcolon : 58 ∉ w) : stopsAt w = none := by
  rw [stopsAt, colonLines_last hne hw hcolon, cutLines_last hw hne,
    List.dropWhile_cons_of_neg (hasColon_not hcolon _)]
  simp

theorem stopsAt_colonLast (hkey : 10 ∉ key) (hval : 10 ∉ val) : stopsAt (key ++ 58 :: val) = none := by
  rw [stopsAt, colonLines_colonLast hkey hval]
  simp

/-- Behind a line that is stored, the reader starts anew. -/
theorem stopsAt_colonLine (hkey : 10 ∉ key) (hval : 10 ∉ val) (bs : List Byte) :
    stopsAt (key ++ 58 :: (val ++ 10 :: bs)) =
      (stopsAt bs).map (fun n => key.length + val.length + 2 + n) := by
  rw [stopsAt, stopsAt, colonLines_colonLine hkey hval, cutLines_colonLine hkey hval,
    List.dropWhile_cons_of_pos (hasColon_key _ _ _), List.all_cons, Bool.true_and]
  split
  · cases (cutLines bs).dropWhile Line.hasColon with
    | nil =>
        simp only [List.length_append, List.length_cons, Option.map_some, Option.some.injEq]
        omega
    | cons l ls =>
        dsimp only
        split
        · simp only [List.map_cons, List.sum_cons, Line.length, Option.map_some, Option.some.injEq,
            List.length_append, List.length_cons, if_true]
          omega
        · rfl
  · rfl

theorem stored_colonLine (hcolon : 58 ∉ key) (hkey : 10 ∉ key) (hval : 10 ∉ val) (bs : List Byte) :
    stored (key ++ 58 :: (val ++ 10 :: bs)) =
      (CString.ofBytes key, CString.ofBytes (val.dropWhile (fun b => b = 32))) :: stored bs := by
  obtain ⟨htake, hdrop⟩ := takeWhile_colon val hcolon
  simp only [stored, colonLines_colonLine hkey hval, List.filter_cons, if_true, List.map_cons,
    Line.key, Line.value, htake, hdrop, List.drop_succ_cons, List.drop_zero]

end Specification

/-! ## The reader -/

/-- All strings that are to be stored can be copied. -/
def AllFit (pairs : List (CString × CString)) : Prop := ∀ p ∈ pairs, p.1.Fits ∧ p.2.Fits

/-- A string that the pool has no room for. -/
theorem mpStrdup_unfit {c : CString} (h : ¬ c.Fits) (hwidth : c.chars.length + 1 < 2 ^ 32) :
    mpStrdup c.bytes = .error .die := by
  have hbig : ¬ c.chars.length + 1 ≤ Pool.mpSizeMax := h
  rw [mpStrdup, CString.bytes, strlen_chars c.no_nul]
  dsimp only
  rw [Nat.mod_eq_of_lt hwidth, if_neg hbig]

section Reader

variable {heads : List Nat} {s : Store} {nodes : Nat → List Nat} {entries : Nat → List Entry}
  {list start len pkt fuel : Nat} {m : Mem}

theorem Holds.attrSet_unfit (hs : Holds heads s nodes entries) (hlist : list ∈ heads) {k v : CString}
    (hfits : ¬ (k.Fits ∧ v.Fits)) (hk : k.chars.length + 1 < 2 ^ 32)
    (hv : v.chars.length + 1 < 2 ^ 32) :
    ∃ fault, attrSet s list k.bytes (some v.bytes) = .error fault := by
  by_cases hkey : k.Fits
  · have hval : ¬ v.Fits := fun h => hfits ⟨hkey, h⟩
    obtain ⟨a, s', ns, hlookup, _⟩ := hs.lookup hlist hkey
    refine ⟨.die, ?_⟩
    simp only [attrSet, Attrs.attrStore, hlookup, dupVal, mpStrdup_unfit hval hv]
  · have hnone : (nodes list).find? (fun n => (s.attr n).key = k.bytes) = none := by
      rw [List.find?_eq_none]
      intro n hn heq
      obtain ⟨e, he, hattr⟩ := hs.key_bytes hlist n hn
      have hek : e.key = k := CString.bytes_injective (by
        rw [decide_eq_true_iff, hattr] at heq
        exact heq)
      exact hkey (hek ▸ (hs.fits list hlist e he).1)
    refine ⟨.die, ?_⟩
    simp [attrSet, Attrs.attrStore, attrLookup, hs.attrFind_eq hlist k, hnone, mpStrdup_unfit hkey hk]

/-- A line without a colon. -/
theorem readFrom_plain {w rest : List Byte} (hw : 10 ∉ w) (hcolon : 58 ∉ w)
    (hread : read m pkt (start + len - pkt) = w ++ 10 :: rest) :
    readFrom list start len (fuel + 1) pkt m s = .ok (toInt32 (pkt + w.length - start), m, s) := by
  have hlength := congrArg List.length hread
  rw [read_length, List.length_append, List.length_cons] at hlength
  have hbytes : ∀ b ∈ w, (decide (b ≠ 58) && decide (b ≠ 10)) = true := by
    intro b hb
    rw [Bool.and_eq_true, decide_eq_true_iff, decide_eq_true_iff]
    exact ⟨fun heq => hcolon (heq ▸ hb), fun heq => hw (heq ▸ hb)⟩
  have hskip := skip_to hread hbytes (by decide)
  have hbyte : m (pkt + w.length) ≠ 58 := by
    rw [byte_at hread]
    decide
  rw [readFrom]
  dsimp only
  rw [if_pos (by omega), hskip, if_neg (by omega), if_pos hbyte]

/-- Bytes without a colon and without a newline up to the end. -/
theorem readFrom_unended {w : List Byte} (hne : w ≠ []) (hw : 10 ∉ w) (hcolon : 58 ∉ w)
    (hread : read m pkt (start + len - pkt) = w) :
    readFrom list start len (fuel + 1) pkt m s = .ok (-1, m, s) := by
  have hlength := congrArg List.length hread
  rw [read_length] at hlength
  have hpos := List.length_pos_iff.mpr hne
  have hskip : skip (fun c => decide (c ≠ 58) && decide (c ≠ 10)) m (start + len - pkt) pkt =
      pkt + w.length := by
    rw [skip_eq, hread, List.takeWhile_eq_self_iff.mpr]
    intro b hb
    rw [Bool.and_eq_true, decide_eq_true_iff, decide_eq_true_iff]
    exact ⟨fun heq => hcolon (heq ▸ hb), fun heq => hw (heq ▸ hb)⟩
  rw [readFrom]
  dsimp only
  rw [if_pos (by omega), hskip, if_pos (by omega)]

/-- A key whose value has no newline. -/
theorem readFrom_unended_value (fuel list : Nat) (s : Store) {key val : List Byte} (hcolon : 58 ∉ key) (hkey : 10 ∉ key)
    (hval : 10 ∉ val) (hread : read m pkt (start + len - pkt) = key ++ 58 :: val) :
    ∃ m', readFrom list start len (fuel + 1) pkt m s = .ok (-1, m', s) := by
  have hlength := congrArg List.length hread
  rw [read_length, List.length_append, List.length_cons] at hlength
  have hbytes : ∀ b ∈ key, (decide (b ≠ 58) && decide (b ≠ 10)) = true := by
    intro b hb
    rw [Bool.and_eq_true, decide_eq_true_iff, decide_eq_true_iff]
    exact ⟨fun heq => hcolon (heq ▸ hb), fun heq => hkey (heq ▸ hb)⟩
  have hskip := skip_to hread hbytes (by decide)
  have hbyte := byte_at hread
  obtain ⟨_, hbehind⟩ := read_cut hread
  generalize hm₁ : write m (pkt + key.length) [0] = m₁ at hbehind
  generalize hkeyEnd : pkt + key.length + 1 = keyEnd at hbehind
  have hleft : start + len - pkt - (key.length + 1) = start + len - keyEnd := by omega
  rw [hleft] at hbehind
  -- the spaces, and then everything up to the end
  have hvalue := skip_eq (fun c => decide (c = 32)) m₁ (start + len - keyEnd) keyEnd
  rw [hbehind] at hvalue
  have hsplit := List.takeWhile_append_dropWhile (p := fun c : Byte => decide (c = 32)) (l := val)
  have hcount := congrArg List.length hsplit
  rw [List.length_append] at hcount
  rw [← hsplit] at hbehind
  have hrest := (read_behind hbehind).2
  generalize (val.takeWhile (fun c => decide (c = 32))) = spaces at hvalue hrest hcount
  have hend : skip (fun c => decide (c ≠ 10)) m₁ (start + len - (keyEnd + spaces.length))
      (keyEnd + spaces.length) = start + len := by
    have hleft' : start + len - keyEnd - spaces.length = start + len - (keyEnd + spaces.length) := by
      omega
    rw [← hleft', skip_eq, hrest, List.takeWhile_eq_self_iff.mpr]
    · omega
    · intro b hb
      rw [decide_eq_true_iff]
      exact fun heq => hval (heq ▸ (List.dropWhile_sublist _).mem hb)
  refine ⟨m₁, ?_⟩
  rw [readFrom]
  dsimp only
  rw [if_pos (by omega), hskip, if_neg (by omega), if_neg (fun hne => hne hbyte), hm₁, hkeyEnd,
    hvalue, hend, if_pos le_rfl]

/-- What is to come of a run of the reader over some bytes that start at an offset: the pairs are
stored and the result is where it stops, unless a pair cannot be copied. -/
def ReadsAs (heads : List Nat) (entries : Nat → List Entry) (list offset : Nat) (bs : List Byte)
    (run : Except Fault (Int × Mem × Store)) : Prop :=
  (AllFit (stored bs) → ∃ m' s' nodes',
    run = .ok ((stopsAt bs).elim (-1) (fun n => toInt32 (offset + n)), m', s') ∧
    Holds heads s' nodes' (Function.update entries list (setAll (entries list) (stored bs)))) ∧
  (¬ AllFit (stored bs) → ∃ fault, run = .error fault)

/-- A run that stores nothing. -/
theorem readsAs_of_none (hs : Holds heads s nodes entries) {bs : List Byte} {offset : Nat} {r : Int}
    {m' : Mem} (hnone : stored bs = [])
    (hresult : r = (stopsAt bs).elim (-1) (fun n => toInt32 (offset + n))) :
    ReadsAs heads entries list offset bs (.ok (r, m', s)) := by
  have hsame : Function.update entries list (setAll (entries list) []) = entries :=
    Function.update_eq_self list entries
  rw [ReadsAs, hnone, hsame, hresult]
  exact ⟨fun _ => ⟨m', s, nodes, rfl, hs⟩, fun hno => absurd (fun p hp => absurd hp (by simp)) hno⟩

theorem ofBytes_eq {bs : List Byte} (h : 0 ∉ bs) : CString.ofBytes bs = ⟨bs, h⟩ := by
  rw [CString.mk.injEq]
  exact CString.ofBytes_chars h

/-- A run over a line that is stored, from the run over the rest. -/
theorem readsAs_colonLine (hlist : list ∈ heads) (hs : Holds heads s nodes entries)
    (key val : CString) {rest : List Byte} {offset : Nat} (next : Nat) (hcolon : 58 ∉ key.chars)
    (hkey : 10 ∉ key.chars) (hval : 10 ∉ val.chars)
    (hnext : next = offset + key.chars.length + val.chars.length + 2)
    (hkeyWidth : key.chars.length + 1 < 2 ^ 32) (hvalWidth : val.chars.length + 1 < 2 ^ 32)
    {run : Store → Except Fault (Int × Mem × Store)}
    (hrun : ∀ {s nodes entries}, Holds heads s nodes entries →
      ReadsAs heads entries list next rest (run s)) :
    ReadsAs heads entries list offset (key.chars ++ 58 :: (val.chars ++ 10 :: rest))
      (match attrSet s list key.bytes (some val.stripped.bytes) with
      | .error fault => .error fault
      | .ok s => run s) := by
  have hstrip : val.stripped.chars.length ≤ val.chars.length := (List.dropWhile_sublist _).length_le
  have hstored : stored (key.chars ++ 58 :: (val.chars ++ 10 :: rest)) =
      (key, val.stripped) :: stored rest := by
    have hkeyChars : CString.ofBytes key.chars = key := ofBytes_eq key.no_nul
    have hvalChars : CString.ofBytes (val.chars.dropWhile (fun b => b = 32)) = val.stripped :=
      ofBytes_eq val.stripped.no_nul
    rw [stored_colonLine hcolon hkey hval, hkeyChars, hvalChars]
  have hstops : (stopsAt (key.chars ++ 58 :: (val.chars ++ 10 :: rest))).elim (-1)
      (fun n => toInt32 (offset + n)) = (stopsAt rest).elim (-1) (fun n => toInt32 (next + n)) := by
    rw [stopsAt_colonLine hkey hval]
    cases stopsAt rest with
    | none => rw [Option.map_none, Option.elim_none, Option.elim_none]
    | some n =>
        have hoffset : offset + (key.chars.length + val.chars.length + 2 + n) = next + n := by omega
        rw [Option.map_some, Option.elim_some, Option.elim_some, hoffset]
  have hall : AllFit ((key, val.stripped) :: stored rest) ↔
      (key.Fits ∧ val.stripped.Fits) ∧ AllFit (stored rest) := List.forall_mem_cons
  rw [ReadsAs, hstored, hstops, hall]
  by_cases hpair : key.Fits ∧ val.stripped.Fits
  · obtain ⟨s₁, ns, hset, hs₁⟩ := hs.attrStore hlist hpair.1
      (fun x hx => Option.some.inj hx ▸ hpair.2) true
    have hset' : attrSet s list key.bytes (some val.stripped.bytes) = .ok s₁ := hset
    have hupdate : Function.update
        (Function.update entries list
          (storeAt true key (some val.stripped) (touch key (entries list)))) list
        (setAll (Function.update entries list
          (storeAt true key (some val.stripped) (touch key (entries list))) list) (stored rest)) =
        Function.update entries list
          (setAll (entries list) ((key, val.stripped) :: stored rest)) := by
      rw [Function.update_idem, Function.update_self]
      rfl
    have hrest := hrun hs₁
    rw [ReadsAs, hupdate] at hrest
    rw [hset']
    exact ⟨fun hfits => hrest.1 hfits.2, fun hno => hrest.2 (fun hfits => hno ⟨hpair, hfits⟩)⟩
  · obtain ⟨fault, hset⟩ := hs.attrSet_unfit hlist hpair hkeyWidth
      (Nat.lt_of_le_of_lt (Nat.succ_le_succ hstrip) hvalWidth)
    rw [hset]
    exact ⟨fun hfits => absurd hfits.1 hpair, fun _ => ⟨fault, rfl⟩⟩

/-- The reader from any position on. -/
theorem readFrom_readsAs (fuel : Nat) (hlist : list ∈ heads) (hwidth : len < 2 ^ 32) {bs : List Byte}
    (hnul : 0 ∉ bs) (hs : Holds heads s nodes entries) (hpkt : start ≤ pkt)
    (hstop : pkt ≤ start + len) (hread : read m pkt (start + len - pkt) = bs)
    (hfuel : bs.length < fuel) :
    ReadsAs heads entries list (pkt - start) bs (readFrom list start len fuel pkt m s) := by
  induction fuel generalizing bs pkt m s nodes entries with
  | zero => omega
  | succ fuel ih =>
      have hlength := congrArg List.length hread
      rw [read_length] at hlength
      cases start_cases bs with
      | empty =>
          have hend : ¬ pkt < start + len := by simp at hlength; omega
          have hlen : len = pkt - start + 0 := by omega
          have hrun : readFrom list start len (fuel + 1) pkt m s = .ok (toInt32 len, m, s) := by
            rw [readFrom]
            dsimp only
            rw [if_neg hend]
          rw [hrun]
          exact readsAs_of_none hs rfl (congrArg toInt32 hlen)
      | line w rest hw hcolon =>
          rw [readFrom_plain hw hcolon hread]
          apply readsAs_of_none hs
          · rw [stored, colonLines_line hw hcolon]
            rfl
          · rw [stopsAt_line hw hcolon]
            exact congrArg toInt32 (by omega)
      | last w hne hw hcolon =>
          rw [readFrom_unended hne hw hcolon hread]
          apply readsAs_of_none hs
          · rw [stored, colonLines_last hne hw hcolon]
            rfl
          · rw [stopsAt_last hne hw hcolon]
            rfl
      | colonLast key val hcolon hkey hval =>
          obtain ⟨m', hrun⟩ := readFrom_unended_value fuel list s hcolon hkey hval hread
          rw [hrun]
          apply readsAs_of_none hs
          · rw [stored, colonLines_colonLast hkey hval]
            rfl
          · rw [stopsAt_colonLast hkey hval]
            rfl
      | colonLine key val rest hcolon hkey hval =>
          simp only [List.mem_append, List.mem_cons, not_or] at hnul
          obtain ⟨hkeyNul, _, hvalNul, _, hrestNul⟩ := hnul
          rw [List.length_append, List.length_cons, List.length_append, List.length_cons]
            at hlength hfuel
          obtain ⟨m₁, next, hnext, hturn, hread₁⟩ := readFrom_line fuel list s ⟨key, hkeyNul⟩
            ⟨val, hvalNul⟩ hcolon hkey hval hread
          dsimp only at hnext
          rw [hturn]
          refine readsAs_colonLine hlist hs ⟨key, hkeyNul⟩ ⟨val, hvalNul⟩ (next - start) hcolon hkey
            hval (by dsimp only; omega) (by dsimp only; omega) (by dsimp only; omega) ?_
          intro s nodes entries hs₁
          exact ih hrestNul hs₁ (by omega) (by omega) hread₁ (by omega)

end Reader

/-! ## The accesses of the reader -/

/-- `skip`, recorded. -/
def skipReads (more : Byte → Bool) (m : Mem) : Nat → Nat → Traced Access Nat
  | 0, pkt => pure pkt
  | n + 1, pkt => do
      let c ← record ⟨pkt, 1⟩ (m pkt)
      if more c then skipReads more m n (pkt + 1) else pure pkt

/-- `readFrom`, recorded. -/
def readFromAccesses (list start len : Nat) :
    Nat → Nat → Mem → Store → Traced Access (Except Fault (Int × Mem × Store))
  | 0, _, _, _ => pure (.error .endless)
  | fuel + 1, pkt, m, s =>
      let stop := start + len
      if pkt < stop then do
        let key := pkt
        let pkt ← skipReads (fun c => c ≠ 58 && c ≠ 10) m (stop - pkt) pkt
        if stop ≤ pkt then pure (.ok (-1, m, s))
        else do
          let c ← record ⟨pkt, 1⟩ (m pkt)
          if c ≠ 58 then pure (.ok (toInt32 (pkt - start), m, s))
          else do
            let m ← record ⟨pkt, 1⟩ (write m pkt [0])
            let keyEnd := pkt + 1
            let value ← skipReads (fun c => c = 32) m (stop - keyEnd) keyEnd
            let pkt ← skipReads (fun c => c ≠ 10) m (stop - value) value
            if stop ≤ pkt then pure (.ok (-1, m, s))
            else do
              let m ← record ⟨pkt, 1⟩ (write m pkt [0])
              let pkt := pkt + 1
              -- `attr_set` reads both strings, at most up to their terminators
              let keyBytes ← record ⟨key, keyEnd - key⟩ (read m key (keyEnd - key))
              let valBytes ← record ⟨value, pkt - value⟩ (read m value (pkt - value))
              match attrSet s list keyBytes (some valBytes) with
              | .error fault => pure (.error fault)
              | .ok s => readFromAccesses list start len fuel pkt m s
      else pure (.ok (toInt32 len, m, s))

/-- `object_read`, recorded. -/
def objectReadAccesses (s : Store) (list : Nat) (m : Mem) (pkt len : Nat) :
    Traced Access (Except Fault (Int × Mem × Store)) :=
  readFromAccesses list pkt len (len + 1) pkt m s

theorem value_skipReads (more : Byte → Bool) (m : Mem) (n pkt : Nat) :
    value (skipReads more m n pkt) = skip more m n pkt := by
  induction n generalizing pkt with
  | zero => rfl
  | succ n ih =>
      rw [skipReads, skip, value_bind, value_record]
      split
      · exact ih (pkt + 1)
      · rfl

theorem value_readFromAccesses (list start len fuel pkt : Nat) (m : Mem) (s : Store) :
    value (readFromAccesses list start len fuel pkt m s) = readFrom list start len fuel pkt m s := by
  induction fuel generalizing pkt m s with
  | zero => rfl
  | succ fuel ih =>
      rw [readFromAccesses, readFrom]
      dsimp only
      split
      · rw [value_bind, value_skipReads]
        split
        · rfl
        · rw [value_bind, value_record]
          split
          · rfl
          · rw [value_bind, value_record, value_bind, value_skipReads, value_bind, value_skipReads]
            split
            · rfl
            · rw [value_bind, value_record, value_bind, value_record, value_bind, value_record]
              generalize attrSet s list _ _ = outcome
              cases outcome with
              | error fault => rfl
              | ok s' => exact ih _ _ _
      · rfl

theorem value_objectReadAccesses (s : Store) (list : Nat) (m : Mem) (pkt len : Nat) :
    value (objectReadAccesses s list m pkt len) = objectRead s list m pkt len :=
  value_readFromAccesses list pkt len _ pkt m s

/-- Skipping reads no byte behind the last one it may look at. -/
theorem skipReads_inside (more : Byte → Bool) (m : Mem) (n pkt : Nat) :
    (∀ a ∈ trace (skipReads more m n pkt), Memory.Inside a.addr a.width pkt n) ∧
      pkt ≤ skip more m n pkt ∧ skip more m n pkt ≤ pkt + n := by
  induction n generalizing pkt with
  | zero => simp [skipReads, skip]
  | succ n ih =>
      obtain ⟨hinside, hlow, hhigh⟩ := ih (pkt + 1)
      rw [skipReads, skip, trace_bind, trace_record, value_record, List.singleton_append,
        List.forall_mem_cons]
      have hfirst : Memory.Inside pkt 1 pkt (n + 1) := by
        unfold Memory.Inside
        omega
      split
      · refine ⟨⟨hfirst, fun a ha => (hinside a ha).trans ?_⟩, by omega, by omega⟩
        unfold Memory.Inside
        omega
      · exact ⟨⟨hfirst, fun a ha => absurd ha (by simp)⟩, le_rfl, by omega⟩

/-- The reader keeps to its buffer, whatever is in it. -/
theorem readFromAccesses_inside {list start len fuel pkt : Nat} {m : Mem} {s : Store}
    (hpkt : start ≤ pkt) :
    ∀ a ∈ trace (readFromAccesses list start len fuel pkt m s),
      Memory.Inside a.addr a.width start len := by
  induction fuel generalizing pkt m s with
  | zero => simp [readFromAccesses]
  | succ fuel ih =>
      rw [readFromAccesses]
      dsimp only
      split
      · next hin =>
          obtain ⟨hkeyReads, hkeyLow, hkeyHigh⟩ :=
            skipReads_inside (fun c => decide (c ≠ 58) && decide (c ≠ 10)) m (start + len - pkt) pkt
          rw [trace_bind, value_skipReads, List.forall_mem_append]
          generalize skip (fun c => decide (c ≠ 58) && decide (c ≠ 10)) m (start + len - pkt) pkt =
            colon at hkeyLow hkeyHigh
          refine ⟨fun a ha => (hkeyReads a ha).trans (by unfold Memory.Inside; omega), ?_⟩
          split
          · simp
          · next hcolon =>
              have hbyte : Memory.Inside colon 1 start len := ⟨by omega, by omega⟩
              rw [trace_bind, trace_record, value_record, List.singleton_append,
                List.forall_mem_cons]
              refine ⟨hbyte, ?_⟩
              split
              · simp
              · rw [trace_bind, trace_record, value_record, List.singleton_append,
                  List.forall_mem_cons]
                refine ⟨hbyte, ?_⟩
                obtain ⟨hspaceReads, hspaceLow, hspaceHigh⟩ := skipReads_inside
                  (fun c => decide (c = 32)) (write m colon [0]) (start + len - (colon + 1))
                  (colon + 1)
                rw [trace_bind, value_skipReads, List.forall_mem_append]
                generalize skip (fun c => decide (c = 32)) (write m colon [0])
                  (start + len - (colon + 1)) (colon + 1) = val at hspaceLow hspaceHigh
                refine ⟨fun a ha => (hspaceReads a ha).trans (by unfold Memory.Inside; omega), ?_⟩
                obtain ⟨hvalReads, hvalLow, hvalHigh⟩ := skipReads_inside
                  (fun c => decide (c ≠ 10)) (write m colon [0]) (start + len - val) val
                rw [trace_bind, value_skipReads, List.forall_mem_append]
                generalize skip (fun c => decide (c ≠ 10)) (write m colon [0])
                  (start + len - val) val = newline at hvalLow hvalHigh
                refine ⟨fun a ha => (hvalReads a ha).trans (by unfold Memory.Inside; omega), ?_⟩
                split
                · simp
                · next hnewline =>
                    simp only [trace_bind, trace_record, value_record, List.singleton_append,
                      List.forall_mem_cons]
                    refine ⟨by unfold Memory.Inside; omega, by unfold Memory.Inside; omega,
                      by unfold Memory.Inside; omega, ?_⟩
                    split
                    · simp
                    · exact ih (by omega)
      · simp

/-! ## Every buffer -/

/-- What `object_read` should do with a buffer: keep to it, return where it stops, and store the
pairs of its lines and nothing else. -/
structure ReadsLines (heads : List Nat) (entries : Nat → List Entry) (s : Store) (list : Nat)
    (m : Mem) (pkt len : Nat) : Prop where
  inside : ∀ a ∈ trace (objectReadAccesses s list m pkt len), Memory.Inside a.addr a.width pkt len
  result : ∃ m' s' nodes',
    objectRead s list m pkt len =
      .ok ((stopsAt (read m pkt len)).elim (-1) (fun n => (n : Int)), m', s') ∧
    Holds heads s' nodes'
      (Function.update entries list (setAll (entries list) (stored (read m pkt len))))

theorem stopsAt_int_iff (stop : Option Nat) :
    stop.elim (-1) (fun n => toInt32 (0 + n)) = stop.elim (-1) (fun n => (n : Int)) ↔
      ∀ n ∈ stop, n < 2 ^ 31 := by
  cases stop with
  | none => simp
  | some n =>
      rw [Option.elim_some, Option.elim_some, Nat.zero_add]
      constructor
      · intro heq k hk
        have hlt := toInt32_lt n
        have hkn : n = k := Option.some.inj hk
        omega
      · intro hlt
        exact toInt32_of_lt (hlt n rfl)

theorem readsLines_iff {heads : List Nat} {s : Store} {nodes : Nat → List Nat}
    {entries : Nat → List Entry} (hs : Holds heads s nodes entries) {list : Nat}
    (hlist : list ∈ heads) {m : Mem} {pkt len : Nat} (hlen : len < 2 ^ 32)
    (hnul : 0 ∉ read m pkt len) :
    ReadsLines heads entries s list m pkt len ↔
      AllFit (stored (read m pkt len)) ∧ ∀ n ∈ stopsAt (read m pkt len), n < 2 ^ 31 := by
  have hbuffer : read m pkt (pkt + len - pkt) = read m pkt len := by rw [Nat.add_sub_cancel_left]
  have hrun := readFrom_readsAs (len + 1) hlist hlen hnul hs le_rfl (by omega) hbuffer
    (by rw [read_length]; omega)
  rw [Nat.sub_self] at hrun
  rw [← stopsAt_int_iff]
  constructor
  · intro h
    obtain ⟨m', s', nodes', hread, _⟩ := h.result
    rw [objectRead] at hread
    by_cases hfits : AllFit (stored (read m pkt len))
    · obtain ⟨m₁, s₁, nodes₁, hok, _⟩ := hrun.1 hfits
      rw [hok, Except.ok.injEq, Prod.mk.injEq] at hread
      exact ⟨hfits, hread.1⟩
    · obtain ⟨fault, herror⟩ := hrun.2 hfits
      rw [herror] at hread
      cases hread
  · rintro ⟨hfits, hint⟩
    obtain ⟨m', s', nodes', hok, hs'⟩ := hrun.1 hfits
    rw [hint] at hok
    exact ⟨readFromAccesses_inside le_rfl, m', s', nodes', hok, hs'⟩

/-- For every buffer without null bytes and every object, `object_read` does what it should if and
only if the pool can copy every key and value and the offset it stops at is an `int`. -/
theorem objectRead_reads_lines_iff (heads : List Nat) (s : Store) (nodes : Nat → List Nat)
    (entries : Nat → List Entry) (hs : Holds heads s nodes entries) (list : Nat)
    (hlist : list ∈ heads) (m : Mem) (pkt len : Nat) (hlen : len < 2 ^ 32)
    (hnul : 0 ∉ read m pkt len) :
    ReadsLines heads entries s list m pkt len ↔
      AllFit (stored (read m pkt len)) ∧ ∀ n ∈ stopsAt (read m pkt len), n < 2 ^ 31 :=
  readsLines_iff hs hlist hlen hnul

theorem twoLists_holds : ∃ nodes, Holds [0, 1] twoLists nodes (fun _ => []) := by
  obtain ⟨s, nodes, hstore, hs⟩ := kept_of_empty twoLists_empty
  obtain rfl : twoLists = s := Except.ok.inj hstore
  exact ⟨nodes, hs⟩

/-- The buffer `"a:  b\n:\nc\n"` at `0x1000`. -/
def threeLines : Mem := write (fun _ => 0) 0x1000 [97, 58, 32, 32, 98, 10, 58, 10, 99, 10]

theorem objectRead_reads_three_lines :
    0 ∉ read threeLines 0x1000 10 ∧ ReadsLines [0, 1] (fun _ => []) twoLists 0 threeLines 0x1000 10 := by
  have hnul : 0 ∉ read threeLines 0x1000 10 := by decide
  refine ⟨hnul, ?_⟩
  obtain ⟨nodes, hs⟩ := twoLists_holds
  refine (objectRead_reads_lines_iff [0, 1] twoLists nodes _ hs 0 (by decide) threeLines 0x1000 10
    (by decide) hnul).mpr ⟨?_, ?_⟩
  · unfold AllFit
    decide
  · decide

/-- A buffer of one line without a colon, `n` characters long. -/
def longLine (n : Nat) : Mem := fun x => if x = 0x1000 + n then 10 else 97

theorem read_longLine (n : Nat) : read (longLine n) 0x1000 (n + 1) = List.replicate n 97 ++ [10] := by
  have hchars : ∀ k ≤ n, read (longLine n) 0x1000 k = List.replicate k 97 := by
    intro k hk
    apply List.ext_getElem?
    intro i
    by_cases hi : i < k
    · rw [read_getElem? hi, List.getElem?_replicate, if_pos hi, longLine, if_neg (by omega)]
    · rw [List.getElem?_eq_none (by simpa using hi), List.getElem?_eq_none (by simpa using hi)]
  rw [read_append, hchars n le_rfl, read_succ, longLine, if_pos rfl]
  rfl

theorem not_readsLines_long {n : Nat} (hlong : 2 ^ 31 ≤ n) (hwidth : n + 1 < 2 ^ 32) :
    0 ∉ read (longLine n) 0x1000 (n + 1) ∧
      ¬ ReadsLines [0, 1] (fun _ => []) twoLists 0 (longLine n) 0x1000 (n + 1) := by
  have hbytes : ∀ b : Byte, b ≠ 97 → b ∉ List.replicate n 97 :=
    fun b hb hin => hb (List.eq_of_mem_replicate hin)
  have hnul : 0 ∉ read (longLine n) 0x1000 (n + 1) := by
    rw [read_longLine, List.mem_append]
    rintro (hin | hin)
    · exact hbytes 0 (by decide) hin
    · exact absurd (List.mem_singleton.mp hin) (by decide)
  refine ⟨hnul, fun hreads => ?_⟩
  obtain ⟨nodes, hs⟩ := twoLists_holds
  have hint := ((readsLines_iff hs (by decide) hwidth hnul).mp hreads).2
  rw [read_longLine, stopsAt_line (hbytes 10 (by decide)) (hbytes 58 (by decide)),
    List.length_replicate] at hint
  exact absurd (hint n rfl) (by omega)

/-- A line of `2 ^ 31` characters without a colon: the offset of its newline comes back negative. -/
theorem not_readsLines_two_gib :
    0 ∉ read (longLine (2 ^ 31)) 0x1000 (2 ^ 31 + 1) ∧
      ¬ ReadsLines [0, 1] (fun _ => []) twoLists 0 (longLine (2 ^ 31)) 0x1000 (2 ^ 31 + 1) :=
  not_readsLines_long le_rfl (by decide)

end OpenAAA.Attrs
