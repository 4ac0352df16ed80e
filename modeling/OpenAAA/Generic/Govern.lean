import OpenAAA.Generic.TwowayRuns

/-!
`generic/sorter/govern.c` and `sbuck.c`: how a file is sorted. Buckets wait in a list behind
the final one; the first of them is sorted into it, or split into smaller ones, until none is
left. A file is the list of its records with a position in it; its size is a natural number, the
runs and bits are counted in unsigned integers.
-/

namespace OpenAAA.Sorter

open Merging

inductive GovernFault where
  | assertion
  | nullBucket
  | shift
  | stuck
  | merge (fault : MergeFault)
deriving DecidableEq

/-- What `internal_sort` does with the records that are waiting: how many it takes, what it
writes for them, in how many runs, and whether there may be more. -/
structure Presorted (ρ : Type) where
  taken : Nat
  written : List ρ
  runs : Nat
  more : Bool

/-- The callbacks and limits of a `struct sort_context`, with the configured ones. The internal
sorter is told the remaining hash bits of the bucket; `mem` is what `sorter_decide` computes from
`internal_estimate`. -/
structure SortContext (ρ κ : Type) where
  params : SortParams ρ κ
  internal : Nat → List ρ → Except MergeFault (Presorted ρ)
  hash : Option (ρ → Nat)
  hashBits : Nat
  recSize : ρ → Nat
  mem : Nat
  addRadixBits : Nat
  minRadixBits : Nat
  maxRadixBits : Nat
  minMultiwayBits : Nat
  maxMultiwayBits : Nat
  noPresort : Bool
  noJoin : Bool
  noRadix : Bool
  noMultiway : Bool

/-- `struct sort_bucket`; `fb` says that a fastbuf is open. -/
structure SortBucket (ρ : Type) where
  final : Bool
  source : Bool
  customPresort : Bool
  openWrite : Bool
  openRead : Bool
  swappedOut : Bool
  fb : Bool
  file : List ρ
  pos : Nat
  size : Nat
  runs : Nat
  hashBits : Nat

variable {ρ κ : Type} [LinearOrder κ]

/-! ## Buckets -/

/-- `sbuck_new` -/
def sbuckNew : SortBucket ρ where
  final := false
  source := false
  customPresort := false
  openWrite := false
  openRead := false
  swappedOut := false
  fb := false
  file := []
  pos := 0
  size := 0
  runs := 0
  hashBits := 0

def bytes (c : SortContext ρ κ) (l : List ρ) : Nat := (l.map c.recSize).sum

def sbuckSize (c : SortContext ρ κ) (b : SortBucket ρ) : Nat :=
  if b.openWrite ∧ ¬ b.swappedOut then bytes c b.file else b.size

def sbuckHave (c : SortContext ρ κ) (b : SortBucket ρ) : Bool := sbuckSize c b ≠ 0

def sbuckSwapIn (b : SortBucket ρ) : SortBucket ρ :=
  if b.swappedOut then
    { b with fb := true, swappedOut := false, pos := if b.openWrite then b.file.length else 0 }
  else b

def sbuckRead (c : SortContext ρ κ) (b : SortBucket ρ) : Except GovernFault (SortBucket ρ) :=
  let b := sbuckSwapIn b
  if b.openRead then .ok b
  else if b.openWrite then
    .ok { b with size := bytes c b.file, openWrite := false, openRead := true, pos := 0 }
  else .error .assertion

def sbuckWrite (b : SortBucket ρ) : Except GovernFault (SortBucket ρ) :=
  let b := sbuckSwapIn b
  if b.openWrite then if b.fb then .ok b else .error .assertion
  else if b.openRead then .error .assertion
  else .ok { b with fb := true, openWrite := true, file := [], pos := 0 }

def sbuckSwapOut (c : SortContext ρ κ) (b : SortBucket ρ) : SortBucket ρ :=
  if (b.openRead ∨ b.openWrite) ∧ b.fb ∧ ¬ b.source then
    { b with
      size := if b.openWrite then bytes c b.file else b.size
      fb := false
      swappedOut := true }
  else b

/-- The records behind the position. -/
def SortBucket.unread (b : SortBucket ρ) : List ρ := b.file.drop b.pos

/-- `runs` more runs with the records `l`, which open the file if there are any. -/
def SortBucket.put (l : List ρ) (runs : Nat) (b : SortBucket ρ) :
    Except GovernFault (SortBucket ρ) :=
  if runs = 0 ∧ l.isEmpty then .ok b
  else do
    let b ← sbuckWrite b
    pure { b with file := b.file ++ l, runs := (b.runs + runs) % 2 ^ 32 }

/-! ## Presorting -/

/-- What a call of `sorter_presort` leaves: its result, what the custom presorter still has,
the buckets, and the final bucket where it was `out_only`. -/
structure Presort (ρ : Type) where
  more : Bool
  batches : List (List ρ)
  bin : SortBucket ρ
  out : SortBucket ρ
  only : Option (SortBucket ρ)

/-- `sorter_presort`; without a separate `out_only` the last run goes to `out` as well. The
custom presorter is the list of the batches that it will still give. -/
def sorterPresort (c : SortContext ρ κ) (batches : List (List ρ)) (bin out : SortBucket ρ)
    (only : Option (SortBucket ρ)) : Except GovernFault (Presort ρ) :=
  if bin.customPresort then
    match batches with
    | [] => do
      let out ← out.put [] 1
      pure ⟨false, [], bin, out, only⟩
    | l :: batches => do
      let out ← out.put l 1
      pure ⟨true, batches, bin, out, only⟩
  else do
    let bin ← sbuckRead c bin
    match bin.unread with
    | [] => pure ⟨false, batches, bin, out, only⟩
    | x :: xs =>
      match c.internal bin.hashBits (x :: xs) with
      | .error fault => .error (.merge fault)
      | .ok r =>
        let bin := { bin with pos := bin.pos + r.taken }
        if r.more then do
          let out ← out.put r.written r.runs
          pure ⟨true, batches, bin, out, only⟩
        else
          match only with
          | none => do
            let out ← out.put r.written r.runs
            pure ⟨false, batches, bin, out, none⟩
          | some join => do
            let join ← join.put r.written r.runs
            pure ⟨false, batches, bin, out, some join⟩

/-- `sbuck_join_to` for the bucket behind `bout` -/
def sbuckJoinTo (c : SortContext ρ κ) (bout : SortBucket ρ) : Except GovernFault Bool :=
  if c.noJoin then .ok false
  else if !bout.final then .ok false
  else if bout.runs = 1 then .ok true
  else .error .assertion

/-- `sbuck_ins_or_join`: the list of buckets afterwards. -/
def sbuckInsOrJoin (b : Option (SortBucket ρ)) (join : Bool) (bout : SortBucket ρ)
    (rest : List (SortBucket ρ)) : Except GovernFault (List (SortBucket ρ)) :=
  if join ∧ 2 ≤ bout.runs then
    if bout.runs = 2 then .ok ({ bout with runs := 1 } :: rest) else .error .assertion
  else .ok (bout :: b.toList ++ rest)

/-! ## The two-way merge sort -/

/-- The batches and buckets that a strategy leaves. -/
abbrev Sorted (ρ : Type) : Type := List (List ρ) × List (SortBucket ρ)

/-- The presorting loop of `sorter_multiway`: the parts it adds, and the final bucket. -/
def presortParts (c : SortContext ρ κ) (join : Bool) :
    Nat → List (List ρ) → SortBucket ρ → SortBucket ρ → List (SortBucket ρ) →
      Except GovernFault (List (List ρ) × SortBucket ρ × List (SortBucket ρ))
  | 0, _, _, _, _ => .error .stuck
  | fuel + 1, batches, bin, bout, parts => do
    let r ← sorterPresort c batches bin sbuckNew (if parts.isEmpty ∧ join then some bout else none)
    let parts := if sbuckHave c r.out then parts ++ [sbuckSwapOut c r.out] else parts
    if r.more then presortParts c join fuel r.batches r.bin (r.only.getD bout) parts
    else pure (r.batches, r.only.getD bout, parts)

/-- `sbuck_read` on each of the buckets. -/
def readAll (c : SortContext ρ κ) :
    List (SortBucket ρ) → Except GovernFault (List (List ρ))
  | [] => .ok []
  | b :: bs => do
    let b ← sbuckRead c b
    let ls ← readAll c bs
    pure (b.unread :: ls)

/-- The merging loop of `sorter_multiway`, to the list of buckets. -/
def mergeParts (c : SortContext ρ κ) (join : Bool) (bout : SortBucket ρ)
    (rest : List (SortBucket ρ)) :
    Nat → List (SortBucket ρ) → Except GovernFault (List (SortBucket ρ))
  | 0, _ => .error .stuck
  | fuel + 1, parts => do
    let ways := parts.take (2 ^ c.maxMultiwayBits)
    let parts := parts.drop (2 ^ c.maxMultiwayBits)
    if ways.length ≤ 1 then .error .assertion
    else do
      let ins ← readAll c ways
      match multiwayMerge c.params ins with
      | .error fault => .error (.merge fault)
      | .ok l =>
        if parts.isEmpty then
          if join then do
            let bout ← bout.put l 1
            sbuckInsOrJoin none true bout rest
          else do
            let out ← sbuckNew.put l 1
            sbuckInsOrJoin (some out) false bout rest
        else do
          let out ← sbuckNew.put l 1
          mergeParts c join bout rest fuel (parts ++ [sbuckSwapOut c out])

def sorterMultiway (c : SortContext ρ κ) (batches : List (List ρ)) (bout b : SortBucket ρ)
    (rest : List (SortBucket ρ)) : Except GovernFault (Sorted ρ) := do
  let join ← sbuckJoinTo c bout
  if c.noPresort then .error .assertion
  else do
    let (batches, bout, parts) ←
      presortParts c join (b.file.length + batches.flatten.length + batches.length + 1) batches b bout []
    if parts.length ≤ 1 then do
      let l ← sbuckInsOrJoin parts.head? (parts.isEmpty && join) bout rest
      pure (batches, l)
    -- `1 << sorter_max_multiway_bits` is an `int`
    else if 31 ≤ c.maxMultiwayBits then .error .shift
    else do
      let l ← mergeParts c join bout rest parts.length parts
      pure (batches, l)

/-! ## Radix splits -/

/-- `radix_split` of s-radix.h: what is written to each bucket. -/
def radixSplitTo (hash : ρ → Nat) (bitpos numbits : Nat) :
    List ρ → (Nat → List ρ) → Nat → List ρ
  | [], outs => outs
  | x :: l, outs =>
    let i := hash x >>> bitpos &&& (2 ^ numbits - 1)
    radixSplitTo hash bitpos numbits l (Function.update outs i (outs i ++ [x]))

/-- A bucket that is opened for its first record. -/
def SortBucket.fill (l : List ρ) (b : SortBucket ρ) : Except GovernFault (SortBucket ρ) :=
  if l.isEmpty then .ok b
  else do
    let b ← sbuckWrite b
    pure { b with file := b.file ++ l }

/-- The buckets from `i` on. -/
def radixOuts (c : SortContext ρ κ) (hashBits nbuck : Nat) (outs : Nat → List ρ) :
    Nat → Nat → Except GovernFault (List (SortBucket ρ))
  | 0, _ => .ok []
  | left + 1, i => do
    let out ← SortBucket.fill (outs i) { (sbuckNew : SortBucket ρ) with hashBits := hashBits }
    let out := if nbuck > 4 then sbuckSwapOut c out else out
    let l ← radixOuts c hashBits nbuck outs left (i + 1)
    pure (out :: l)

/-- `MIN(bits + sorter_add_radix_bits, sorter_max_radix_bits)` -/
def addedBits (c : SortContext ρ κ) (bits : Nat) : Nat :=
  min ((bits + c.addRadixBits) % 2 ^ 32) c.maxRadixBits

def sorterRadix (c : SortContext ρ κ) (hash : ρ → Nat) (batches : List (List ρ))
    (bout b : SortBucket ρ) (rest : List (SortBucket ρ)) (bits : Nat) :
    Except GovernFault (Sorted ρ) := do
  let bits := addedBits c bits
  -- `1 << bits` is an `int`; `hash_bits - bits` is too large for a shift if it wraps around
  if 31 ≤ bits ∨ b.hashBits < bits then .error .shift
  else do
    let b ← sbuckRead c b
    let outs := radixSplitTo hash (b.hashBits - bits) bits b.unread fun _ => []
    let l ← radixOuts c (b.hashBits - bits) (2 ^ bits) outs (2 ^ bits) 0
    pure (batches, bout :: l ++ rest)

/-! ## The governing loop -/

/-- `multiway_bits` -/
def multiwayBitsOf (c : SortContext ρ κ) (bits : Nat) : Nat :=
  if c.noMultiway ∨ c.noPresort then 0
  else
    let multiwayBits := min bits c.maxMultiwayBits
    if multiwayBits < c.minMultiwayBits then 0 else multiwayBits

/-- The source: the records of a file or a pipe, or the batches of a custom presorter. -/
inductive SortInput (ρ : Type) where
  | stream (records : List ρ) (size : Nat)
  | batches (l : List (List ρ))

/-- The bucket of the source. -/
def SortInput.bucket (c : SortContext ρ κ) : SortInput ρ → SortBucket ρ
  | .stream records size => { (sbuckNew : SortBucket ρ) with
      source := true, openRead := true, fb := true, file := records, size := size
      hashBits := c.hashBits }
  | .batches _ => { (sbuckNew : SortBucket ρ) with
      source := true, openRead := true, customPresort := true, size := 2 ^ 64 - 1
      hashBits := c.hashBits }

def SortInput.waiting : SortInput ρ → List (List ρ)
  | .stream _ _ => []
  | .batches l => l

end OpenAAA.Sorter
