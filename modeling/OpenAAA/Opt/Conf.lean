import OpenAAA.Lib.Hoare
import OpenAAA.Lib.Heap
import OpenAAA.Lib.UndoLog
import OpenAAA.Opt.Dirty

/-!
The state of the configuration parser (`generic/opt/conf.h`, `conf-internal.h`) and what
`alloc.c` and `journal.c` do to it. Configuration variables live in byte memory. The
memory pools of a context are numbered in the order of their creation; every record
that the parser keeps in a pool says in which.
-/

namespace OpenAAA.Opt

open Memory Alloc

/-- A C string, without the byte that ends it. -/
abbrev CStr := List Byte

/-- What `char *` functions return: an error message, or `NULL`. -/
abbrev Msg := Option String

/-- The ways in which a call does not return. An access past the ends of the interpreter's stack is
kept apart from other overruns. -/
inductive CfFault where
  | heap (fault : Fault)
  | sort (fault : Sorter.SortFault)
  | nullPool
  | deadPool
  | assertZero
  | assertion
  | die
  | overrun
  | stack
  | user
  | endless
deriving DecidableEq

/-- `enum cf_type`, with the members of the union that belong to a type. -/
inductive CfType where
  | int
  | u64
  | double
  | ip
  | string
  | lookup (table : List CStr)
  | user (utype : Nat)
deriving DecidableEq

/-- `enum cf_class`, with what an item of the class declares. Sections, parsers and user types are
named by their addresses. -/
inductive CfClass where
  | static (type : CfType)
  | dynamic (type : CfType)
  | parser (par : Nat)
  | section (sec : Nat)
  | list (sec : Nat)
  | bitmap (type : CfType)
deriving DecidableEq

structure CfItem where
  name : CStr
  number : Int
  ptr : Nat
  cls : CfClass
deriving DecidableEq

/-- `struct cf_section`, with the flags that `inspect_section` sets. -/
structure CfSection where
  size : Nat
  init : Bool
  commit : Bool
  copy : Bool
  cfg : List CfItem
  flagDynamic : Bool
  flagUnknown : Bool
  flagCantCopy : Bool

/-- `enum cf_operation` -/
inductive CfOperation where
  | close
  | set
  | clear
  | all
  | append
  | prepend
  | remove
  | edit
  | after
  | before
  | copy
  | reset
deriving DecidableEq

/-- The place of an operation in the enumeration. -/
def CfOperation.code : CfOperation → Nat
  | .close => 0
  | .set => 1
  | .clear => 2
  | .all => 3
  | .append => 4
  | .prepend => 5
  | .remove => 6
  | .edit => 7
  | .after => 8
  | .before => 9
  | .copy => 10
  | .reset => 11

/-- `struct item_stack`. The phases `OP_1ST` and `OP_2ND` are kept apart from the operation; of the
item only the name is used. -/
structure ItemStack where
  sec : Option Nat
  basePtr : Nat
  op : CfOperation
  first : Bool
  second : Bool
  list : Nat
  mask : Nat
  item : CStr

/-- `struct cf_journal_item`. The owner of an entry is the pool it was allocated in. -/
abbrev JournalItem := UndoLog.Entry Nat

/-- `struct old_pools`, with the pool the record itself was allocated in. -/
structure OldPool where
  home : Nat
  pool : Nat

inductive EntryType where
  | file
  | string
deriving DecidableEq

structure ConfEntry where
  pool : Nat
  type : EntryType
  arg : CStr

structure CfContext where
  pool : Option Nat
  configLoaded : Bool
  everythingCommitted : Bool
  postponeCommit : Nat
  confEntries : List ConfEntry
  journal : List JournalItem
  enableJournal : Bool
  pools : List OldPool
  top : ItemStack
  below : List ItemStack
  sectionsInitialized : Nat
  dirty : DirtyList

/-- Memory, the pools created and those deleted, the blocks each of them owns, and the context. -/
structure World where
  heap : Heap
  created : Nat
  deleted : List Nat
  owned : List (Nat × (Nat × Nat))
  cc : CfContext

abbrev Cf := StateT World (Except CfFault)

/-- What code of the program that uses the parser leaves behind: a message, memory, the blocks it
passed to `cf_journal_block` with what they held, the last first, and the blocks it allocated from
the pool of the configuration and elsewhere. It has no access to the rest of the context. -/
structure UserResult where
  msg : Msg
  mem : Mem
  saved : List (Nat × List Byte)
  fromPool : List (Nat × Nat)
  fromHeap : List (Nat × Nat)

/-- Code of the program that uses the parser: it returns or it does not. -/
abbrev UserCode := World → Option UserResult

/-- What is found under a name when a file is opened. -/
inductive FileResult where
  | missing
  | unreadable
  | contents (text : List Byte)

/-- The program around the parser: its allocator, its declarations, the parsers of its basic types
and its own code, its files, and a bound on loops and recursions. -/
structure Env where
  alloc : Allocator
  sections : Nat → CfSection
  root : Nat
  parse : CfType → CStr → Msg × Option Nat
  utypeSize : Nat → Nat
  utypeParser : Nat → CStr → Nat → UserCode
  parser : Nat → List CStr → Nat → UserCode
  init : Nat → Nat → UserCode
  commit : Nat → Nat → UserCode
  copy : Nat → Nat → Nat → UserCode
  files : CStr → FileResult
  garyEmptyHdr : Nat
  memStd : Nat
  fuel : Nat

/-- The blocks that get into the journal. -/
def journalled (cc : CfContext) (saved : List (Nat × List Byte)) : List JournalItem :=
  if cc.enableJournal then saved.map fun block => ⟨cc.pool.getD 0, block.1, block.2⟩ else []

def World.afterUser (w : World) (r : UserResult) : World where
  heap := { w.heap with
    mem := r.mem
    blocks := r.fromPool ++ r.fromHeap ++ w.heap.blocks }
  created := w.created
  deleted := w.deleted
  owned := r.fromPool.map (fun b => (w.cc.pool.getD 0, b)) ++ w.owned
  cc := { w.cc with journal := journalled w.cc r.saved ++ w.cc.journal }

def callUser (code : UserCode) : Cf Msg := fun w =>
  match code w with
  | none => .error .user
  | some r =>
      if ∃ b ∈ r.fromPool ++ r.fromHeap, ∃ b' ∈ w.heap.blocks, ¬ Apart b'.1 b'.2 b.1 b.2 then
        .error .user
      else if r.fromPool = [] ∧ journalled w.cc r.saved = [] then .ok (r.msg, w.afterUser r)
      else
        match w.cc.pool with
        | none => .error .nullPool
        | some pool =>
            if pool ∈ w.deleted then .error .deadPool else .ok (r.msg, w.afterUser r)

def whenSet (flag : Bool) (x : Cf Unit) : Cf Unit := if flag then x else pure ()

def modifyCc (f : CfContext → CfContext) : Cf Unit :=
  modify fun w => { w with cc := f w.cc }

/-! ## Memory -/

def loadAt (p n : Nat) : Cf Nat := do
  let w ← get
  pure (load w.heap.mem p n)

def storeAt (p n v : Nat) : Cf Unit :=
  modify fun w => { w with heap := { w.heap with mem := store w.heap.mem p n v } }

def writeAt (p : Nat) (bytes : List Byte) : Cf Unit :=
  modify fun w => { w with heap := { w.heap with mem := write w.heap.mem p bytes } }

def memset (p n : Nat) : Cf Unit := writeAt p (List.replicate n 0)

def memcpy (dest src n : Nat) : Cf Unit := do
  let w ← get
  writeAt dest (read w.heap.mem src n)

/-- `mem_std` -/
def memAlloc (env : Env) (n : Nat) : Cf Nat := fun w =>
  match w.heap.malloc env.alloc n with
  | .error fault => .error (.heap fault)
  | .ok (p, heap) => .ok (p, { w with heap := heap })

def mpNew : Cf Nat := do
  let w ← get
  set { w with created := w.created + 1 }
  pure w.created

def mpAlloc (env : Env) (pool n : Nat) : Cf Nat := do
  let w ← get
  if pool ∈ w.deleted then throw .deadPool
  else
    let p ← memAlloc env n
    modify fun w => { w with owned := (pool, (p, n)) :: w.owned }
    pure p

/-- Every call is recorded, also one for a pool deleted before. -/
def mpDelete (pool : Nat) : Cf Unit :=
  modify fun w => { w with
    heap := { w.heap with blocks := w.heap.blocks.filter fun b => (pool, b) ∉ w.owned }
    deleted := pool :: w.deleted
    owned := w.owned.filter fun o => o.1 ≠ pool }

/-- After `mp_delete`. -/
def World.without (w : World) (pool : Nat) : World :=
  { w with
    heap := { w.heap with blocks := w.heap.blocks.filter fun b => (pool, b) ∉ w.owned }
    deleted := pool :: w.deleted
    owned := w.owned.filter fun o => o.1 ≠ pool }

/-- An allocation from the pool of the configuration. -/
def poolAlloc (env : Env) (n : Nat) : Cf Nat := do
  let w ← get
  match w.cc.pool with
  | none => throw .nullPool
  | some pool => mpAlloc env pool n

/-- `cf_malloc`. The size is an unsigned integer. -/
def cfMalloc (env : Env) (size : Nat) : Cf Nat := poolAlloc env (size % 2 ^ 32)

/-- `cf_strdup`, with `mp_strdup`. The length is an unsigned integer. -/
def cfStrdup (env : Env) (s : CStr) : Cf Nat := do
  let len := (s.length + 1) % 2 ^ 32
  let p ← poolAlloc env len
  writeAt p ((s ++ [0]).take len)
  pure p

/-- A message in the pool of the configuration. -/
def cfPrintf (env : Env) (text : String) : Cf Msg := do
  let _ ← poolAlloc env (text.length + 1)
  pure (some text)

/-! ## The undo journal -/

/-- `sizeof(struct cf_journal_item)` -/
def journalItemSize : Nat := 24

def cfJournalBlock (env : Env) (ptr len : Nat) : Cf Unit := do
  let w ← get
  whenSet w.cc.enableJournal do
    let _ ← cfMalloc env (journalItemSize + len)
    -- the copy has no room in a block whose size went over the range of `cf_malloc`
    if 2 ^ 32 ≤ journalItemSize + len then throw .overrun
    else
      modify fun w => { w with cc := { w.cc with
        journal := ⟨w.cc.pool.getD 0, ptr, read w.heap.mem ptr len⟩ :: w.cc.journal } }

def cfJournalSwap : Cf Unit := do
  let w ← get
  if ∃ item ∈ w.cc.journal, item.owner ∈ w.deleted then throw .deadPool
  else
    let swapped := UndoLog.exchange w.heap.mem w.cc.journal []
    set { w with heap := { w.heap with mem := swapped.1 }, cc := { w.cc with journal := swapped.2 } }

def cfJournalNewTransaction (newPool : Bool) : Cf (List JournalItem) := do
  whenSet newPool do
    let pool ← mpNew
    modifyCc fun cc => { cc with pool := some pool }
  let w ← get
  modifyCc fun cc => { cc with journal := [] }
  pure w.cc.journal

def cfJournalCommitTransaction (env : Env) (newPool : Bool) (oldj : List JournalItem) :
    Cf Unit := do
  whenSet newPool do
    let _ ← cfMalloc env 16
    modifyCc fun cc => { cc with pools := ⟨cc.pool.getD 0, cc.pool.getD 0⟩ :: cc.pools }
  modifyCc fun cc => { cc with journal := cc.journal ++ oldj }

def cfJournalRollbackTransaction (newPool : Bool) (oldj : List JournalItem) : Cf Unit := do
  let w ← get
  whenSet w.cc.enableJournal do
    cfJournalSwap
    modifyCc fun cc => { cc with journal := oldj }
    whenSet newPool do
      let w ← get
      mpDelete (w.cc.pool.getD 0)
      modifyCc fun cc => { cc with pool := cc.pools.head?.map (·.pool) }

/-- The loop of `cf_journal_delete`. A record is read before its pool goes. -/
def deletePools : List OldPool → Cf Unit
  | [] => modifyCc fun cc => { cc with pools := [] }
  | p :: pools => do
      let w ← get
      if p.home ∈ w.deleted then throw .deadPool
      else
        mpDelete p.pool
        deletePools pools

def cfJournalDelete : Cf Unit := do
  let w ← get
  deletePools w.cc.pools

end OpenAAA.Opt
