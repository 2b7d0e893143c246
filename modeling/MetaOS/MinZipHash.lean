/-
minzip/Hash.c: an open hash table with linear probing and tombstones.

Items are the pointers other than `NULL` and `HASH_TOMBSTONE`, compared by
the caller's function.  The table refines a finite set of items in which no
two items are equal to the comparison.
-/
import MetaOS.LinearProbing
import Mathlib.Data.Finset.Basic

namespace MetaOS

namespace MinZipHash

variable {α : Type}

/-- What `pEntry->data` points to. -/
inductive Data (α : Type) where
  | null
  | tombstone
  | item (value : α)
deriving DecidableEq

structure HashEntry (α : Type) where
  hashValue : UInt32
  data : Data α
deriving DecidableEq

/-- An entry as `calloc` leaves it. -/
def HashEntry.zero : HashEntry α := ⟨0, .null⟩

structure HashTable (α : Type) where
  tableSize : Nat
  numEntries : Nat
  numDeadEntries : Nat
  pEntries : List (HashEntry α)
deriving DecidableEq

/-- Why an operation has not returned: `calloc` gave nothing, an assertion has
failed, or a search goes round for ever. -/
inductive Failure where
  | noMemory
  | assertion
  | endless
deriving DecidableEq

def LOAD_NUMER : Nat := 5
def LOAD_DENOM : Nat := 8

def mzHashSize (size : UInt32) : UInt32 :=
  size * UInt32.ofNat LOAD_DENOM / UInt32.ofNat LOAD_NUMER + 1

def roundUpPower2 (val : UInt32) : UInt32 :=
  let val := val - 1
  let val := val ||| val >>> 1
  let val := val ||| val >>> 2
  let val := val ||| val >>> 4
  let val := val ||| val >>> 8
  let val := val ||| val >>> 16
  val + 1

namespace HashTable

def entry (entries : List (HashEntry α)) (i : Nat) : HashEntry α :=
  entries.getD i .zero

/-- The items in the entries, in the order of the entries. -/
def items (entries : List (HashEntry α)) : List α :=
  entries.filterMap fun e =>
    match e.data with
    | .item value => some value
    | _ => none

def countTombStones (entries : List (HashEntry α)) [DecidableEq α] : Nat :=
  entries.countP (·.data = .tombstone)

/-- `pEntry++`, and back to the start at the end of the table.  The loop is
left at the end of a table of one entry, where `calloc` has left a zero. -/
def wrap (tableSize i : Nat) : Nat :=
  if i + 1 = tableSize then
    if tableSize = 1 then i + 1 else 0
  else i + 1

end HashTable

open HashTable Probing

section Operations

variable [DecidableEq α]
/- Whether a request for so many entries is granted. -/
variable (memory : Nat → Bool)

/-- `calloc(size, sizeof(HashTable))` on a machine with 32-bit addresses. -/
def calloc (size : Nat) : Except Failure (List (HashEntry α)) :=
  if size * 20 < 2 ^ 32 ∧ memory size then
    .ok (List.replicate size .zero)
  else .error .noMemory

def mzHashTableCreate (initialSize : UInt32) :
    Except Failure (HashTable α) := do
  if initialSize = 0 then .error .assertion
  else
    let tableSize := (roundUpPower2 initialSize).toNat
    let pEntries ← calloc memory tableSize
    .ok ⟨tableSize, 0, 0, pEntries⟩

/-- All entries are cleared.  The result is the items handed to the free
function, if there is one. -/
def mzHashTableClear (table : HashTable α) : List α × HashTable α :=
  (items table.pEntries,
    { table with
      numEntries := 0
      numDeadEntries := 0
      pEntries := table.pEntries.map fun e => { e with data := .null } })

/-- Probe for a new spot, wrapping around. -/
def reinsert (newSize : Nat) (newEntries : List (HashEntry α))
    (e : HashEntry α) : Except Failure (List (HashEntry α)) :=
  match e.data with
  | .item _ =>
      match probe (fun i => (i + 1) &&& (newSize - 1))
          (fun i => (entry newEntries i).data = .null) newSize
          (e.hashValue.toNat &&& (newSize - 1)) with
      | none => .error .endless
      | some newIdx => .ok (newEntries.set newIdx e)
  | _ => .ok newEntries

def resizeHash (table : HashTable α) (newSize : Nat) :
    Except Failure (HashTable α) := do
  if countTombStones table.pEntries ≠ table.numDeadEntries then
    .error .assertion
  else
    let newEntries ← calloc memory newSize
    let newEntries ← table.pEntries.foldlM (reinsert newSize) newEntries
    if countTombStones newEntries ≠ 0 then .error .assertion
    else
      .ok { table with
        tableSize := newSize, numDeadEntries := 0, pEntries := newEntries }

/-- The index at which a loop that stops at `stop` or at an empty entry comes
to an end. -/
def search (table : HashTable α) (itemHash : UInt32)
    (stop : HashEntry α → Bool) : Option Nat :=
  probe (wrap table.tableSize)
    (fun i =>
      let e := entry table.pEntries i
      e.data = .null ∨ stop e)
    (table.tableSize + 1) (itemHash.toNat &&& (table.tableSize - 1))

/-- See if an added entry brings us too close to full. -/
def afterAdd (table : HashTable α) : Except Failure (HashTable α) := do
  let table ←
    if table.tableSize * LOAD_NUMER <
        (table.numEntries + table.numDeadEntries) * LOAD_DENOM then
      resizeHash memory table (table.tableSize * 2)
    else .ok table
  if table.numEntries < table.tableSize then .ok table
  else .error .assertion

def mzHashTableLookup (cmpFunc : α → α → Bool) (table : HashTable α)
    (itemHash : UInt32) (item : α) (doAdd : Bool) :
    Except Failure (Option α × HashTable α) := do
  let isMatch (e : HashEntry α) : Bool :=
    match e.data with
    | .item value => e.hashValue = itemHash ∧ cmpFunc value item
    | _ => false
  if table.tableSize = 0 then .error .assertion
  else
    match search table itemHash isMatch with
    | none => .error .endless
    | some i =>
        match (entry table.pEntries i).data with
        | .item value => .ok (some value, table)
        | .tombstone => .ok (none, table)
        | .null =>
            if doAdd then
              let table ← afterAdd memory
                { table with
                  numEntries := table.numEntries + 1
                  pEntries := table.pEntries.set i ⟨itemHash, .item item⟩ }
              .ok (some item, table)
            else .ok (none, table)

def mzHashTableRemove (table : HashTable α) (itemHash : UInt32) (item : α) :
    Except Failure (Bool × HashTable α) :=
  if table.tableSize = 0 then .error .assertion
  else
    match search table itemHash (fun e => e.data = .item item) with
    | none => .error .endless
    | some i =>
        if (entry table.pEntries i).data = .null then .ok (false, table)
        else
          .ok (true, { table with
            numEntries := table.numEntries - 1
            numDeadEntries := table.numDeadEntries + 1
            pEntries := table.pEntries.set i
              { entry table.pEntries i with data := .tombstone } })

/-- The loop of `mzHashIterNext`. -/
def iterScan (table : HashTable α) : (rounds i : Nat) → Nat
  | 0, i => i
  | rounds + 1, i =>
      match (entry table.pEntries i).data with
      | .item _ => i
      | _ => iterScan table rounds (i + 1)

/-- The index after `idx` that an iterator moves to; it starts at -1. -/
def mzHashIterNext (table : HashTable α) (idx : Int) : Int :=
  let i := (idx + 1).toNat
  iterScan table (table.tableSize - i) i

def mzHashIterDone (table : HashTable α) (idx : Int) : Bool :=
  table.tableSize ≤ idx

def mzHashIterData (table : HashTable α) (idx : Int) : Data α :=
  (entry table.pEntries idx.toNat).data

/-- The data that a loop over all entries visits, from `idx` on. -/
def visit (table : HashTable α) : (rounds : Nat) → (idx : Int) → List (Data α)
  | 0, _ => []
  | rounds + 1, idx =>
      if mzHashIterDone table idx then []
      else
        mzHashIterData table idx ::
          visit table rounds (mzHashIterNext table idx)

/-- `for (mzHashIterBegin(…); !mzHashIterDone(…); mzHashIterNext(…))` -/
def mzHashIterate (table : HashTable α) : List (Data α) :=
  visit table (table.tableSize + 1) (mzHashIterNext table (-1))

inductive Op (α : Type) where
  | lookup (item : α) (doAdd : Bool)
  | remove (item : α)
  | clear
  | iterate

inductive Answer (α : Type) where
  | found (item : Option α)
  | removed (success : Bool)
  | freed (items : List α)
  | visited (data : List (Data α))

variable (cmpFunc : α → α → Bool) (hash : α → UInt32)

/-- One operation of a caller that computes the hash of its item. -/
def perform (table : HashTable α) :
    Op α → Except Failure (Answer α × HashTable α)
  | .lookup item doAdd => do
      let (result, table) ←
        mzHashTableLookup memory cmpFunc table (hash item) item doAdd
      .ok (.found result, table)
  | .remove item => do
      let (result, table) ← mzHashTableRemove table (hash item) item
      .ok (.removed result, table)
  | .clear =>
      let (freed, table) := mzHashTableClear table
      .ok (.freed freed, table)
  | .iterate => .ok (.visited (mzHashIterate table), table)

def performAll (table : HashTable α) :
    List (Op α) → Except Failure (List (Answer α) × HashTable α)
  | [] => .ok ([], table)
  | op :: ops => do
      let (answer, table) ← perform memory cmpFunc hash table op
      let (answers, table) ← performAll table ops
      .ok (answer :: answers, table)

/-- A table is created and then used. -/
def session (initialSize : UInt32) (ops : List (Op α)) :
    Except Failure (List (Answer α) × HashTable α) := do
  let table ← mzHashTableCreate memory initialSize
  performAll memory cmpFunc hash table ops

end Operations

/-- The caller's functions: the comparison is an equivalence, and items it
finds equal have the same hash. -/
structure Keyed (cmpFunc : α → α → Bool) (hash : α → UInt32) : Prop where
  refl (x : α) : cmpFunc x x = true
  symm {x y : α} (hxy : cmpFunc x y = true) : cmpFunc y x = true
  trans {x y z : α} (hxy : cmpFunc x y = true) (hyz : cmpFunc y z = true) :
    cmpFunc x z = true
  hash_eq {x y : α} (hxy : cmpFunc x y = true) : hash x = hash y

/-- What the operations are for: a finite map from keys to items, given by the
set of its items. -/
inductive MapStep [DecidableEq α] (cmpFunc : α → α → Bool) :
    Finset α → Op α → Answer α → Finset α → Prop
  | present {map : Finset α} {item value : α} {doAdd : Bool}
      (hmem : value ∈ map) (hkey : cmpFunc value item = true) :
      MapStep cmpFunc map (.lookup item doAdd) (.found (some value)) map
  | added {map : Finset α} {item : α}
      (habsent : ∀ value ∈ map, cmpFunc value item = false) :
      MapStep cmpFunc map (.lookup item true) (.found (some item))
        (insert item map)
  | absent {map : Finset α} {item : α}
      (habsent : ∀ value ∈ map, cmpFunc value item = false) :
      MapStep cmpFunc map (.lookup item false) (.found none) map
  | removed {map : Finset α} {item : α} (hmem : item ∈ map) :
      MapStep cmpFunc map (.remove item) (.removed true) (map.erase item)
  | notThere {map : Finset α} {item : α} (hnot : item ∉ map) :
      MapStep cmpFunc map (.remove item) (.removed false) map
  | cleared {map : Finset α} {items : List α} (hnodup : items.Nodup)
      (hitems : items.toFinset = map) :
      MapStep cmpFunc map .clear (.freed items) ∅
  | visited {map : Finset α} {items : List α} (hnodup : items.Nodup)
      (hitems : items.toFinset = map) :
      MapStep cmpFunc map .iterate (.visited (items.map .item)) map

/-- The answers to a whole sequence of operations. -/
inductive MapRun [DecidableEq α] (cmpFunc : α → α → Bool) :
    Finset α → List (Op α) → List (Answer α) → Finset α → Prop
  | nil (map : Finset α) : MapRun cmpFunc map [] [] map
  | cons {map after last : Finset α} {op : Op α} {ops : List (Op α)}
      {answer : Answer α} {answers : List (Answer α)}
      (hstep : MapStep cmpFunc map op answer after)
      (hrest : MapRun cmpFunc after ops answers last) :
      MapRun cmpFunc map (op :: ops) (answer :: answers) last

end MinZipHash

end MetaOS
